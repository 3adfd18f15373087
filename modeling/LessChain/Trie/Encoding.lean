import LessChain.Core.Types

/-!
# `trie/encoding.go`

Three encodings of trie keys. KEYBYTES is the key itself; HEX has one byte for each nibble
and a terminator 16 if the key leads to a value; COMPACT packs a HEX key behind a flag and
is what nodes are stored with. The lemmas below say that each pair of conversions the trie
uses is inverse on the keys the trie holds.
-/

namespace LessChain

namespace Trie

/-- `hasTerm`. -/
def hasTerm (s : Bytes) : Bool := s.getLast? = some 16

/-- `decodeNibbles`. It is called with an even number of nibbles only. -/
def decodeNibbles : Bytes → Bytes
  | hi :: lo :: rest => (hi <<< 4 ||| lo) :: decodeNibbles rest
  | _ => []

/-- `hexToCompact`. -/
def hexToCompact (hex : Bytes) : Bytes :=
  let terminator : UInt8 := if hasTerm hex then 1 else 0
  let hex := if hasTerm hex then hex.dropLast else hex
  let flag := terminator <<< 5
  match hex with
  | [] => [flag]
  | x :: rest =>
      if hex.length % 2 = 1 then (flag ||| (1 : UInt8) <<< 4 ||| x) :: decodeNibbles rest
      else flag :: decodeNibbles hex

/-- The nibbles of a byte string. -/
def nibbles (str : Bytes) : Bytes := str.flatMap fun b => [b / 16, b % 16]

/-- `keybytesToHex`. -/
def keybytesToHex (str : Bytes) : Bytes := nibbles str ++ [16]

/-- `compactToHex`. -/
def compactToHex (compact : Bytes) : Bytes :=
  if compact = [] then compact
  else
    let base := keybytesToHex compact
    let flag := base.headD 0
    let base := if flag < 2 then base.dropLast else base
    base.drop (2 - (flag &&& 1).toNat)

/-- `hexToKeybytes`: an odd number of nibbles panics. -/
def hexToKeybytes (hex : Bytes) : Option Bytes :=
  let hex := if hasTerm hex then hex.dropLast else hex
  if hex.length % 2 = 1 then none else some (decodeNibbles hex)

/-- The loop of `hexToCompactInPlace`: two nibbles at `ni` are packed into the byte at `bi`.
The number of nibbles left is even, so `ni + 1` is an index too. -/
def packLoop (hexLen : ℕ) : ℕ → Bytes → ℕ → ℕ → Bytes
  | 0, hex, _, _ => hex
  | fuel + 1, hex, bi, ni =>
      if ni < hexLen then
        packLoop hexLen fuel (hex.set bi (hex.getD ni 0 <<< 4 ||| hex.getD (ni + 1) 0)) (bi + 1)
          (ni + 2)
      else hex

/-- `hexToCompactInPlace`: the bytes of the buffer that hold the result. On an empty buffer
the write to `hex[0]` panics. -/
def hexToCompactInPlace (hex : Bytes) : Option Bytes :=
  let hexLen := if hasTerm hex then hex.length - 1 else hex.length
  let flag := if hasTerm hex then (1 : UInt8) <<< 5 else 0
  let firstByte := if hexLen % 2 = 1 then flag ||| (1 : UInt8) <<< 4 ||| hex.headD 0 else flag
  let ni := if hexLen % 2 = 1 then 1 else 0
  if hex = [] then none
  else some (((packLoop hexLen hexLen hex 1 ni).set 0 firstByte).take (hexLen / 2 + 1))

/-- `prefixLen`. -/
def prefixLen : Bytes → Bytes → ℕ
  | a :: as, b :: bs => if a = b then prefixLen as bs + 1 else 0
  | _, _ => 0

/-! ## Keys the trie holds -/

/-- A HEX key without terminator. -/
def IsNibbles (k : Bytes) : Prop := ∀ x ∈ k, x.toNat < 16

theorem IsNibbles.append {k l : Bytes} (hk : IsNibbles k) (hl : IsNibbles l) :
    IsNibbles (k ++ l) := by
  intro x hx
  rcases List.mem_append.mp hx with hx | hx
  · exact hk x hx
  · exact hl x hx

theorem hasTerm_concat (k : Bytes) : hasTerm (k ++ [16]) = true := by
  simp [hasTerm]

theorem IsNibbles.hasTerm_eq {k : Bytes} (hk : IsNibbles k) : hasTerm k = false := by
  cases hlast : k.getLast? with
  | none => simp [hasTerm, hlast]
  | some x =>
      have hx := hk x (List.mem_of_getLast? hlast)
      have hne : x ≠ 16 := by
        rintro rfl
        exact absurd hx (by decide)
      simp [hasTerm, hlast, hne]

/-! ## Packing nibbles -/

/-- Two nibbles in one byte. -/
theorem toNat_pack {hi lo : UInt8} (hhi : hi.toNat < 16) (hlo : lo.toNat < 16) :
    (hi <<< 4 ||| lo).toNat = 16 * hi.toNat + lo.toNat := by
  have hshift : (hi <<< 4).toNat = hi.toNat <<< 4 := by
    rw [UInt8.toNat_shiftLeft]
    have : hi.toNat <<< 4 < 2 ^ 8 := by
      rw [Nat.shiftLeft_eq]
      omega
    simpa using this
  rw [UInt8.toNat_or, hshift, ← Nat.shiftLeft_add_eq_or_of_lt (by omega), Nat.shiftLeft_eq]
  omega

theorem unpack_pack {hi lo : UInt8} (hhi : hi.toNat < 16) (hlo : lo.toNat < 16) :
    (hi <<< 4 ||| lo) / 16 = hi ∧ (hi <<< 4 ||| lo) % 16 = lo := by
  have hpack := toNat_pack hhi hlo
  constructor
  · apply UInt8.toNat_inj.mp
    rw [UInt8.toNat_div, hpack]
    simp
    omega
  · apply UInt8.toNat_inj.mp
    rw [UInt8.toNat_mod, hpack]
    simp
    omega

theorem pack_unpack (b : UInt8) : (b / 16) <<< 4 ||| b % 16 = b := by
  have hdiv : (b / 16).toNat = b.toNat / 16 := by simp
  have hmod : (b % 16).toNat = b.toNat % 16 := by simp
  have hb := b.toNat_lt
  apply UInt8.toNat_inj.mp
  rw [toNat_pack (by omega) (by omega), hdiv, hmod]
  omega

theorem decodeNibbles_nibbles (str : Bytes) : decodeNibbles (nibbles str) = str := by
  induction str with
  | nil => rfl
  | cons b str ih =>
      show (_ :: decodeNibbles (nibbles str)) = _
      rw [ih, pack_unpack]

theorem nibbles_decodeNibbles {k : Bytes} (hk : IsNibbles k) (heven : k.length % 2 = 0) :
    nibbles (decodeNibbles k) = k := by
  induction k using decodeNibbles.induct with
  | case1 hi lo rest ih =>
      have hhi := hk hi (by simp)
      have hlo := hk lo (by simp)
      have hrest : IsNibbles rest := fun x hx => hk x (by simp [hx])
      have heven' : rest.length % 2 = 0 := by
        simp only [List.length_cons] at heven
        omega
      rcases unpack_pack hhi hlo with ⟨hdiv, hmod⟩
      show [_ / 16, _ % 16] ++ nibbles (decodeNibbles rest) = _
      rw [ih hrest heven', hdiv, hmod]
      rfl
  | case2 k hshort =>
      -- fewer than two nibbles, and an even number of them
      match k, hshort with
      | [], _ => rfl
      | [_], _ => simp at heven
      | hi :: lo :: rest, h => exact absurd rfl (h hi lo rest)

theorem length_nibbles (str : Bytes) : (nibbles str).length = 2 * str.length := by
  induction str with
  | nil => rfl
  | cons b str ih =>
      show ([_, _] ++ nibbles str).length = _
      rw [List.length_append, ih]
      simp
      omega

theorem isNibbles_nibbles (str : Bytes) : IsNibbles (nibbles str) := by
  intro x hx
  rcases List.mem_flatMap.mp hx with ⟨b, -, hb⟩
  have hlt := b.toNat_lt
  rcases List.mem_cons.mp hb with rfl | hb
  · simp
    omega
  · rw [List.mem_singleton.mp hb]
    simp
    omega

/-! ## Conversions are inverse -/

theorem hexToKeybytes_keybytesToHex (str : Bytes) :
    hexToKeybytes (keybytesToHex str) = some str := by
  have heven : (nibbles str).length % 2 = 0 := by
    rw [length_nibbles]
    omega
  simp [hexToKeybytes, keybytesToHex, hasTerm_concat, heven, decodeNibbles_nibbles]

theorem keybytesToHex_injective : Function.Injective keybytesToHex := by
  intro a b hab
  have := congrArg hexToKeybytes hab
  rwa [hexToKeybytes_keybytesToHex, hexToKeybytes_keybytesToHex, Option.some.injEq] at this

/-- A terminated key with an even number of nibbles is the HEX form of a byte string. -/
theorem hexToKeybytes_concat {k : Bytes} (hk : IsNibbles k) (heven : k.length % 2 = 0) :
    ∃ str, hexToKeybytes (k ++ [16]) = some str ∧ keybytesToHex str = k ++ [16] := by
  refine ⟨decodeNibbles k, ?_, ?_⟩
  · simp [hexToKeybytes, hasTerm_concat, heven]
  · rw [keybytesToHex, nibbles_decodeNibbles hk heven]

/-- The flag byte and the rest of a compact key. -/
theorem compactToHex_cons (first : UInt8) (rest : Bytes) :
    compactToHex (first :: rest) =
      (if first / 16 < 2 then first / 16 :: first % 16 :: nibbles rest
        else first / 16 :: first % 16 :: nibbles rest ++ [16]).drop
          (2 - (first / 16 &&& 1).toNat) := by
  have hbase : keybytesToHex (first :: rest) =
      first / 16 :: first % 16 :: nibbles rest ++ [16] := rfl
  have hdrop : (first / 16 :: first % 16 :: (nibbles rest ++ [16])).dropLast =
      first / 16 :: first % 16 :: nibbles rest := by
    rw [← List.cons_append, ← List.cons_append, List.dropLast_concat]
  simp only [compactToHex, hbase, List.cons_append, List.headD_cons, reduceCtorEq, if_false, hdrop]

theorem compactToHex_hexToCompact {k : Bytes} (hk : IsNibbles k) :
    compactToHex (hexToCompact k) = k ∧
      compactToHex (hexToCompact (k ++ [16])) = k ++ [16] := by
  cases k with
  | nil => exact ⟨by decide, by decide⟩
  | cons x rest =>
      have hx := hk x (by simp)
      have hrest : IsNibbles rest := fun y hy => hk y (by simp [hy])
      have hterm : hasTerm (x :: rest ++ [16]) = true := hasTerm_concat _
      by_cases hodd : (x :: rest).length % 2 = 1
      · -- the first nibble stands in the flag byte
        have heven : rest.length % 2 = 0 := by
          simp only [List.length_cons] at hodd
          omega
        have hleaf := unpack_pack (show (3 : UInt8).toNat < 16 by decide) hx
        have hext := unpack_pack (show (1 : UInt8).toNat < 16 by decide) hx
        constructor
        · simp only [hexToCompact, hk.hasTerm_eq, Bool.false_eq_true, if_false, if_pos hodd]
          rw [show (0 : UInt8) <<< 5 ||| (1 : UInt8) <<< 4 ||| x = (1 : UInt8) <<< 4 ||| x by simp,
            compactToHex_cons, hext.1, hext.2, nibbles_decodeNibbles hrest heven]
          simp
        · simp only [hexToCompact, hterm, if_true, List.dropLast_concat, if_pos hodd]
          rw [show (1 : UInt8) <<< 5 ||| (1 : UInt8) <<< 4 ||| x = (3 : UInt8) <<< 4 ||| x by rfl,
            compactToHex_cons, hleaf.1, hleaf.2, nibbles_decodeNibbles hrest heven]
          simp
      · have heven : (x :: rest).length % 2 = 0 := by omega
        constructor
        · simp only [hexToCompact, hk.hasTerm_eq, Bool.false_eq_true, if_false, if_neg hodd]
          rw [compactToHex_cons, nibbles_decodeNibbles hk heven]
          simp
        · simp only [hexToCompact, hterm, if_true, List.dropLast_concat, if_neg hodd]
          rw [compactToHex_cons, nibbles_decodeNibbles hk heven,
            show (1 : UInt8) <<< 5 / 16 = 2 by rfl, show (1 : UInt8) <<< 5 % 16 = 0 by rfl]
          simp

/-! ## Packing in place -/

/-- The loop writes at or before the place it reads next, so it packs the nibbles that were
there at the start. -/
theorem take_packLoop {hexLen fuel bi ni : ℕ} {hex : Bytes} (hlen : hexLen ≤ hex.length)
    (hbi : bi ≤ ni + 1) (hni : ni ≤ hexLen) (heven : (hexLen - ni) % 2 = 0)
    (hfuel : hexLen ≤ ni + fuel) :
    (packLoop hexLen fuel hex bi ni).take (bi + (hexLen - ni) / 2) =
      hex.take bi ++ decodeNibbles ((hex.take hexLen).drop ni) := by
  induction fuel generalizing hex bi ni with
  | zero =>
      have hdone : ni = hexLen := by omega
      subst hdone
      simp [packLoop, decodeNibbles]
  | succ fuel ih =>
      rw [packLoop]
      by_cases hlt : ni < hexLen
      · have hlt' : ni + 1 < hexLen := by omega
        have h0 : (hex.take hexLen).drop ni = hex.getD ni 0 :: hex.getD (ni + 1) 0 ::
            (hex.take hexLen).drop (ni + 2) := by
          have hget : ∀ i, i < hexLen → (hex.take hexLen).drop i =
              hex.getD i 0 :: (hex.take hexLen).drop (i + 1) := by
            intro i hi
            have hi' : i < (hex.take hexLen).length := by
              rw [List.length_take]
              omega
            rw [List.drop_eq_getElem_cons hi', List.getElem_take, List.getD_eq_getElem?_getD,
              List.getElem?_eq_getElem (by omega), Option.getD_some]
          rw [hget ni hlt, hget (ni + 1) hlt']
        generalize hp : hex.getD ni 0 <<< 4 ||| hex.getD (ni + 1) 0 = p at ih ⊢
        have hrec := @ih (bi + 1) (ni + 2) (hex.set bi p)
          (by rw [List.length_set]; exact hlen) (by omega) (by omega) (by omega) (by omega)
        have hcount : bi + 1 + (hexLen - (ni + 2)) / 2 = bi + (hexLen - ni) / 2 := by omega
        have htake : (hex.set bi p).take (bi + 1) = hex.take bi ++ [p] := by
          rw [List.take_add_one, List.take_set_of_le (Nat.le_refl bi),
            List.getElem?_set_self (by omega)]
          rfl
        -- the write is before what is still to be read
        have hdrop : ((hex.set bi p).take hexLen).drop (ni + 2) =
            (hex.take hexLen).drop (ni + 2) := by
          rw [List.take_set, List.drop_set_of_lt (by omega)]
        rw [if_pos hlt, ← hcount, hrec, htake, hdrop, h0, decodeNibbles, hp, List.append_assoc]
        rfl
      · have hdone : ni = hexLen := by omega
        subst hdone
        simp [decodeNibbles]

/-- Packing in place gives what `hexToCompact` gives. -/
theorem hexToCompactInPlace_eq {hex : Bytes} (hne : hex ≠ []) :
    hexToCompactInPlace hex = some (hexToCompact hex) := by
  -- the nibbles without the terminator
  obtain ⟨hexLen, body, hbody, hhexLen, hflag⟩ : ∃ hexLen body,
      (if hasTerm hex then hex.dropLast else hex) = body ∧
      (if hasTerm hex then hex.length - 1 else hex.length) = hexLen ∧ body = hex.take hexLen := by
    by_cases hterm : hasTerm hex
    · exact ⟨_, _, rfl, rfl, by simp [hterm, List.dropLast_eq_take]⟩
    · exact ⟨_, _, rfl, rfl, by simp [hterm]⟩
  have hlen : hexLen ≤ hex.length := by
    rw [← hhexLen]
    split <;> omega
  have hbodyLen : body.length = hexLen := by
    rw [hflag, List.length_take]
    omega
  rcases List.exists_cons_of_ne_nil hne with ⟨h, t, rfl⟩
  have hset : ∀ (n : ℕ) (l r : Bytes) (b : UInt8), l.take (n + 1) = [h] ++ r →
      (l.set 0 b).take (n + 1) = b :: r := by
    intro n l r b hl
    rw [List.take_set, hl]
    rfl
  have hterminator : (if hasTerm (h :: t) = true then (1 : UInt8) <<< 5 else 0) =
      (if hasTerm (h :: t) = true then (1 : UInt8) else 0) <<< 5 := by
    split <;> rfl
  simp only [hexToCompactInPlace, hexToCompact, hbody, hhexLen, if_neg hne, hterminator,
    List.headD_cons]
  by_cases hodd : hexLen % 2 = 1
  · have hpack := @take_packLoop hexLen hexLen 1 1 (h :: t) hlen
      (by omega) (by omega) (by omega) (by omega)
    rw [show 1 + (hexLen - 1) / 2 = hexLen / 2 + 1 by omega, ← hflag] at hpack
    -- the first nibble stands in the first byte
    have hcons : body = h :: body.drop 1 := by
      rw [hflag]
      obtain ⟨m, rfl⟩ : ∃ m, hexLen = m + 1 := ⟨hexLen - 1, by omega⟩
      rfl
    have hodd' : (h :: body.drop 1).length % 2 = 1 := by
      rw [← hcons, hbodyLen]
      exact hodd
    rw [if_pos hodd, if_pos hodd, hset _ _ _ _ hpack, hcons]
    simp only [if_pos hodd', List.drop_succ_cons, List.drop_zero]
  · have hpack := @take_packLoop hexLen hexLen 1 0 (h :: t) hlen
      (by omega) (by omega) (by omega) (by omega)
    rw [show 1 + (hexLen - 0) / 2 = hexLen / 2 + 1 by omega, ← hflag, List.drop_zero] at hpack
    rw [if_neg hodd, if_neg hodd, hset _ _ _ _ hpack]
    cases body with
    | nil => simp [decodeNibbles]
    | cons x rest =>
        have hodd' : ¬ (x :: rest).length % 2 = 1 := by
          rw [hbodyLen]
          exact hodd
        simp only [if_neg hodd']

end Trie

end LessChain

import Mathlib.Algebra.Order.Ring.Nat
import Mathlib.Tactic.Ring
import LessChain.Lib.Words

/-!
# Big-endian numbers and RLP

Byte strings, numbers as byte strings, and the recursive length prefix format: how strings
and lists are written, and how a reader takes the first value off a buffer. The reader
rejects what is not canonical. `split_encodeString` and `split_encodeList` say that it reads
back what was written, `countValues_flatten` that it counts written values, and
`flatten_inj` that a buffer determines the values it holds.
-/

namespace Sys

/-- The number a byte string denotes, most significant byte first. -/
def fromBE (b : List UInt8) : ℕ := b.foldl (fun n x => n * 256 + x.toNat) 0

/-- The `n` low bytes of `v`. -/
def toBE : ℕ → ℕ → List UInt8
  | 0, _ => []
  | n + 1, v => toBE n (v / 256) ++ [UInt8.ofNat v]

/-- Loop of `minBE`, with `fuel` bytes at most. -/
def minBEAux : ℕ → ℕ → List UInt8
  | 0, _ => []
  | fuel + 1, v => if v = 0 then [] else minBEAux fuel (v / 256) ++ [UInt8.ofNat v]

/-- A number as a byte string without leading zeros. -/
def minBE (v : ℕ) : List UInt8 := minBEAux v v

theorem fromBE_concat (b : List UInt8) (x : UInt8) :
    fromBE (b ++ [x]) = fromBE b * 256 + x.toNat := by
  simp [fromBE]

theorem length_toBE (n v : ℕ) : (toBE n v).length = n := by
  induction n generalizing v with
  | zero => rfl
  | succ n ih => simp [toBE, ih]

theorem fromBE_toBE (n v : ℕ) : fromBE (toBE n v) = v % 256 ^ n := by
  induction n generalizing v with
  | zero => simp [toBE, fromBE, Nat.mod_one]
  | succ n ih =>
      have hmod : v % 256 ^ (n + 1) = v % 256 + 256 * (v / 256 % 256 ^ n) := by
        rw [Nat.pow_succ', Nat.mod_mul]
      rw [toBE, fromBE_concat, ih, UInt8.toNat_ofNat', hmod]
      omega

theorem minBEAux_spec (fuel v : ℕ) (h : v ≤ fuel) :
    fromBE (minBEAux fuel v) = v ∧ (minBEAux fuel v).head? ≠ some 0 ∧
      ∀ k, v < 256 ^ k → (minBEAux fuel v).length ≤ k := by
  induction fuel generalizing v with
  | zero =>
      obtain rfl : v = 0 := by omega
      simp [minBEAux, fromBE]
  | succ fuel ih =>
      unfold minBEAux
      by_cases hv : v = 0
      · simp [hv, fromBE]
      · rw [if_neg hv]
        rcases ih (v / 256) (by omega) with ⟨hval, hhead, hlen⟩
        refine ⟨?_, ?_, ?_⟩
        · rw [fromBE_concat, hval, UInt8.toNat_ofNat']
          omega
        · -- the first byte is the last one only for a number below 256
          cases hrest : minBEAux fuel (v / 256) with
          | nil =>
              rw [hrest] at hval
              have hsmall : v < 256 := by
                have : fromBE [] = 0 := rfl
                omega
              intro hzero
              have hz : UInt8.ofNat v = 0 := by simpa using hzero
              have := congrArg UInt8.toNat hz
              rw [UInt8.toNat_ofNat', Nat.mod_eq_of_lt hsmall] at this
              exact hv this
          | cons x xs =>
              rw [hrest] at hhead
              simpa using hhead
        · intro k hk
          cases k with
          | zero => simp at hk; omega
          | succ k =>
              have := hlen k (by rw [Nat.pow_succ] at hk; omega)
              simp
              omega

@[simp] theorem fromBE_minBE (v : ℕ) : fromBE (minBE v) = v :=
  (minBEAux_spec v v le_rfl).1

theorem head?_minBE (v : ℕ) : (minBE v).head? ≠ some 0 :=
  (minBEAux_spec v v le_rfl).2.1

theorem length_minBE_le {v k : ℕ} (h : v < 256 ^ k) : (minBE v).length ≤ k :=
  (minBEAux_spec v v le_rfl).2.2 k h

theorem length_minBE_pos {v : ℕ} (h : 0 < v) : 0 < (minBE v).length := by
  rw [List.length_pos_iff]
  intro hnil
  have := fromBE_minBE v
  rw [hnil] at this
  have hz : fromBE [] = 0 := rfl
  omega

theorem minBE_injective : Function.Injective minBE :=
  Function.LeftInverse.injective fromBE_minBE

theorem minBE_of_lt {v : ℕ} (hpos : 0 < v) (hlt : v < 256) : minBE v = [UInt8.ofNat v] := by
  have hdiv : v / 256 = 0 := Nat.div_eq_of_lt hlt
  have haux : ∀ fuel, minBEAux fuel 0 = [] := by
    intro fuel
    cases fuel <;> simp [minBEAux]
  obtain ⟨w, rfl⟩ : ∃ w, v = w + 1 := ⟨v - 1, by omega⟩
  rw [minBE, minBEAux, if_neg (by omega), hdiv, haux]
  rfl

theorem fromBE_cons (x : UInt8) (b : List UInt8) :
    fromBE (x :: b) = x.toNat * 256 ^ b.length + fromBE b := by
  have hloop : ∀ (b : List UInt8) (n : ℕ), b.foldl (fun n x => n * 256 + x.toNat) n =
      n * 256 ^ b.length + fromBE b := by
    intro b
    induction b with
    | nil => simp [fromBE]
    | cons y b ih =>
        intro n
        have hy : fromBE (y :: b) = y.toNat * 256 ^ b.length + fromBE b := by
          simpa [fromBE] using ih y.toNat
        rw [List.foldl_cons, ih, hy, List.length_cons, Nat.pow_succ]
        ring
  simpa [fromBE] using hloop b x.toNat

theorem fromBE_lt (b : List UInt8) : fromBE b < 256 ^ b.length := by
  induction b with
  | nil => simp [fromBE]
  | cons x b ih =>
      have hx := x.toNat_lt
      have hle : (x.toNat + 1) * 256 ^ b.length ≤ 256 * 256 ^ b.length :=
        Nat.mul_le_mul_right _ (by omega)
      rw [Nat.succ_mul] at hle
      rw [fromBE_cons, List.length_cons, Nat.pow_succ, Nat.mul_comm _ 256]
      omega

theorem length_minBE_mono {v w : ℕ} (h : v ≤ w) : (minBE v).length ≤ (minBE w).length := by
  apply length_minBE_le
  calc v ≤ fromBE (minBE w) := by rwa [fromBE_minBE]
    _ < 256 ^ (minBE w).length := fromBE_lt _

/-- Numbers with one number of bytes are ordered like words. -/
theorem before_of_fromBE_lt {a b : List UInt8} (hlen : a.length = b.length)
    (h : fromBE a < fromBE b) : Before a b := by
  induction a generalizing b with
  | nil =>
      cases b with
      | nil => exact absurd h (Nat.lt_irrefl _)
      | cons y b => cases hlen
  | cons x a ih =>
      cases b with
      | nil => cases hlen
      | cons y b =>
          have hlen' : a.length = b.length := Nat.succ.inj hlen
          rw [fromBE_cons, fromBE_cons, hlen'] at h
          have ha := fromBE_lt a
          have hb := fromBE_lt b
          rw [hlen'] at ha
          by_cases hxy : x = y
          · subst hxy
            exact before_cons.mpr (.inr ⟨rfl, ih hlen' (by omega)⟩)
          · refine ⟨[], x, y, a, b, rfl, rfl, UInt8.lt_iff_toNat_lt.mpr ?_⟩
            have hne : x.toNat ≠ y.toNat := fun heq => hxy (UInt8.toNat_inj.mp heq)
            by_contra hge
            have hle : (y.toNat + 1) * 256 ^ b.length ≤ x.toNat * 256 ^ b.length :=
              Nat.mul_le_mul_right _ (by omega)
            rw [Nat.succ_mul] at hle
            omega

/-! ## RLP -/

namespace Rlp

/-- What a value on the wire is. -/
inductive Kind where
  | byte
  | string
  | list
deriving DecidableEq, Repr

/-- The header of a string (`offset = 0x80`) or list (`offset = 0xC0`) of `len` bytes. -/
def header (offset len : ℕ) : List UInt8 :=
  if len < 56 then [UInt8.ofNat (offset + len)]
  else UInt8.ofNat (offset + 55 + (minBE len).length) :: minBE len

/-- Strings of one small byte are their own encoding. -/
def isByte (s : List UInt8) : Bool := s.length = 1 ∧ s.all (·.toNat < 0x80)

def encodeString (s : List UInt8) : List UInt8 :=
  if isByte s then s else header 0x80 s.length ++ s

/-- A list, given the concatenated encodings of its elements. -/
def encodeList (payload : List UInt8) : List UInt8 := header 0xC0 payload.length ++ payload

/-- Read the size field of a long string or list. -/
def readSize (b : List UInt8) (slen : ℕ) : Option ℕ :=
  if slen > b.length then none
  else
    let s := fromBE (b.take slen)
    if s < 56 ∨ b.head? = some 0 then none else some s

/-- Kind, size of the header and size of the content, before the buffer's length is
checked. -/
def readHeader : List UInt8 → Option (Kind × ℕ × ℕ)
  | [] => none
  | x :: rest =>
      let b := x.toNat
      if b < 0x80 then some (.byte, 0, 1)
      else if b < 0xB8 then
        -- a small byte has no header
        if b - 0x80 = 1 ∧ rest.head?.any (·.toNat < 0x80) then none
        else some (.string, 1, b - 0x80)
      else if b < 0xC0 then (readSize rest (b - 0xB7)).map fun s => (.string, b - 0xB7 + 1, s)
      else if b < 0xF8 then some (.list, 1, b - 0xC0)
      else (readSize rest (b - 0xF7)).map fun s => (.list, b - 0xF7 + 1, s)

def readKind (buf : List UInt8) : Option (Kind × ℕ × ℕ) := do
  let (k, tagsize, contentsize) ← readHeader buf
  if contentsize > buf.length - tagsize then none else some (k, tagsize, contentsize)

/-- Kind and content of the first value, and the rest of the buffer. -/
def split (b : List UInt8) : Option (Kind × List UInt8 × List UInt8) := do
  let (k, ts, cs) ← readKind b
  some (k, (b.drop ts).take cs, b.drop (ts + cs))

def splitString (b : List UInt8) : Option (List UInt8 × List UInt8) := do
  let (k, content, rest) ← split b
  if k = .list then none else some (content, rest)

def splitList (b : List UInt8) : Option (List UInt8 × List UInt8) := do
  let (k, content, rest) ← split b
  if k = .list then some (content, rest) else none

/-- Loop of `countValues`; every value takes at least one byte. -/
def countValuesAux : ℕ → List UInt8 → Option ℕ
  | 0, _ => some 0
  | fuel + 1, b =>
      if b = [] then some 0
      else do
        let (_, _, rest) ← split b
        let n ← countValuesAux fuel rest
        some (n + 1)

/-- The number of values in a buffer. -/
def countValues (b : List UInt8) : Option ℕ := countValuesAux b.length b

/-! ### Reading back what was written -/

theorem readSize_minBE {len : ℕ} (h : 56 ≤ len) (rest : List UInt8) :
    readSize (minBE len ++ rest) (minBE len).length = some len := by
  have hpos := length_minBE_pos (show 0 < len by omega)
  have hhead : (minBE len ++ rest).head? ≠ some 0 := by
    cases hm : minBE len with
    | nil => simp [hm] at hpos
    | cons x xs =>
        have := head?_minBE len
        rw [hm] at this
        simpa using this
  unfold readSize
  rw [if_neg (by simp), List.take_left', fromBE_minBE]
  · rw [if_neg]
    exact not_or.mpr ⟨Nat.not_lt.mpr h, hhead⟩
  · rfl

private theorem toNat_ofNat_of_lt {n : ℕ} (h : n < 256) : (UInt8.ofNat n).toNat = n := by
  rw [UInt8.toNat_ofNat']
  exact Nat.mod_eq_of_lt h

private theorem length_size_field {len : ℕ} (h : 56 ≤ len) (hlen : len < 2 ^ 64) :
    0 < (minBE len).length ∧ (minBE len).length ≤ 8 := by
  refine ⟨length_minBE_pos (by omega), length_minBE_le ?_⟩
  calc len < 2 ^ 64 := hlen
    _ = 256 ^ 8 := rfl

/-- Reading a header that is followed by its content gives the content and the rest. -/
theorem split_of_readHeader {k : Kind} {hd content rest : List UInt8}
    (h : readHeader (hd ++ content ++ rest) = some (k, hd.length, content.length)) :
    split (hd ++ content ++ rest) = some (k, content, rest) := by
  have hkind : readKind (hd ++ content ++ rest) = some (k, hd.length, content.length) := by
    simp only [readKind, h, Option.bind_eq_bind, Option.bind_some]
    rw [if_neg]
    simp only [List.length_append]
    omega
  have hdrop : (hd ++ content ++ rest).drop (hd.length + content.length) = rest := by
    rw [← List.length_append]
    exact List.drop_left
  have htake : ((hd ++ content ++ rest).drop hd.length).take content.length = content := by
    rw [List.append_assoc, List.drop_left, List.take_left]
  simp only [split, hkind, Option.bind_eq_bind, Option.bind_some, hdrop, htake]

theorem split_encodeList {payload : List UInt8} (hlen : payload.length < 2 ^ 64)
    (rest : List UInt8) :
    split (encodeList payload ++ rest) = some (.list, payload, rest) := by
  unfold encodeList
  apply split_of_readHeader
  unfold header
  split
  · rename_i hshort
    have hb := toNat_ofNat_of_lt (show 0xC0 + payload.length < 256 by omega)
    simp only [List.cons_append, readHeader, hb]
    rw [if_neg (by omega), if_neg (by omega), if_neg (by omega), if_pos (by omega)]
    simp
  · rename_i hlong
    have hlong' : 56 ≤ payload.length := by omega
    have hfield := length_size_field hlong' hlen
    have hb := toNat_ofNat_of_lt (show 0xC0 + 55 + (minBE payload.length).length < 256 by omega)
    simp only [List.cons_append, readHeader, hb, List.append_assoc]
    rw [if_neg (by omega), if_neg (by omega), if_neg (by omega), if_neg (by omega),
      show 0xC0 + 55 + (minBE payload.length).length - 0xF7 = (minBE payload.length).length by omega,
      readSize_minBE hlong']
    simp

theorem isByte_iff {s : List UInt8} : isByte s = true ↔ ∃ x, s = [x] ∧ x.toNat < 0x80 := by
  constructor
  · intro h
    simp only [isByte, decide_eq_true_eq] at h
    rcases List.length_eq_one_iff.mp h.1 with ⟨x, rfl⟩
    exact ⟨x, rfl, by simpa using h.2⟩
  · rintro ⟨x, rfl, hx⟩
    simpa [isByte] using hx

/-- The kind under which a string is read back. -/
def stringKind (s : List UInt8) : Kind := if isByte s then .byte else .string

theorem split_encodeString {s : List UInt8} (hlen : s.length < 2 ^ 64) (rest : List UInt8) :
    split (encodeString s ++ rest) = some (stringKind s, s, rest) := by
  unfold encodeString stringKind
  by_cases hbyte : isByte s = true
  · rw [if_pos hbyte, if_pos hbyte]
    rcases isByte_iff.mp hbyte with ⟨x, rfl, hx⟩
    have hhead : readHeader ([] ++ [x] ++ rest) = some (.byte, ([] : List UInt8).length, 1) := by
      simp only [List.nil_append, List.cons_append, readHeader]
      rw [if_pos hx]
      rfl
    exact split_of_readHeader hhead
  · rw [if_neg hbyte, if_neg hbyte]
    apply split_of_readHeader
    unfold header
    split
    · rename_i hshort
      have hb := toNat_ofNat_of_lt (show 0x80 + s.length < 256 by omega)
      simp only [List.cons_append, readHeader, hb]
      rw [if_neg (by omega), if_pos (by omega), if_neg]
      · simp
      · -- one byte with a header is a large one
        rintro ⟨hone, hsmall⟩
        apply hbyte
        rcases List.length_eq_one_iff.mp (show s.length = 1 by omega) with ⟨x, rfl⟩
        exact isByte_iff.mpr ⟨x, rfl, by simpa using hsmall⟩
    · rename_i hlong
      have hlong' : 56 ≤ s.length := by omega
      have hfield := length_size_field hlong' hlen
      have hb := toNat_ofNat_of_lt (show 0x80 + 55 + (minBE s.length).length < 256 by omega)
      simp only [List.cons_append, readHeader, hb, List.append_assoc]
      rw [if_neg (by omega), if_neg (by omega), if_pos (by omega),
        show 0x80 + 55 + (minBE s.length).length - 0xB7 = (minBE s.length).length by omega,
        readSize_minBE hlong']
      simp

theorem splitString_encodeString {s : List UInt8} (hlen : s.length < 2 ^ 64)
    (rest : List UInt8) : splitString (encodeString s ++ rest) = some (s, rest) := by
  have hkind : stringKind s ≠ .list := by
    unfold stringKind
    split <;> simp
  simp [splitString, split_encodeString hlen, hkind]

theorem splitList_encodeList {payload : List UInt8} (hlen : payload.length < 2 ^ 64)
    (rest : List UInt8) : splitList (encodeList payload ++ rest) = some (payload, rest) := by
  simp [splitList, split_encodeList hlen]

/-! ### Counting values -/

/-- `b` is the encoding of one value. -/
def IsValue (b : List UInt8) : Prop := b ≠ [] ∧ ∀ rest, ∃ k c, split (b ++ rest) = some (k, c, rest)

theorem header_ne_nil (offset len : ℕ) : header offset len ≠ [] := by
  unfold header
  split <;> simp

theorem isValue_encodeString {s : List UInt8} (hlen : s.length < 2 ^ 64) :
    IsValue (encodeString s) := by
  refine ⟨?_, fun rest => ⟨_, _, split_encodeString hlen rest⟩⟩
  unfold encodeString
  split
  · rename_i hbyte
    rcases isByte_iff.mp hbyte with ⟨x, rfl, -⟩
    simp
  · simp [header_ne_nil]

theorem countValues_flatten {vs : List (List UInt8)} (h : ∀ v ∈ vs, IsValue v) :
    countValues vs.flatten = some vs.length := by
  have hloop : ∀ (vs : List (List UInt8)) (fuel : ℕ), (∀ v ∈ vs, IsValue v) →
      vs.flatten.length ≤ fuel → countValuesAux fuel vs.flatten = some vs.length := by
    intro vs
    induction vs with
    | nil =>
        intro fuel _ _
        cases fuel <;> simp [countValuesAux]
    | cons v vs ih =>
        intro fuel hvs hfuel
        rcases hvs v List.mem_cons_self with ⟨hne, hsplit⟩
        have hpos : 0 < v.length := List.length_pos_iff.mpr hne
        simp only [List.flatten_cons, List.length_append] at hfuel ⊢
        cases fuel with
        | zero => omega
        | succ fuel =>
            rcases hsplit vs.flatten with ⟨k, c, hk⟩
            have hrest := ih fuel (fun w hw => hvs w (List.mem_cons_of_mem _ hw)) (by omega)
            simp [countValuesAux, hne, hk, hrest]
  exact hloop vs _ h le_rfl

theorem countValues_pair {a b : List UInt8} (ha : IsValue a) (hb : IsValue b) :
    countValues (a ++ b) = some 2 := by
  have hcount : countValues [a, b].flatten = some [a, b].length := by
    apply countValues_flatten
    intro v hv
    rcases List.mem_cons.mp hv with rfl | hv
    · exact ha
    · rw [List.mem_singleton.mp hv]
      exact hb
  simpa using hcount

/-! ### Sizes -/

theorem length_le_encodeString (s : List UInt8) : s.length ≤ (encodeString s).length := by
  unfold encodeString
  split
  · exact le_rfl
  · simp

/-- A string that is not a single small byte gets a header. -/
theorem length_lt_encodeString {s : List UInt8} (h : s.length ≠ 1) :
    s.length < (encodeString s).length := by
  have hbyte : ¬ isByte s = true := by
    simp [isByte, h]
  have hheader := List.length_pos_iff.mpr (header_ne_nil 0x80 s.length)
  rw [encodeString, if_neg hbyte, List.length_append]
  omega

theorem length_lt_encodeList (payload : List UInt8) :
    payload.length < (encodeList payload).length := by
  have := List.length_pos_iff.mpr (header_ne_nil 0xC0 payload.length)
  rw [encodeList, List.length_append]
  omega

/-! ### Written values determine what was written -/

theorem isValue_encodeList {payload : List UInt8} (hlen : payload.length < 2 ^ 64) :
    IsValue (encodeList payload) := by
  refine ⟨?_, fun rest => ⟨_, _, split_encodeList hlen rest⟩⟩
  simp [encodeList, header_ne_nil]

/-- The first value of a buffer ends at one place. -/
theorem IsValue.append_inj {a b r s : List UInt8} (ha : IsValue a) (hb : IsValue b)
    (h : a ++ r = b ++ s) : a = b ∧ r = s := by
  rcases ha.2 r with ⟨k, c, hsplit⟩
  rcases hb.2 s with ⟨k', c', hsplit'⟩
  rw [h, hsplit'] at hsplit
  obtain rfl : r = s := by
    simp only [Option.some.injEq, Prod.mk.injEq] at hsplit
    exact hsplit.2.2.symm
  exact ⟨List.append_cancel_right h, rfl⟩

/-- A buffer determines the values written to it one after the other. -/
theorem flatten_inj {vs ws : List (List UInt8)} (hvs : ∀ v ∈ vs, IsValue v)
    (hws : ∀ w ∈ ws, IsValue w) (h : vs.flatten = ws.flatten) : vs = ws := by
  induction vs generalizing ws with
  | nil =>
      cases ws with
      | nil => rfl
      | cons w ws =>
          have hnil : w ++ ws.flatten = [] := by simpa using h.symm
          exact absurd (List.append_eq_nil_iff.mp hnil).1 (hws w List.mem_cons_self).1
  | cons v vs ih =>
      cases ws with
      | nil =>
          have hnil : v ++ vs.flatten = [] := by simpa using h
          exact absurd (List.append_eq_nil_iff.mp hnil).1 (hvs v List.mem_cons_self).1
      | cons w ws =>
          rw [List.flatten_cons, List.flatten_cons] at h
          rcases (hvs v List.mem_cons_self).append_inj (hws w List.mem_cons_self) h with
            ⟨rfl, hrest⟩
          rw [ih (fun x hx => hvs x (List.mem_cons_of_mem _ hx))
            (fun x hx => hws x (List.mem_cons_of_mem _ hx)) hrest]

theorem encodeString_inj {s t : List UInt8} (hs : s.length < 2 ^ 64) (ht : t.length < 2 ^ 64)
    (h : encodeString s = encodeString t) : s = t := by
  have hsplit := splitString_encodeString hs []
  rw [h, splitString_encodeString ht] at hsplit
  simpa using hsplit.symm

theorem encodeList_inj {p q : List UInt8} (hp : p.length < 2 ^ 64) (hq : q.length < 2 ^ 64)
    (h : encodeList p = encodeList q) : p = q := by
  have hsplit := splitList_encodeList hp []
  rw [h, splitList_encodeList hq] at hsplit
  simpa using hsplit.symm

theorem encodeString_ne_encodeList {s p : List UInt8} (hs : s.length < 2 ^ 64)
    (hp : p.length < 2 ^ 64) : encodeString s ≠ encodeList p := by
  intro h
  have hsplit := splitString_encodeString hs []
  rw [h, splitString, split_encodeList hp] at hsplit
  cases hsplit

/-- A list of strings. -/
def encodeStrings (fs : List (List UInt8)) : List UInt8 := encodeList (fs.flatMap encodeString)

theorem length_lt_of_mem {fs : List (List UInt8)} {f : List UInt8} (hf : f ∈ fs) :
    f.length < (encodeStrings fs).length := by
  have hle : (encodeString f).length ≤ (fs.flatMap encodeString).length :=
    (List.sublist_flatten_of_mem (List.mem_map_of_mem hf)).length_le
  calc f.length ≤ (encodeString f).length := length_le_encodeString f
    _ ≤ (fs.flatMap encodeString).length := hle
    _ < (encodeStrings fs).length := length_lt_encodeList _

theorem encodeStrings_inj {fs gs : List (List UInt8)} (hlen : (encodeStrings fs).length < 2 ^ 64)
    (h : encodeStrings fs = encodeStrings gs) : fs = gs := by
  have hlen' : (encodeStrings gs).length < 2 ^ 64 := h ▸ hlen
  have hflat := encodeList_inj ((length_lt_encodeList _).trans hlen)
    ((length_lt_encodeList _).trans hlen') h
  have hvalue : ∀ {fs : List (List UInt8)}, (encodeStrings fs).length < 2 ^ 64 →
      ∀ v ∈ fs.map encodeString, IsValue v := by
    intro fs hfs v hv
    rcases List.mem_map.mp hv with ⟨f, hf, rfl⟩
    exact isValue_encodeString ((length_lt_of_mem hf).trans hfs)
  have hmap := flatten_inj (hvalue hlen) (hvalue hlen') hflat
  refine eq_of_map_eq (fun f hf g hg => ?_) hmap
  exact encodeString_inj ((length_lt_of_mem hf).trans hlen) ((length_lt_of_mem hg).trans hlen')

end Rlp

end Sys

import LessChain.Committee.Commit
import LessChain.Trie.Binding

/-!
# Merkle proofs say what the trie says

`getStatusFromShard` believes an account if `VerifyProof` finds it under the root hash. The
elements of a proof come from the other side, so nothing is assumed about them but that none
collides with a node of the trie. Then `VerifyProof` finds what the trie holds or reports an
error, and it reports none if the proof has the elements that `Prove` collects
(`verifyProof_correct`).

`decodeNode` reads a stored node back with its small children embedded in it and with the
hashes of the others (`reread`), so `VerifyProof` walks from one hash to the next, and it may
pass several nodes on the way.
-/

namespace LessChain

namespace Trie

open Sys.Rlp (encodeString encodeList IsValue)

variable {keccak : Bytes → Hash}

/-! ## Reading stored nodes back -/

variable (keccak) in
/-- A node as it is read back: its small children are embedded, the others are hashes. -/
def reread : Node → Node
  | .short key val => .short key
      (if val.isInner then
        if (enc keccak val).length < 32 then reread val else .hash (nodeHash keccak val)
      else val)
  | .full children => .full fun i =>
      if (children i).isInner then
        if (enc keccak (children i)).length < 32 then reread (children i)
        else .hash (nodeHash keccak (children i))
      else children i
  | n => n

variable (keccak) in
/-- A child of a node that was read back. -/
def slotRef (n : Node) : Node :=
  if n.isInner then
    if (enc keccak n).length < 32 then reread keccak n else .hash (nodeHash keccak n)
  else n

theorem reread_short (key : Bytes) (val : Node) :
    reread keccak (.short key val) = .short key (slotRef keccak val) := rfl

theorem reread_full (children : Fin 17 → Node) :
    reread keccak (.full children) = .full fun i => slotRef keccak (children i) := rfl

theorem decodeRef_slotEnc {dec : Bytes → Option Node} {n : Node} (h : n = .nil ∨ IsHex n)
    (hs : Small keccak n) (rest : Bytes)
    (hdec : IsHex n → (enc keccak n).length < 32 →
      dec (enc keccak n ++ rest) = some (reread keccak n)) :
    decodeRef dec (slotEnc keccak n ++ rest) = some (slotRef keccak n, rest) := by
  rcases h with rfl | h
  · exact decodeRef_ref keccak dec .nil rest
  · rw [slotEnc_of_isInner h.isInner, slotRef, if_pos h.isInner]
    by_cases hlen : (enc keccak n).length < 32
    · rw [if_pos hlen, if_pos hlen]
      have hread := hdec h hlen
      rw [h.enc_eq] at hlen hread ⊢
      rw [decodeRef, Sys.Rlp.split_encodeList (h.length_flatten_lt hs)]
      simp [hread, hlen.le]
    · rw [if_neg hlen, if_neg hlen]
      have href := decodeRef_ref keccak dec n rest
      rw [ref, Node.isNil_of_isInner h.isInner] at href
      exact href

theorem decodeChildren_slots {dec : Bytes → Option Node} {ns : List Node}
    (h : ∀ n ∈ ns, n = .nil ∨ IsHex n) (hs : ∀ n ∈ ns, Small keccak n)
    (hdec : ∀ n ∈ ns, ∀ rest, IsHex n → (enc keccak n).length < 32 →
      dec (enc keccak n ++ rest) = some (reread keccak n)) (rest : Bytes) :
    decodeChildren dec ns.length ((ns.flatMap (slotEnc keccak)) ++ rest) =
      some (ns.map (slotRef keccak), rest) := by
  induction ns with
  | nil => rfl
  | cons n ns ih =>
      have hread := decodeRef_slotEnc (h n List.mem_cons_self) (hs n List.mem_cons_self)
        (ns.flatMap (slotEnc keccak) ++ rest) (hdec n List.mem_cons_self _)
      have hrest := ih (fun m hm => h m (List.mem_cons_of_mem _ hm))
        (fun m hm => hs m (List.mem_cons_of_mem _ hm))
        fun m hm => hdec m (List.mem_cons_of_mem _ hm)
      rw [List.flatMap_cons, List.append_assoc, List.length_cons, decodeChildren, hread]
      simp [hrest]

/-- The value slot of a full node. -/
theorem splitString_value {n : Node} (h : n = .nil ∨ ∃ v, v ≠ [] ∧ n = .value v)
    (hlt : n.encode.length < 2 ^ 64) : ∃ val, Sys.Rlp.splitString n.encode = some (val, []) ∧
      (if val = [] then Node.nil else .value val) = n := by
  have hread : ∀ {s : Bytes}, (encodeString s).length < 2 ^ 64 →
      Sys.Rlp.splitString (encodeString s) = some (s, []) := by
    intro s hs
    have hsplit := Sys.Rlp.splitString_encodeString
      ((Sys.Rlp.length_le_encodeString s).trans_lt hs) []
    rwa [List.append_nil] at hsplit
  rcases h with rfl | ⟨v, hv, rfl⟩
  · have hempty : Node.nil.encode = encodeString [] := rfl
    rw [hempty] at hlt ⊢
    exact ⟨[], hread hlt, rfl⟩
  · exact ⟨v, hread hlt, if_neg hv⟩

/-- The stored form of a node is taken apart. -/
theorem IsHex.decodeNode_succ {n : Node} (h : IsHex n) (hs : Small keccak n) (fuel : ℕ)
    (rest : Bytes) : decodeNode (fuel + 1) (enc keccak n ++ rest) =
      match some (parts keccak n).length with
      | some 2 => decodeShort (decodeNode fuel) (parts keccak n).flatten
      | some 17 => decodeFull (decodeNode fuel) (parts keccak n).flatten
      | _ => none := by
  rw [decodeNode, h.enc_eq, Sys.Rlp.splitList_encodeList (h.length_flatten_lt hs),
    ← Sys.Rlp.countValues_flatten fun p => h.isValue_part (p := p) hs]
  rfl

/-- `decodeNode` on the stored form of a node. An embedded node is shorter than the node it is
in, so the fuel suffices. -/
theorem IsHex.decodeNode_enc {n : Node} (h : IsHex n) (hs : Small keccak n) {fuel : ℕ}
    (hfuel : (enc keccak n).length ≤ fuel) (rest : Bytes) :
    decodeNode (fuel + 1) (enc keccak n ++ rest) = some (reread keccak n) := by
  induction h generalizing fuel rest with
  | @leaf k v hk =>
      have hn : IsHex (.short (k ++ [16]) (.value v)) := .leaf hk
      have hlt := fun p => hn.length_part_lt (p := p) hs
      rw [hn.decodeNode_succ hs]
      simp only [parts, Node.isInner, Bool.false_eq_true, if_false, List.mem_cons,
        List.not_mem_nil, or_false, forall_eq_or_imp, forall_eq, Node.encode, List.length_cons,
        List.length_nil, List.flatten_cons, List.flatten_nil, List.append_nil] at hlt ⊢
      have hkey := Sys.Rlp.splitString_encodeString
        ((Sys.Rlp.length_le_encodeString (hexToCompact (k ++ [16]))).trans_lt hlt.1)
      have hval := Sys.Rlp.splitString_encodeString
        ((Sys.Rlp.length_le_encodeString v).trans_lt hlt.2) []
      rw [List.append_nil] at hval
      -- the terminator of the key says that a value follows
      simp [decodeShort, hkey, (compactToHex_hexToCompact hk).2, hasTerm_concat, hval, reread,
        Node.isInner]
  | @ext k cs hk hcs ih =>
      have hn : IsHex (.short k (.full cs)) := .ext hk hcs
      have hlt := fun p => hn.length_part_lt (p := p) hs
      have hsize := Sys.Rlp.length_lt_encodeList (parts keccak (.short k (.full cs))).flatten
      rw [← hn.enc_eq] at hsize
      rw [hn.decodeNode_succ hs]
      simp only [parts, Node.isInner, if_true, List.mem_cons, List.not_mem_nil, or_false,
        forall_eq_or_imp, forall_eq, List.length_cons, List.length_nil, List.flatten_cons,
        List.flatten_nil, List.append_nil, List.length_append] at hlt hsize ⊢
      have hkey := Sys.Rlp.splitString_encodeString
        ((Sys.Rlp.length_le_encodeString (hexToCompact k)).trans_lt hlt.1)
      have hval := @decodeRef_slotEnc keccak (decodeNode fuel) (.full cs) (.inr hcs) hs.below []
        (by
          intro _ hlen
          rw [slotEnc_of_isInner rfl, if_pos hlen] at hsize
          cases fuel with
          | zero => omega
          | succ fuel => exact ih hs.below (by omega) [])
      rw [List.append_nil] at hval
      simp [decodeShort, hkey, (compactToHex_hexToCompact hk).1, hk.hasTerm_eq, hval,
        reread_short]
  | @full cs h16 hcs ih =>
      have hn : IsHex (.full cs) := .full h16 hcs
      have hsize := Sys.Rlp.length_lt_encodeList (parts keccak (.full cs)).flatten
      rw [← hn.enc_eq] at hsize
      rcases splitString_value h16 (hn.length_part_lt hs
        (List.mem_append_right _ List.mem_cons_self)) with ⟨val, hval, hvalue⟩
      have hslots := @decodeChildren_slots keccak (decodeNode fuel)
        ((List.finRange 16).map fun i => cs i.castSucc)
        (by
          intro n hmem
          rcases List.mem_map.mp hmem with ⟨i, -, rfl⟩
          exact nil_or_isHex (hcs i))
        (by
          intro n hmem
          rcases List.mem_map.mp hmem with ⟨i, -, rfl⟩
          exact hs.child _)
        (by
          intro n hmem rest hhex hlen
          rcases List.mem_map.mp hmem with ⟨i, -, rfl⟩
          have hpart : slotEnc keccak (cs i.castSucc) ∈ parts keccak (.full cs) :=
            List.mem_append_left _ (List.mem_map_of_mem (List.mem_finRange i))
          have hle := length_le_flatMap (f := id) hpart
          rw [List.flatMap_id, id_eq, slotEnc_of_isInner hhex.isInner, if_pos hlen] at hle
          have hne : cs i.castSucc ≠ .nil := by
            intro hnil
            rw [hnil] at hhex
            cases hhex
          cases fuel with
          | zero => omega
          | succ fuel => exact ih i hne (hs.child _) (by omega) rest)
        (cs (Fin.last 16)).encode
      have hflat : (parts keccak (.full cs)).flatten =
          ((List.finRange 16).map fun i => cs i.castSucc).flatMap (slotEnc keccak) ++
            (cs (Fin.last 16)).encode := by
        simp [parts, List.flatMap, Function.comp_def]
      have hlength : (parts keccak (.full cs)).length = 17 := by
        simp [parts]
      rw [List.length_map, List.length_finRange] at hslots
      rw [hn.decodeNode_succ hs, hlength]
      rw [decodeFull, hflat, hslots]
      simp only [hval, Option.bind_eq_bind, Option.bind_some, reread_full, Option.some.injEq,
        Node.full.injEq]
      funext i
      cases i using Fin.lastCases with
      | last =>
          have hslot : slotRef keccak (cs (Fin.last 16)) = cs (Fin.last 16) := by
            rcases h16 with hnil | ⟨v, -, hv⟩
            · rw [hnil]
              rfl
            · rw [hv]
              rfl
          rw [hslot]
          exact (if_pos rfl).trans hvalue
      | cast i =>
          rw [if_neg (castSucc_ne i)]
          simp [List.getD]

theorem IsHex.mustDecodeNode_enc {n : Node} (h : IsHex n) (hs : Small keccak n) :
    mustDecodeNode (enc keccak n) = some (reread keccak n) := by
  have hdec := h.decodeNode_enc hs le_rfl []
  rwa [List.append_nil] at hdec

/-! ## From one hash to the next -/

/-- A key with the terminator at its end and nowhere else. -/
def IsTerm (r : Bytes) : Prop := ∃ k, IsNibbles k ∧ r = k ++ [16]

theorem isTerm_keybytesToHex (key : Bytes) : IsTerm (keybytesToHex key) :=
  ⟨nibbles key, isNibbles_nibbles key, rfl⟩

theorem IsTerm.ne_nil {r : Bytes} (h : IsTerm r) : r ≠ [] := by
  rcases h with ⟨k, -, rfl⟩
  simp

/-- Behind symbols that are no terminator there is still a terminated key. -/
theorem IsTerm.of_append {k r : Bytes} (hk : IsNibbles k) (h : IsTerm (k ++ r)) : IsTerm r := by
  rcases h with ⟨l, hl, heq⟩
  rcases List.eq_nil_or_concat' r with rfl | ⟨r, x, rfl⟩
  · -- the terminator would be in `k`
    rw [List.append_nil] at heq
    have hin := hk 16 (heq ▸ List.mem_append_right _ List.mem_cons_self)
    exact absurd hin (by decide)
  · rw [← List.append_assoc] at heq
    rcases List.append_inj' heq rfl with ⟨rfl, hx⟩
    exact ⟨r, fun y hy => hl y (List.mem_append_right _ hy), by rw [hx]⟩

/-- The first symbol is a child's, or it is the terminator and the last one. -/
theorem IsTerm.cons_cases {x : UInt8} {r : Bytes} (h : IsTerm (x :: r)) :
    (∃ i : Fin 16, x = UInt8.ofNat i.castSucc ∧ IsTerm r) ∨ (x = 16 ∧ r = []) := by
  rcases h with ⟨l, hl, heq⟩
  cases l with
  | nil => exact .inr ⟨(List.cons.inj heq).1, (List.cons.inj heq).2⟩
  | cons y l =>
      rcases List.cons.inj heq with ⟨rfl, rfl⟩
      have hx := hl x List.mem_cons_self
      refine .inl ⟨⟨x.toNat, hx⟩, ?_, l, fun z hz => hl z (List.mem_cons_of_mem _ hz), rfl⟩
      exact (UInt8.ofNat_toNat).symm

theorem tryGet_short_append (k : Bytes) (n : Node) (r : Bytes) :
    tryGet (.short k n) (k ++ r) = tryGet n r := by
  simp [tryGet]

theorem tryGet_full_cons (cs : Fin 17 → Node) (i : Fin 17) (r : Bytes) :
    tryGet (.full cs) (UInt8.ofNat i :: r) = tryGet (cs i) r := by
  rw [tryGet, slot_eq_some.mpr rfl]
  rfl

theorem getSkipResolved_short_append (k : Bytes) (n : Node) (r : Bytes) :
    getSkipResolved (.short k n) (k ++ r) = getSkipResolved n r := by
  simp [getSkipResolved]

theorem getSkipResolved_full_cons (cs : Fin 17 → Node) (i : Fin 17) (r : Bytes) :
    getSkipResolved (.full cs) (UInt8.ofNat i :: r) = getSkipResolved (cs i) r := by
  rw [getSkipResolved, slot_eq_some.mpr rfl]
  rfl

variable (keccak) in
/-- Where the search for `r` from `n` comes to when it goes no further than the next hash: to
a node `m` with less of the key, to the value, or to an empty place. `p` is what `Prove` has
collected on the way. -/
inductive Lands (n : Node) (r : Bytes) : Option (Bytes × Node) → Prop
  | hash {m : Node} {rest : Bytes} {p : List Node} (hm : Canon m) (ht : Terminated m)
      (hsub : m ∈ subnodes n) (hlen : 32 ≤ (enc keccak m).length) (hterm : IsTerm rest)
      (hless : rest.length < r.length) (hget : tryGet n r = tryGet m rest)
      (hproof : proofNodes n r = (proofNodes m rest).map (p ++ ·)) :
      Lands n r (some (rest, .hash (nodeHash keccak m)))
  | value {v rest : Bytes} {p : List Node} (hget : tryGet n r = some v)
      (hproof : proofNodes n r = some p) : Lands n r (some (rest, .value v))
  | nil {rest : Bytes} {p : List Node} (hget : tryGet n r = none)
      (hproof : proofNodes n r = some p) : Lands n r (some (rest, .nil))

/-- One node up. -/
theorem Lands.up {n m : Node} {r rest : Bytes} {res : Option (Bytes × Node)} {p : List Node}
    (h : Lands keccak m rest res) (hsub : ∀ a ∈ subnodes m, a ∈ subnodes n)
    (hless : rest.length ≤ r.length) (hget : tryGet n r = tryGet m rest)
    (hproof : proofNodes n r = (proofNodes m rest).map (p ++ ·)) : Lands keccak n r res := by
  cases h with
  | @hash _ _ q hm ht hin hlen hterm hlt hget' hproof' =>
      refine .hash (p := p ++ q) hm ht (hsub _ hin) hlen hterm (by omega) (hget.trans hget') ?_
      rw [hproof, hproof', Option.map_map]
      congr 1
      funext nodes
      simp
  | value hget' hproof' =>
      exact .value (hget.trans hget') (by rw [hproof, hproof']; rfl)
  | nil hget' hproof' =>
      exact .nil (hget.trans hget') (by rw [hproof, hproof']; rfl)

/-- A child of a node that was read back: a hash ends the search there. -/
theorem lands_child {n m : Node} {r rest : Bytes} {p : List Node} (hm : Canon m)
    (ht : Terminated m) (hterm : IsTerm rest)
    (ih : Lands keccak m rest (getSkipResolved (reread keccak m) rest))
    (hsub : ∀ a ∈ subnodes m, a ∈ subnodes n) (hless : rest.length < r.length)
    (hget : tryGet n r = tryGet m rest)
    (hproof : proofNodes n r = (proofNodes m rest).map (p ++ ·)) :
    Lands keccak n r (getSkipResolved (slotRef keccak m) rest) := by
  have hhex := hm.isHex ht
  rw [slotRef, if_pos hhex.isInner]
  split
  · exact ih.up hsub hless.le hget hproof
  · rename_i hlen
    exact .hash hm ht (hsub _ hhex.mem_subnodes) (Nat.not_lt.mp hlen) hterm hless hget hproof

variable (keccak) in
theorem Canon.lands {n : Node} (h : Canon n) (ht : Terminated n) {r : Bytes} (hr : IsTerm r) :
    Lands keccak n r (getSkipResolved (reread keccak n) r) := by
  -- the key parts from that of a short node
  have hparts : ∀ {k : Bytes} {val : Node} {r : Bytes}, IsTerm r → ¬ k <+: r →
      Lands keccak (.short k val) r (getSkipResolved (reread keccak (.short k val)) r) := by
    intro k val r hr hnot
    have htake : r.take k.length ≠ k := fun heq => hnot (heq ▸ List.take_prefix _ _)
    rcases List.exists_cons_of_ne_nil hr.ne_nil with ⟨x, r, rfl⟩
    rw [reread_short, getSkipResolved, if_neg htake]
    refine .nil (p := [.short k val]) ?_ ?_
    · rw [tryGet, if_neg htake]
    · rw [proofNodes, if_neg htake]
  induction h generalizing r with
  | @value v hv =>
      rcases ht [] v ⟨rfl, rfl⟩ with ⟨k, -, heq⟩
      exact absurd heq (by simp)
  | @leaf k v hk htail hv =>
      by_cases hpre : k <+: r
      · rcases hpre with ⟨rest, rfl⟩
        have hrest : rest = [] := by
          rcases ht k v (has_leaf.mpr ⟨rfl, rfl⟩) with ⟨l, hl, rfl⟩
          rw [List.append_assoc] at hr
          rcases (hr.of_append hl).cons_cases with ⟨i, hi, -⟩ | ⟨-, hnil⟩
          · exact absurd (ofNat_slot_injective (i := 16) hi).symm (castSucc_ne i)
          · exact hnil
        rw [reread_short, getSkipResolved_short_append]
        refine .value (p := [.short k (.value v)]) ?_ ?_
        · rw [tryGet_short_append]
          rfl
        · rw [proofNodes_short_append hk, hrest]
          rfl
      · exact hparts hr hpre
  | @ext k cs hk hn h ih =>
      by_cases hpre : k <+: r
      · rcases hpre with ⟨rest, rfl⟩
        have hterm := hr.of_append hn
        rw [reread_short, getSkipResolved_short_append]
        refine lands_child (p := [.short k (.full cs)]) h ht.below hterm (ih ht.below hterm)
          (fun a ha => List.mem_cons_of_mem _ ha) ?_ (tryGet_short_append ..)
          (proofNodes_short_append hk ..)
        rw [List.length_append]
        have := List.length_pos_iff.mpr hk
        omega
      · exact hparts hr hpre
  | @full cs h16 htwo h ih =>
      rcases List.exists_cons_of_ne_nil hr.ne_nil with ⟨x, rest, rfl⟩
      rcases hr.cons_cases with ⟨i, rfl, hterm⟩ | ⟨rfl, rfl⟩
      · rw [reread_full, getSkipResolved_full_cons]
        by_cases hi : cs i.castSucc = .nil
        · rw [hi]
          refine .nil (p := [.full cs]) ?_ ?_
          · rw [tryGet_full_cons, hi]
            rfl
          · rw [proofNodes_full, hi]
            rcases List.exists_cons_of_ne_nil hterm.ne_nil with ⟨y, rest, rfl⟩
            rfl
        · exact lands_child (p := [.full cs]) (h _ hi) (ht.child i) hterm
            (ih _ hi (ht.child i) hterm) (fun a ha => mem_subnodes_child ha) (Nat.lt_succ_self _)
            (tryGet_full_cons ..) (proofNodes_full ..)
      · -- the value slot
        have hslot : (16 : UInt8) = UInt8.ofNat (16 : Fin 17) := rfl
        rw [hslot, reread_full, getSkipResolved_full_cons]
        rcases h16 with hnil | ⟨v, hv⟩
        · rw [hnil]
          refine .nil (p := [.full cs]) ?_ ?_
          · rw [tryGet_full_cons, hnil]
            rfl
          · rw [proofNodes_full]
            simp
        · rw [hv]
          refine .value (p := [.full cs]) ?_ ?_
          · rw [tryGet_full_cons, hv]
            rfl
          · rw [proofNodes_full]
            simp

/-! ## The loop of `VerifyProof` -/

theorem mem_subnodes_trans {a b c : Node} (hab : a ∈ subnodes b) (hbc : b ∈ subnodes c) :
    a ∈ subnodes c := by
  induction c with
  | nil => cases hbc
  | value v => cases hbc
  | hash h => cases hbc
  | short k n ih =>
      rcases List.mem_cons.mp hbc with rfl | hbc
      · exact hab
      · exact List.mem_cons_of_mem _ (ih hbc)
  | full cs ih =>
      rcases List.mem_cons.mp hbc with rfl | hbc
      · exact hab
      · rcases List.mem_flatMap.mp hbc with ⟨i, -, hi⟩
        exact mem_subnodes_child (ih i hi)

variable (keccak) in
/-- No element of the proof collides with a node of the trie. -/
def Genuine (root : Node) (proof : List Bytes) : Prop :=
  ∀ n ∈ subnodes root, ∀ b ∈ proof, keccak (enc keccak n) = keccak b → enc keccak n = b

theorem Genuine.mono {n root : Node} {proof : List Bytes} (h : Genuine keccak root proof)
    (hn : n ∈ subnodes root) : Genuine keccak n proof :=
  fun m hm => h m (mem_subnodes_trans hm hn)

theorem Small.mono {n root : Node} (h : Small keccak root) (hn : n ∈ subnodes root) :
    Small keccak n :=
  fun m hm => h m (mem_subnodes_trans hm hn)

/-- What is found for the hash of a node is its stored form. -/
theorem eq_enc_of_proofGet {n : Node} {proof : List Bytes} {b : Bytes}
    (hgen : ∀ b ∈ proof, keccak (enc keccak n) = keccak b → enc keccak n = b)
    (h : proofGet keccak proof (nodeHash keccak n) = some b) : b = enc keccak n := by
  have hhash : (keccak b).bytes = nodeHash keccak n := by
    simpa using List.find?_some h
  exact (hgen b (List.mem_of_find?_eq_some h) (Hash.bytes_injective hhash).symm).symm

theorem proofGet_of_mem {n : Node} {proof : List Bytes}
    (hgen : ∀ b ∈ proof, keccak (enc keccak n) = keccak b → enc keccak n = b)
    (h : enc keccak n ∈ proof) :
    proofGet keccak proof (nodeHash keccak n) = some (enc keccak n) := by
  cases hget : proofGet keccak proof (nodeHash keccak n) with
  | none =>
      have hnone := List.find?_eq_none.mp hget _ h
      exact absurd (decide_eq_true rfl) hnone
  | some b => rw [eq_enc_of_proofGet hgen hget]

/-- A round of the loop that has found its node. -/
theorem verifyLoop_succ {n : Node} {proof : List Bytes} {fuel : ℕ} {r : Bytes} (h : IsHex n)
    (hs : Small keccak n)
    (hget : proofGet keccak proof (nodeHash keccak n) = some (enc keccak n)) :
    verifyLoop keccak proof (fuel + 1) (nodeHash keccak n) r =
      (getSkipResolved (reread keccak n) r).bind fun (keyrest, cld) =>
        match cld with
        | .hash h => verifyLoop keccak proof fuel h keyrest
        | .value v => some v
        | _ => some [] := by
  rw [verifyLoop, hget]
  exact (congrArg (Option.bind · _) (h.mustDecodeNode_enc hs)).trans rfl

/-- A proof that is accepted says what the trie says. -/
theorem verifyLoop_sound {n : Node} {proof : List Bytes} {fuel : ℕ} {r v : Bytes} (hn : Canon n)
    (ht : Terminated n) (hs : Small keccak n) (hgen : Genuine keccak n proof) (hr : IsTerm r)
    (h : verifyLoop keccak proof fuel (nodeHash keccak n) r = some v) :
    v = (tryGet n r).getD [] := by
  induction fuel generalizing n r with
  | zero => cases h
  | succ fuel ih =>
      have hhex := hn.isHex ht
      cases hget : proofGet keccak proof (nodeHash keccak n) with
      | none =>
          rw [verifyLoop, hget] at h
          cases h
      | some b =>
          rw [eq_enc_of_proofGet (hgen n hhex.mem_subnodes) hget] at hget
          rw [verifyLoop_succ hhex hs hget] at h
          have hlands := hn.lands keccak ht hr
          generalize getSkipResolved (reread keccak n) r = res at h hlands
          cases hlands with
          | hash hm htm hsub _ hterm _ hfind _ =>
              rw [hfind]
              exact ih hm htm (hs.mono hsub) (hgen.mono hsub) hterm h
          | value hfind _ =>
              rw [hfind]
              exact (Option.some.inj h).symm
          | nil hfind _ =>
              rw [hfind]
              exact (Option.some.inj h).symm

/-- `Prove` gets to the end of its path, which begins with the node it starts at. -/
theorem Canon.proofNodes_isSome {n : Node} (h : Canon n) (ht : Terminated n) {r : Bytes}
    (hr : IsTerm r) : ∃ nodes, proofNodes n r = some nodes := by
  have hloop : ∀ (len : ℕ) {n : Node} {r : Bytes}, r.length < len → Canon n → Terminated n →
      IsTerm r → ∃ nodes, proofNodes n r = some nodes := by
    intro len
    induction len with
    | zero =>
        intro n r hlt
        omega
    | succ len ih =>
        intro n r hlt hn ht hr
        have hlands := hn.lands (fun _ => 0) ht hr
        generalize getSkipResolved (reread (fun _ => 0) n) r = res at hlands
        cases hlands with
        | @hash m rest p hm htm _ _ hterm hless _ hproof =>
            rcases ih (by omega) hm htm hterm with ⟨nodes, hnodes⟩
            exact ⟨p ++ nodes, by rw [hproof, hnodes]; rfl⟩
        | value _ hproof => exact ⟨_, hproof⟩
        | nil _ hproof => exact ⟨_, hproof⟩
  exact hloop _ (Nat.lt_succ_self _) h ht hr

theorem proofNodes_eq_cons {n : Node} {r : Bytes} {nodes : List Node} (hn : n.isInner = true)
    (hr : r ≠ []) (h : proofNodes n r = some nodes) : ∃ rest, nodes = n :: rest := by
  rcases List.exists_cons_of_ne_nil hr with ⟨x, r, rfl⟩
  cases n with
  | short k val =>
      rw [proofNodes] at h
      split at h
      · rcases Option.bind_eq_some_iff.mp h with ⟨rest, -, heq⟩
        exact ⟨rest, (Option.some.inj heq).symm⟩
      · exact ⟨[], (Option.some.inj h).symm⟩
  | full cs =>
      rw [proofNodes] at h
      rcases Option.bind_eq_some_iff.mp h with ⟨i, -, h⟩
      rcases Option.bind_eq_some_iff.mp h with ⟨rest, -, heq⟩
      exact ⟨rest, (Option.some.inj heq).symm⟩
  | nil => cases hn
  | value v => cases hn
  | hash h => cases hn

/-- A proof with all the elements of the path is accepted. -/
theorem verifyLoop_complete {n : Node} {proof : List Bytes} {fuel : ℕ} {r : Bytes}
    {nodes : List Node} (hn : Canon n) (ht : Terminated n) (hs : Small keccak n)
    (hgen : Genuine keccak n proof) (hr : IsTerm r) (hfuel : r.length ≤ fuel)
    (hnodes : proofNodes n r = some nodes) (hroot : enc keccak n ∈ proof)
    (hall : ∀ m ∈ nodes, 32 ≤ (enc keccak m).length → enc keccak m ∈ proof) :
    verifyLoop keccak proof fuel (nodeHash keccak n) r = some ((tryGet n r).getD []) := by
  induction fuel generalizing n r nodes with
  | zero => exact absurd (List.length_eq_zero_iff.mp (Nat.le_zero.mp hfuel)) hr.ne_nil
  | succ fuel ih =>
      have hhex := hn.isHex ht
      rw [verifyLoop_succ hhex hs (proofGet_of_mem (hgen n hhex.mem_subnodes) hroot)]
      have hlands := hn.lands keccak ht hr
      generalize getSkipResolved (reread keccak n) r = res at hlands
      cases hlands with
      | @hash m rest p hm htm hsub hlen hterm hless hfind hproof =>
          rcases hm.proofNodes_isSome htm hterm with ⟨below, hbelow⟩
          rcases proofNodes_eq_cons (hm.isHex htm).isInner hterm.ne_nil hbelow with ⟨tail, rfl⟩
          rw [hproof, hbelow] at hnodes
          cases hnodes
          have hpath : ∀ a ∈ m :: tail, 32 ≤ (enc keccak a).length → enc keccak a ∈ proof :=
            fun a ha => hall a (List.mem_append_right _ ha)
          rw [hfind]
          exact ih hm htm (hs.mono hsub) (hgen.mono hsub) hterm (by omega) hbelow
            (hpath m List.mem_cons_self hlen) hpath
      | value hfind _ =>
          rw [hfind]
          rfl
      | nil hfind _ =>
          rw [hfind]
          rfl

/-! ## `VerifyProof` and `Prove` -/

/-- The elements that `Prove` collects. -/
theorem mem_prove {n : Node} {key : Bytes} {nodes : List Node}
    (hnodes : proofNodes n (keybytesToHex key) = some (n :: nodes)) :
    ∃ elems, prove keccak n key = some elems ∧ enc keccak n ∈ elems ∧
      ∀ m ∈ n :: nodes, 32 ≤ (enc keccak m).length → enc keccak m ∈ elems := by
  refine ⟨_, by rw [prove, hnodes]; rfl, ?_, ?_⟩
  · simp
  · intro m hm hlen
    rcases List.mem_iff_getElem?.mp hm with ⟨i, hi⟩
    refine List.mem_filterMap.mpr ⟨(m, i), List.mem_zipIdx_iff_getElem?.mpr hi, ?_⟩
    simp [hlen]

/-- An accepted proof says what was written last under the key, or that nothing was, whoever
made it. A proof that has the elements `Prove` collects is accepted. -/
theorem verifyProof_correct (keccak : Bytes → Hash) {ws : List Write} {root : Node}
    (hrun : runWrites ws = some root) (hempty : keccak [0x80] = emptyRoot)
    (hsmall : ∀ b ∈ hashInputs keccak root, b.length < 2 ^ 64) (key : Bytes)
    (proof : List Bytes)
    (hinj : ∀ a ∈ hashInputs keccak root, ∀ b ∈ proof, keccak a = keccak b → a = b) :
    (∀ v, verifyProof keccak (rootHash keccak root) key proof = some v →
        v = (contents ws key).getD []) ∧
      (root ≠ .nil → ∃ elems, prove keccak root key = some elems ∧ (elems ⊆ proof →
        verifyProof keccak (rootHash keccak root) key proof =
          some ((contents ws key).getD []))) := by
  rcases refines_runWrites ws with ⟨root', hrun', href⟩
  obtain rfl : root = root' := Option.some.inj (hrun.symm.trans hrun')
  have hs := small_of_hashInputs hsmall
  have hterm := isTerm_keybytesToHex key
  have hget : tryGet root (keybytesToHex key) = contents ws key := href.get_eq key
  rcases href.canon with rfl | hcanon
  · refine ⟨fun v hv => ?_, fun hne => absurd rfl hne⟩
    -- the empty string is no node
    have hroot : (rootHash keccak .nil).bytes = (keccak [0x80]).bytes := by
      rw [hempty]
      rfl
    rw [verifyProof, hroot] at hv
    cases hfuel : (proof.length + 1) * ((keybytesToHex key).length + 1) with
    | zero => rw [hfuel] at hv; cases hv
    | succ fuel =>
        rw [hfuel, verifyLoop] at hv
        rcases Option.bind_eq_some_iff.mp hv with ⟨b, hb, hv⟩
        have hhash : (keccak b).bytes = (keccak [0x80]).bytes := by
          simpa using List.find?_some hb
        have heq := hinj _ List.mem_cons_self b (List.mem_of_find?_eq_some hb)
          (Hash.bytes_injective hhash).symm
        rw [← heq] at hv
        have hbad : mustDecodeNode [0x80] = none := by decide +kernel
        rw [hbad] at hv
        cases hv
  · have ht : Terminated root := by
      intro r u hr
      rcases (href.has r u).mp hr with ⟨k, rfl, -⟩
      exact ⟨nibbles k, isNibbles_nibbles k, rfl⟩
    have hhex := hcanon.isHex ht
    have hgen : Genuine keccak root proof :=
      fun n hn b hb => hinj _ (mem_hashInputs hn) b hb
    have hroot : (rootHash keccak root).bytes = nodeHash keccak root := by
      rw [rootHash_of_isHex hhex]
      rfl
    rw [← hget]
    constructor
    · intro v hv
      rw [verifyProof, hroot] at hv
      exact verifyLoop_sound hcanon ht hs hgen hterm hv
    · intro _
      rcases hcanon.proofNodes_isSome ht hterm with ⟨nodes, hnodes⟩
      rcases proofNodes_eq_cons hhex.isInner hterm.ne_nil hnodes with ⟨rest, rfl⟩
      rcases mem_prove hnodes with ⟨elems, helems, hfirst, hall⟩
      refine ⟨elems, helems, fun hsub => ?_⟩
      rw [verifyProof, hroot]
      refine verifyLoop_complete hcanon ht hs hgen hterm ?_ hnodes (hsub hfirst)
        fun m hm hlen => hsub (hall m hm hlen)
      have hpos : 0 < proof.length + 1 := Nat.succ_pos _
      have hle := Nat.le_mul_of_pos_left ((keybytesToHex key).length + 1) hpos
      omega

/-- The proof of one key is accepted, and no part of it is accepted for another value of the
next key, or for a value of a key that is absent. -/
theorem verifyProof_correct_provedWrites :
    ∃ elems, prove provedKeccak provedRoot [0x11] = some elems ∧
      verifyProof provedKeccak (rootHash provedKeccak provedRoot) [0x11] elems =
        some (List.replicate 40 7) ∧
      ∀ proof ⊆ elems, ∀ v,
        (verifyProof provedKeccak (rootHash provedKeccak provedRoot) [0x12] proof = some v →
          v = [5]) ∧
        (verifyProof provedKeccak (rootHash provedKeccak provedRoot) [0x13] proof = some v →
          v = []) := by
  have hrun : runWrites provedWrites = some provedRoot := (Option.some_get rfl).symm
  have hsmall : ∀ b ∈ hashInputs provedKeccak provedRoot, b.length < 2 ^ 64 := by
    decide +kernel
  have hinj : ∀ a ∈ hashInputs provedKeccak provedRoot,
      ∀ b ∈ (prove provedKeccak provedRoot [0x11]).getD [],
        provedKeccak a = provedKeccak b → a = b := by
    decide +kernel
  have hne : provedRoot ≠ .nil := by
    rw [Ne, ← Node.isNil_iff]
    decide +kernel
  rcases (verifyProof_correct provedKeccak hrun (by decide +kernel) hsmall [0x11] _ hinj).2 hne with
    ⟨elems, helems, hverify⟩
  rw [helems] at hverify hinj
  refine ⟨elems, helems, hverify fun _ hb => hb, fun proof hsub v => ⟨fun hv => ?_, fun hv => ?_⟩⟩
  · exact (verifyProof_correct provedKeccak hrun (by decide +kernel) hsmall [0x12] proof
      fun a ha b hb => hinj a ha b (hsub hb)).1 v hv
  · exact (verifyProof_correct provedKeccak hrun (by decide +kernel) hsmall [0x13] proof
      fun a ha b hb => hinj a ha b (hsub hb)).1 v hv

end Trie

end LessChain

import LessChain.Trie.Delete

/-!
# A root hash determines the contents of a trie

The stored form of a node names its children by their hashes, or holds them if they are
small. Two tries with one root hash are equal node by node, if no two of the byte strings that
are hashed for them collide (`IsHex.enc_inj`). A trie is determined by what was written
(`Refines`), so the root hash determines that too.

Nothing can be said without an assumption on the hash function, and no function to 32 bytes is
injective. The assumption is on the finitely many inputs that the two tries lead to.
-/

namespace LessChain

namespace Trie

open Sys.Rlp (encodeString encodeList IsValue)

/-! ## Nodes with terminated keys -/

/-- The nodes of a trie whose keys are HEX keys of byte strings. -/
inductive IsHex : Node → Prop
  | leaf {k v : Bytes} (hk : IsNibbles k) : IsHex (.short (k ++ [16]) (.value v))
  | ext {k : Bytes} {cs : Fin 17 → Node} (hk : IsNibbles k) (h : IsHex (.full cs)) :
      IsHex (.short k (.full cs))
  | full {cs : Fin 17 → Node}
      (h16 : cs (Fin.last 16) = .nil ∨ ∃ v, v ≠ [] ∧ cs (Fin.last 16) = .value v)
      (h : ∀ i : Fin 16, cs i.castSucc ≠ .nil → IsHex (cs i.castSucc)) : IsHex (.full cs)

variable {cs : Fin 17 → Node} {n : Node}

theorem IsHex.isInner (h : IsHex n) : n.isInner = true := by
  cases h <;> rfl

theorem nil_or_isHex (h : n ≠ .nil → IsHex n) : n = .nil ∨ IsHex n := by
  by_cases hnil : n = .nil
  · exact .inl hnil
  · exact .inr (h hnil)

theorem IsHex.mem_subnodes (h : IsHex n) : n ∈ subnodes n := by
  cases h <;> exact List.mem_cons_self

theorem mem_subnodes_child {i : Fin 17} {a : Node} (h : a ∈ subnodes (cs i)) :
    a ∈ subnodes (.full cs) :=
  List.mem_cons_of_mem _ (List.mem_flatMap.mpr ⟨i, List.mem_finRange i, h⟩)

/-- Every key ends with the terminator and has it nowhere else. -/
def Terminated (n : Node) : Prop := ∀ r u, Has n r u → ∃ k, IsNibbles k ∧ r = k ++ [16]

theorem Terminated.below {k : Bytes} (h : Terminated (.short k (.full cs))) :
    Terminated (.full cs) := by
  intro r u hr
  rcases h _ u (has_short_append.mpr hr) with ⟨l, hl, heq⟩
  rcases List.eq_nil_or_concat' r with rfl | ⟨r, x, rfl⟩
  · exact absurd hr not_has_full_nil
  · rw [← List.append_assoc] at heq
    rcases List.append_inj' heq rfl with ⟨rfl, hx⟩
    exact ⟨r, fun y hy => hl y (List.mem_append_right _ hy), by rw [hx]⟩

theorem Terminated.child (h : Terminated (.full cs)) (i : Fin 16) :
    Terminated (cs i.castSucc) := by
  intro r u hr
  rcases h _ u (has_full_cons.mpr hr) with ⟨l, hl, heq⟩
  cases l with
  | nil =>
      -- the slot would be that of the terminator
      exact absurd (ofNat_slot_injective (List.cons.inj heq).1) (castSucc_ne i)
  | cons x l =>
      exact ⟨l, fun y hy => hl y (List.mem_cons_of_mem _ hy), (List.cons.inj heq).2⟩

theorem Canon.isHex (h : Canon n) (ht : Terminated n) : IsHex n := by
  induction h with
  | @value v hv =>
      rcases ht [] v ⟨rfl, rfl⟩ with ⟨k, -, heq⟩
      exact absurd heq (by simp)
  | @leaf k v hk htail hv =>
      rcases ht k v (has_leaf.mpr ⟨rfl, rfl⟩) with ⟨l, hl, rfl⟩
      exact .leaf hl
  | @ext k cs hk hn h ih => exact .ext hn (ih ht.below)
  | @full cs h16 htwo h ih =>
      refine .full ?_ fun i hi => ih i.castSucc hi (ht.child i)
      rcases h16 with hnil | ⟨v, hv⟩
      · exact .inl hnil
      · have hcanon := h 16 (by simp [hv])
        rw [hv] at hcanon
        cases hcanon with
        | value hne => exact .inr ⟨v, hne, hv⟩

theorem Refines.isHex {m : Bytes → Option Bytes} (h : Refines n m) :
    n = .nil ∨ IsHex n := by
  rcases h.canon with hnil | hcanon
  · exact .inl hnil
  · refine .inr (hcanon.isHex fun r u hr => ?_)
    rcases (h.has r u).mp hr with ⟨key, rfl, -⟩
    exact ⟨nibbles key, isNibbles_nibbles key, rfl⟩

/-! ## The values in the stored form of a node -/

section Hashing

variable {keccak : Bytes → Hash}

variable (keccak) in
/-- The elements of the RLP list that a node is stored as. -/
def parts : Node → List Bytes
  | .short key n =>
      [encodeString (hexToCompact key), if n.isInner then slotEnc keccak n else n.encode]
  | .full cs =>
      (List.finRange 16).map (fun i => slotEnc keccak (cs i.castSucc)) ++
        [(cs (Fin.last 16)).encode]
  | _ => []

theorem IsHex.enc_eq {n : Node} (h : IsHex n) :
    enc keccak n = encodeList (parts keccak n).flatten := by
  cases h with
  | @leaf k v hk => simp [enc_leaf, Node.encode, parts, Node.isInner]
  | @ext k cs hk h => simp [enc_short h.isInner, parts, Node.isInner]
  | @full cs h16 h =>
      rw [enc_full fun i => (nil_or_isHex (h i)).imp id IsHex.isInner]
      simp [parts, List.flatMap]

variable (keccak) in
/-- The size fields of RLP headers can hold every size. -/
def Small (n : Node) : Prop := ∀ m ∈ subnodes n, (enc keccak m).length < 2 ^ 64

variable {k : Bytes}

theorem Small.below {n : Node} (h : Small keccak (.short k n)) : Small keccak n :=
  fun m hm => h m (List.mem_cons_of_mem _ hm)

theorem Small.child {cs : Fin 17 → Node} (h : Small keccak (.full cs)) (i : Fin 17) :
    Small keccak (cs i) :=
  fun m hm => h m (mem_subnodes_child hm)

theorem IsHex.length_flatten_lt {n : Node} (h : IsHex n) (hs : Small keccak n) :
    (parts keccak n).flatten.length < 2 ^ 64 := by
  have hlt := hs n h.mem_subnodes
  rw [h.enc_eq] at hlt
  exact (Sys.Rlp.length_lt_encodeList _).trans hlt

theorem IsHex.length_part_lt {n : Node} (h : IsHex n) (hs : Small keccak n) {p : Bytes}
    (hp : p ∈ parts keccak n) : p.length < 2 ^ 64 := by
  have hle := length_le_flatMap (f := id) hp
  rw [List.flatMap_id] at hle
  exact hle.trans_lt (h.length_flatten_lt hs)

theorem IsHex.isValue_enc {n : Node} (h : IsHex n) (hs : Small keccak n) :
    IsValue (enc keccak n) := by
  rw [h.enc_eq]
  exact Sys.Rlp.isValue_encodeList (h.length_flatten_lt hs)

theorem isValue_encodeString_part {s : Bytes} (h : (encodeString s).length < 2 ^ 64) :
    IsValue (encodeString s) :=
  Sys.Rlp.isValue_encodeString ((Sys.Rlp.length_le_encodeString s).trans_lt h)

/-- A child that is there is embedded or named by its hash. -/
theorem slotEnc_of_isInner {n : Node} (h : n.isInner = true) :
    slotEnc keccak n = if (enc keccak n).length < 32 then enc keccak n
      else encodeString (nodeHash keccak n) := by
  rw [slotEnc, Node.isNil_of_isInner h, toHash]
  by_cases hlen : (enc keccak n).length < 32
  · have hlen' : (collapse keccak n).encode.length < 32 := hlen
    simp only [hlen, hlen', if_true, and_self, Bool.false_eq_true, if_false]
    rfl
  · have hlen' : ¬ (collapse keccak n).encode.length < 32 := hlen
    simp only [hlen, hlen', if_false, false_and, Bool.false_eq_true]
    rfl

theorem isValue_slotEnc {n : Node} (h : n = .nil ∨ IsHex n) (hs : Small keccak n) :
    IsValue (slotEnc keccak n) := by
  rcases h with rfl | h
  · exact Sys.Rlp.isValue_encodeString (show ([] : Bytes).length < 2 ^ 64 by decide)
  · rw [slotEnc_of_isInner h.isInner]
    split
    · exact h.isValue_enc hs
    · exact Sys.Rlp.isValue_encodeString (by rw [length_nodeHash]; decide)

theorem IsHex.isValue_part {n : Node} (h : IsHex n) (hs : Small keccak n) {p : Bytes}
    (hp : p ∈ parts keccak n) : IsValue p := by
  have hlt := h.length_part_lt hs hp
  cases h with
  | @leaf k v hk =>
      simp only [parts, Node.isInner, Bool.false_eq_true, if_false, List.mem_cons,
        List.not_mem_nil, or_false] at hp
      rcases hp with rfl | rfl
      · exact isValue_encodeString_part hlt
      · exact isValue_encodeString_part hlt
  | @ext k cs hk h =>
      simp only [parts, Node.isInner, if_true, List.mem_cons, List.not_mem_nil, or_false] at hp
      rcases hp with rfl | rfl
      · exact isValue_encodeString_part hlt
      · exact isValue_slotEnc (.inr h) hs.below
  | @full cs h16 h =>
      simp only [parts, List.mem_append, List.mem_map, List.mem_singleton] at hp
      rcases hp with ⟨i, -, rfl⟩ | rfl
      · exact isValue_slotEnc (nil_or_isHex (h i)) (hs.child _)
      · rcases h16 with hnil | ⟨v, -, hv⟩
        · rw [hnil]
          exact Sys.Rlp.isValue_encodeString (show ([] : Bytes).length < 2 ^ 64 by decide)
        · rw [hv] at hlt ⊢
          exact isValue_encodeString_part hlt

/-- A value is part of what is stored for the node that holds it. -/
theorem IsHex.length_le_of_has {n : Node} (h : IsHex n) {r u : Bytes} (hu : Has n r u) :
    ∃ m ∈ subnodes n, u.length ≤ (enc keccak m).length := by
  have hpart : ∀ {m : Node}, IsHex m → encodeString u ∈ parts keccak m →
      u.length ≤ (enc keccak m).length := by
    intro m hm hmem
    have hle := length_le_flatMap (f := id) hmem
    have hlt := Sys.Rlp.length_lt_encodeList (parts keccak m).flatten
    rw [List.flatMap_id] at hle
    rw [hm.enc_eq]
    exact (Sys.Rlp.length_le_encodeString u).trans (hle.trans hlt.le)
  induction h generalizing r with
  | @leaf k v hk =>
      rcases has_leaf.mp hu with ⟨-, rfl⟩
      refine ⟨_, List.mem_cons_self, hpart (.leaf hk) ?_⟩
      simp [parts, Node.isInner, Node.encode]
  | @ext k cs hk h ih =>
      rcases has_short.mp hu with ⟨r', -, hr'⟩
      rcases ih hr' with ⟨m, hm, hle⟩
      exact ⟨m, List.mem_cons_of_mem _ hm, hle⟩
  | @full cs h16 h ih =>
      rcases has_full.mp hu with ⟨i, r', -, hr'⟩
      cases i using Fin.lastCases with
      | last =>
          refine ⟨_, List.mem_cons_self, hpart (.full h16 h) ?_⟩
          have hval : cs (Fin.last 16) = .value u := by
            rcases h16 with hnil | ⟨v, -, hv⟩
            · exact absurd hr' (hnil ▸ has_nil r' u)
            · rw [hv] at hr'
              rw [hv, hr'.2]
          rw [parts, hval]
          exact List.mem_append_right _ List.mem_cons_self
      | cast i =>
          have hne : cs i.castSucc ≠ .nil := fun hnil => has_nil r' u (hnil ▸ hr')
          rcases ih i hne hr' with ⟨m, hm, hle⟩
          exact ⟨m, mem_subnodes_child hm, hle⟩

/-! ## Equal encodings -/

variable (keccak) in
/-- No two nodes of the tries have one hash and different encodings. -/
def NoCollision (n m : Node) : Prop :=
  ∀ a ∈ subnodes n, ∀ b ∈ subnodes m, keccak (enc keccak a) = keccak (enc keccak b) →
    enc keccak a = enc keccak b

theorem NoCollision.below {k' : Bytes} {n m : Node}
    (h : NoCollision keccak (.short k n) (.short k' m)) : NoCollision keccak n m :=
  fun a ha b hb => h a (List.mem_cons_of_mem _ ha) b (List.mem_cons_of_mem _ hb)

theorem NoCollision.child {cs cs' : Fin 17 → Node}
    (h : NoCollision keccak (.full cs) (.full cs')) (i : Fin 17) :
    NoCollision keccak (cs i) (cs' i) :=
  fun a ha b hb => h a (mem_subnodes_child ha) b (mem_subnodes_child hb)

/-- A node in its parent is not the mark of an empty slot. -/
theorem IsHex.slotEnc_ne {n : Node} (h : IsHex n) (hs : Small keccak n) :
    slotEnc keccak n ≠ encodeString [] := by
  rw [slotEnc_of_isInner h.isInner]
  split
  · rw [h.enc_eq]
    exact (Sys.Rlp.encodeString_ne_encodeList (by decide) (h.length_flatten_lt hs)).symm
  · intro heq
    have hnil := Sys.Rlp.encodeString_inj (by rw [length_nodeHash]; decide) (by decide) heq
    have hlen := length_nodeHash keccak n
    rw [hnil] at hlen
    cases hlen

/-- Two nodes that stand alike in their parents are stored alike. -/
theorem IsHex.enc_eq_of_slotEnc {n m : Node} (hn : IsHex n) (hm : IsHex m) (hsn : Small keccak n)
    (hsm : Small keccak m) (hc : NoCollision keccak n m)
    (h : slotEnc keccak n = slotEnc keccak m) : enc keccak n = enc keccak m := by
  have hhash : ∀ x, (nodeHash keccak x).length < 2 ^ 64 := by
    intro x
    rw [length_nodeHash]
    decide
  rw [slotEnc_of_isInner hn.isInner, slotEnc_of_isInner hm.isInner] at h
  split at h
  · split at h
    · exact h
    · -- one embedded, the other not: a list is not a string
      rw [hn.enc_eq] at h
      exact absurd h.symm (Sys.Rlp.encodeString_ne_encodeList (hhash m) (hn.length_flatten_lt hsn))
  · split at h
    · rw [hm.enc_eq] at h
      exact absurd h (Sys.Rlp.encodeString_ne_encodeList (hhash n) (hm.length_flatten_lt hsm))
    · have hbytes := Sys.Rlp.encodeString_inj (hhash n) (hhash m) h
      exact hc n hn.mem_subnodes m hm.mem_subnodes (Hash.bytes_injective hbytes)

theorem hexToCompact_inj {l : Bytes} (hk : IsNibbles k) (hl : IsNibbles l)
    (h : hexToCompact k = hexToCompact l) : k = l := by
  rw [← (compactToHex_hexToCompact hk).1, h, (compactToHex_hexToCompact hl).1]

theorem hexToCompact_concat_inj {l : Bytes} (hk : IsNibbles k) (hl : IsNibbles l)
    (h : hexToCompact (k ++ [16]) = hexToCompact (l ++ [16])) : k = l := by
  have heq := (compactToHex_hexToCompact hk).2
  rw [h, (compactToHex_hexToCompact hl).2] at heq
  exact (List.append_cancel_right heq).symm

/-- The flag of a compact key tells leaves and extensions apart. -/
theorem hexToCompact_concat_ne {l : Bytes} (hk : IsNibbles k) (hl : IsNibbles l) :
    hexToCompact (k ++ [16]) ≠ hexToCompact l := by
  intro h
  have heq := (compactToHex_hexToCompact hk).2
  rw [h, (compactToHex_hexToCompact hl).1] at heq
  have hterm := hasTerm_concat k
  rw [← heq, hl.hasTerm_eq] at hterm
  cases hterm

theorem encodeString_inj_of_lt {s t : Bytes} (hs : (encodeString s).length < 2 ^ 64)
    (h : encodeString s = encodeString t) : s = t :=
  Sys.Rlp.encodeString_inj ((Sys.Rlp.length_le_encodeString s).trans_lt hs)
    ((Sys.Rlp.length_le_encodeString t).trans_lt (h ▸ hs)) h

/-- The value slot of a full node. -/
theorem value_inj {a b : Node} (ha : a = .nil ∨ ∃ v, v ≠ [] ∧ a = .value v)
    (hb : b = .nil ∨ ∃ v, v ≠ [] ∧ b = .value v) (hlt : a.encode.length < 2 ^ 64)
    (h : a.encode = b.encode) : a = b := by
  have hnil : Node.nil.encode = encodeString [] := rfl
  rcases ha with rfl | ⟨v, hv, rfl⟩
  · rcases hb with rfl | ⟨w, hw, rfl⟩
    · rfl
    · rw [hnil] at h hlt
      exact absurd (encodeString_inj_of_lt hlt h).symm hw
  · rcases hb with rfl | ⟨w, hw, rfl⟩
    · rw [hnil] at h
      exact absurd (encodeString_inj_of_lt hlt h) hv
    · rw [encodeString_inj_of_lt hlt h]

theorem IsHex.parts_eq {n m : Node} (hn : IsHex n) (hm : IsHex m) (hsn : Small keccak n)
    (hsm : Small keccak m) (h : enc keccak n = enc keccak m) : parts keccak n = parts keccak m := by
  rw [hn.enc_eq, hm.enc_eq] at h
  have hflat := Sys.Rlp.encodeList_inj (hn.length_flatten_lt hsn) (hm.length_flatten_lt hsm) h
  exact Sys.Rlp.flatten_inj (fun p => hn.isValue_part hsn) (fun p => hm.isValue_part hsm) hflat

/-- A node is determined by its stored form, and so are the nodes below it. -/
theorem IsHex.enc_inj {n m : Node} (hn : IsHex n) (hm : IsHex m) (hsn : Small keccak n)
    (hsm : Small keccak m) (hc : NoCollision keccak n m) (h : enc keccak n = enc keccak m) :
    n = m := by
  -- nodes of two kinds differ in the flag of the compact key or in the number of parts
  induction hn generalizing m with
  | @leaf k v hk =>
      have hlt := fun p => (IsHex.leaf hk).length_part_lt (p := p) hsn
      have hparts := (IsHex.leaf hk).parts_eq hm hsn hsm h
      cases hm with
      | @leaf l w hl =>
          simp only [parts, Node.isInner, Bool.false_eq_true, if_false, List.mem_cons,
            List.not_mem_nil, or_false, forall_eq_or_imp, forall_eq, List.cons.injEq,
            and_true] at hlt hparts
          rw [hexToCompact_concat_inj hk hl (encodeString_inj_of_lt hlt.1 hparts.1),
            encodeString_inj_of_lt hlt.2 hparts.2]
      | @ext l cs hl hcs =>
          simp only [parts, List.mem_cons, forall_eq_or_imp, List.cons.injEq] at hlt hparts
          exact absurd (encodeString_inj_of_lt hlt.1 hparts.1) (hexToCompact_concat_ne hk hl)
      | full h16 hcs => exact absurd (congrArg List.length hparts) (by simp [parts])
  | @ext k cs hk hcs ih =>
      have hlt := fun p => (IsHex.ext hk hcs).length_part_lt (p := p) hsn
      have hparts := (IsHex.ext hk hcs).parts_eq hm hsn hsm h
      cases hm with
      | @leaf l w hl =>
          simp only [parts, List.mem_cons, forall_eq_or_imp, List.cons.injEq] at hlt hparts
          exact absurd (encodeString_inj_of_lt hlt.1 hparts.1).symm (hexToCompact_concat_ne hl hk)
      | @ext l cs' hl hcs' =>
          simp only [parts, Node.isInner, if_true, List.mem_cons, forall_eq_or_imp,
            List.cons.injEq, and_true] at hlt hparts
          -- equal references: equal small nodes, or equal hashes and no collision
          have henc := hcs.enc_eq_of_slotEnc hcs' hsn.below hsm.below hc.below hparts.2
          rw [hexToCompact_inj hk hl (encodeString_inj_of_lt hlt.1 hparts.1),
            ih hcs' hsn.below hsm.below hc.below henc]
      | full h16 hcs' => exact absurd (congrArg List.length hparts) (by simp [parts])
  | @full cs h16 hcs ih =>
      have hlt := fun p => (IsHex.full h16 hcs).length_part_lt (p := p) hsn
      have hparts := (IsHex.full h16 hcs).parts_eq hm hsn hsm h
      cases hm with
      | leaf hl => exact absurd (congrArg List.length hparts) (by simp [parts])
      | ext hl hcs' => exact absurd (congrArg List.length hparts) (by simp [parts])
      | @full cs' h16' hcs' =>
          rcases List.append_inj' hparts rfl with ⟨hslots, hvalue⟩
          have hslot : ∀ i : Fin 16,
              slotEnc keccak (cs i.castSucc) = slotEnc keccak (cs' i.castSucc) :=
            fun i => List.map_inj_left.mp hslots i (List.mem_finRange i)
          congr 1
          funext i
          cases i using Fin.lastCases with
          | last =>
              refine value_inj h16 h16' (hlt _ ?_) (List.cons.inj hvalue).1
              exact List.mem_append_right _ List.mem_cons_self
          | cast i =>
              -- an empty slot is the empty string, which refers to no node
              by_cases hi : cs i.castSucc = .nil
              · by_cases hi' : cs' i.castSucc = .nil
                · rw [hi, hi']
                · have hempty := hslot i
                  rw [hi] at hempty
                  exact absurd hempty.symm ((hcs' i hi').slotEnc_ne (hsm.child _))
              · by_cases hi' : cs' i.castSucc = .nil
                · have hempty := hslot i
                  rw [hi'] at hempty
                  exact absurd hempty ((hcs i hi).slotEnc_ne (hsn.child _))
                · have henc := (hcs i hi).enc_eq_of_slotEnc (hcs' i hi') (hsn.child _)
                    (hsm.child _) (hc.child _) (hslot i)
                  exact ih i hi (hcs' i hi') (hsn.child _) (hsm.child _) (hc.child _) henc

/-! ## Root hashes -/

variable (keccak) in
/-- The stored forms of all nodes of a trie, and the empty string that stands for the empty trie.
What the program hashes is among them. It does not hash a form of less than 32 bytes below the
root, which is embedded in its parent; hypotheses about `hashInputs` are about those forms as
well. -/
def hashInputs (root : Node) : List Bytes := [0x80] :: (subnodes root).map (enc keccak)

theorem mem_hashInputs {root n : Node} (h : n ∈ subnodes root) :
    enc keccak n ∈ hashInputs keccak root :=
  List.mem_cons_of_mem _ (List.mem_map_of_mem h)

theorem small_of_hashInputs {root : Node}
    (h : ∀ b ∈ hashInputs keccak root, b.length < 2 ^ 64) : Small keccak root :=
  fun _ hm => h _ (mem_hashInputs hm)

/-- A node is not stored as the empty string. -/
theorem IsHex.enc_ne {n : Node} (h : IsHex n) (hs : Small keccak n) : enc keccak n ≠ [0x80] := by
  rw [h.enc_eq]
  exact (Sys.Rlp.encodeString_ne_encodeList (show ([] : Bytes).length < 2 ^ 64 by decide)
    (h.length_flatten_lt hs)).symm

theorem rootHash_of_isHex {n : Node} (h : IsHex n) :
    rootHash keccak n = keccak (enc keccak n) := by
  simp [rootHash, Node.isNil_of_isInner h.isInner]

theorem eq_of_rootHash_eq {n m : Node} (hn : n = .nil ∨ IsHex n) (hm : m = .nil ∨ IsHex m)
    (hempty : keccak [0x80] = emptyRoot)
    (hsmall : ∀ b ∈ hashInputs keccak n ++ hashInputs keccak m, b.length < 2 ^ 64)
    (hinj : ∀ a ∈ hashInputs keccak n, ∀ b ∈ hashInputs keccak m, keccak a = keccak b → a = b)
    (h : rootHash keccak n = rootHash keccak m) : n = m := by
  have hsn : Small keccak n :=
    small_of_hashInputs fun b hb => hsmall b (List.mem_append_left _ hb)
  have hsm : Small keccak m :=
    small_of_hashInputs fun b hb => hsmall b (List.mem_append_right _ hb)
  have hnil : rootHash keccak .nil = keccak [0x80] := hempty.symm
  rcases hn with rfl | hn
  · rcases hm with rfl | hm
    · rfl
    · rw [hnil, rootHash_of_isHex hm] at h
      have heq := hinj _ List.mem_cons_self _ (mem_hashInputs hm.mem_subnodes) h
      exact absurd heq.symm (hm.enc_ne hsm)
  · rcases hm with rfl | hm
    · rw [hnil, rootHash_of_isHex hn] at h
      have heq := hinj _ (mem_hashInputs hn.mem_subnodes) _ List.mem_cons_self h
      exact absurd heq (hn.enc_ne hsn)
    · rw [rootHash_of_isHex hn, rootHash_of_isHex hm] at h
      refine hn.enc_inj hm hsn hsm ?_
        (hinj _ (mem_hashInputs hn.mem_subnodes) _ (mem_hashInputs hm.mem_subnodes) h)
      exact fun a ha b hb => hinj _ (mem_hashInputs ha) _ (mem_hashInputs hb)

/-- Two runs of writes and deletions lead to one root hash exactly if they leave the same map,
unless two of the byte strings that are hashed for the two tries collide. -/
theorem rootHash_eq_iff (keccak : Bytes → Hash) {ws ws' : List Write} {root root' : Node}
    (hrun : runWrites ws = some root) (hrun' : runWrites ws' = some root')
    (hempty : keccak [0x80] = emptyRoot)
    (hsmall : ∀ b ∈ hashInputs keccak root ++ hashInputs keccak root', b.length < 2 ^ 64)
    (hinj : ∀ a ∈ hashInputs keccak root, ∀ b ∈ hashInputs keccak root',
      keccak a = keccak b → a = b) :
    rootHash keccak root = rootHash keccak root' ↔ contents ws = contents ws' := by
  constructor
  · intro h
    rcases refines_runWrites ws with ⟨n, hn, href⟩
    rcases refines_runWrites ws' with ⟨n', hn', href'⟩
    rw [hrun] at hn
    rw [hrun'] at hn'
    cases hn
    cases hn'
    have heq := eq_of_rootHash_eq href.isHex href'.isHex hempty hsmall hinj h
    funext key
    rw [← href.get_eq, ← href'.get_eq, heq]
  · intro h
    rw [runWrites_congr h, hrun'] at hrun
    rw [Option.some.inj hrun]

/-- A long value, and two that are embedded. -/
def provedWrites : List Write :=
  [.update [0x11] (List.replicate 40 7), .update [0x12] [5], .update [0x21] [6]]

def provedRoot : Node := (runWrites provedWrites).getD .nil

/-- A hash function that keeps the nodes of these tries apart. -/
def provedKeccak (b : Bytes) : Hash := if b = [0x80] then emptyRoot else bytesToHash b

/-- The same, and then one of the embedded values is overwritten. -/
def otherWrites : List Write := provedWrites ++ [.update [0x12] [9]]

def otherRoot : Node := (runWrites otherWrites).getD .nil

theorem rootHash_ne_of_value_ne :
    rootHash provedKeccak provedRoot ≠ rootHash provedKeccak otherRoot := by
  intro h
  have hrun : runWrites provedWrites = some provedRoot := (Option.some_get rfl).symm
  have hrun' : runWrites otherWrites = some otherRoot := (Option.some_get rfl).symm
  have hcontents := (rootHash_eq_iff provedKeccak hrun hrun' (by decide +kernel)
    (by decide +kernel) (by decide +kernel)).mp h
  have hvalue := congrFun hcontents [0x12]
  exact absurd hvalue (by decide)

end Hashing

end Trie

end LessChain

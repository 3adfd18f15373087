import LessChain.Lib.Words
import LessChain.Trie.Update

/-!
# Insertion

`Has` says what a trie holds: each value under the symbols of the path that leads to it.
`Inserted` says what an insertion gives: a node that holds one key more, and has the form that
is asked for. The two cases that are not a descent are the empty slot and the short node whose
key departs from the new one, which becomes a branch.

`IsState.insert_spec`: inserting an account under any key of the right length keeps a trie a
state trie.
-/

namespace LessChain

namespace Trie

/-! ## What a trie holds -/

/-- `n` holds the value `u` at the end of the path `r`. -/
def Has : Node → Bytes → Bytes → Prop
  | .value v, r, u => r = [] ∧ u = v
  | .short k n, r, u => ∃ r', r = k ++ r' ∧ Has n r' u
  | .full cs, r, u => ∃ i r', r = UInt8.ofNat i.val :: r' ∧ Has (cs i) r' u
  | .nil, _, _ => False
  | .hash _, _, _ => False

@[simp] theorem has_nil (r u : Bytes) : ¬ Has .nil r u := id

variable {k r u v key : Bytes} {i j : Fin 17} {cs : Fin 17 → Node} {n : Node} {x y : UInt8} {d : ℕ}

@[simp] theorem has_value : Has (.value v) r u ↔ r = [] ∧ u = v := Iff.rfl

theorem has_short :
    Has (.short k n) r u ↔ ∃ r', r = k ++ r' ∧ Has n r' u := Iff.rfl

@[simp] theorem has_short_append :
    Has (.short k n) (k ++ r) u ↔ Has n r u := by
  simp [has_short]

theorem has_leaf : Has (.short k (.value v)) r u ↔ r = k ∧ u = v := by
  simp [has_short]

theorem has_full :
    Has (.full cs) r u ↔ ∃ i r', r = UInt8.ofNat i.val :: r' ∧ Has (cs i) r' u := Iff.rfl

@[simp] theorem has_full_cons :
    Has (.full cs) (UInt8.ofNat i.val :: r) u ↔ Has (cs i) r u := by
  constructor
  · rintro ⟨j, r', heq, h⟩
    rcases List.cons.inj heq with ⟨hij, rfl⟩
    rwa [ofNat_slot_injective hij]
  · exact fun h => ⟨i, r, rfl, h⟩

theorem has_insertNil :
    Has (insertNil k n) r u ↔ ∃ r', r = k ++ r' ∧ Has n r' u := by
  unfold insertNil
  split
  · rename_i hk
    simp [hk]
  · exact has_short

/-- `tryGet` finds what is held under a prefix of the key. -/
theorem tryGet_iff_has :
    tryGet n r = some u ↔ ∃ p, p <+: r ∧ Has n p u := by
  induction n generalizing r with
  | nil => simp
  | value v =>
      constructor
      · intro h
        exact ⟨[], List.nil_prefix, rfl, by simpa [tryGet, eq_comm] using h⟩
      · rintro ⟨p, -, rfl, rfl⟩
        simp [tryGet]
  | hash h => simp [tryGet, Has]
  | short k n ih =>
      rw [tryGet_short]
      constructor
      · rintro ⟨r', rfl, hget⟩
        rcases ih.mp hget with ⟨p, hp, hhas⟩
        exact ⟨k ++ p, (List.prefix_append_right_inj k).mpr hp, p, rfl, hhas⟩
      · rintro ⟨p, ⟨s, rfl⟩, p', rfl, hhas⟩
        exact ⟨p' ++ s, List.append_assoc .., ih.mpr ⟨p', List.prefix_append .., hhas⟩⟩
  | full cs ih =>
      rw [tryGet_full]
      constructor
      · rintro ⟨i, r', rfl, hget⟩
        rcases (ih i).mp hget with ⟨p, hp, hhas⟩
        exact ⟨_ :: p, List.cons_prefix_cons.mpr ⟨rfl, hp⟩, i, p, rfl, hhas⟩
      · rintro ⟨p, ⟨s, rfl⟩, i, p', rfl, hhas⟩
        exact ⟨i, p' ++ s, rfl, (ih i).mpr ⟨p', List.prefix_append .., hhas⟩⟩

/-! ## Changes -/

/-- `n'` holds what `n` holds, and `v` under `key`. -/
def Sets (n : Node) (key v : Bytes) (n' : Node) : Prop :=
  ∀ r u, Has n' r u ↔ (r = key ∧ u = v) ∨ (r ≠ key ∧ Has n r u)

/-- `n'` holds what `n` holds, except under `key`. -/
def Drops (n : Node) (key : Bytes) (n' : Node) : Prop :=
  ∀ r u, Has n' r u ↔ r ≠ key ∧ Has n r u

theorem has_full_update :
    Has (.full (Function.update cs i n)) r u ↔
      (∃ r', r = UInt8.ofNat i.val :: r' ∧ Has n r' u) ∨
        ∃ j r', j ≠ i ∧ r = UInt8.ofNat j.val :: r' ∧ Has (cs j) r' u := by
  rw [has_full]
  constructor
  · rintro ⟨j, r', rfl, h⟩
    by_cases hj : j = i
    · subst hj
      rw [Function.update_self] at h
      exact .inl ⟨r', rfl, h⟩
    · rw [Function.update_of_ne hj] at h
      exact .inr ⟨j, r', hj, rfl, h⟩
  · rintro (⟨r', rfl, h⟩ | ⟨j, r', hj, rfl, h⟩)
    · exact ⟨i, r', rfl, by rwa [Function.update_self]⟩
    · exact ⟨j, r', rfl, by rwa [Function.update_of_ne hj]⟩

/-- A change of one child, seen from the full node. -/
theorem has_full_of_child {P : Bytes → Prop}
    (h : ∀ r u, Has n r u ↔ (r = key ∧ P u) ∨ (r ≠ key ∧ Has (cs i) r u))
    (r u : Bytes) : Has (.full (Function.update cs i n)) r u ↔
      (r = UInt8.ofNat i :: key ∧ P u) ∨ (r ≠ UInt8.ofNat i :: key ∧ Has (.full cs) r u) := by
  rw [has_full_update]
  constructor
  · rintro (⟨r', rfl, hr⟩ | ⟨j, r', hj, rfl, hr⟩)
    · rcases (h r' u).mp hr with ⟨rfl, hu⟩ | ⟨hne, hr⟩
      · exact .inl ⟨rfl, hu⟩
      · exact .inr ⟨fun heq => hne (List.cons.inj heq).2, has_full_cons.mpr hr⟩
    · exact .inr ⟨fun heq => hj (ofNat_slot_injective (List.cons.inj heq).1),
        has_full_cons.mpr hr⟩
  · rintro (⟨rfl, hu⟩ | ⟨hne, j, r', rfl, hr⟩)
    · exact .inl ⟨key, rfl, (h _ _).mpr (.inl ⟨rfl, hu⟩)⟩
    · by_cases hj : j = i
      · subst hj
        exact .inl ⟨r', rfl, (h _ _).mpr (.inr ⟨fun heq => hne (by rw [heq]), hr⟩)⟩
      · exact .inr ⟨j, r', hj, rfl, hr⟩

theorem Sets.full (h : Sets (cs i) key v n) :
    Sets (.full cs) (UInt8.ofNat i :: key) v (.full (Function.update cs i n)) :=
  has_full_of_child h

theorem Drops.full (h : Drops (cs i) key n) :
    Drops (.full cs) (UInt8.ofNat i :: key) (.full (Function.update cs i n)) := by
  have hchild : ∀ r u, Has n r u ↔ (r = key ∧ False) ∨ (r ≠ key ∧ Has (cs i) r u) := by
    intro r u
    rw [h r u]
    simp
  intro r u
  rw [has_full_of_child (P := fun _ => False) hchild r u]
  simp

/-- A change below a short node. -/
theorem Sets.short {n' : Node} (h : Sets n key v n') :
    Sets (.short k n) (k ++ key) v (.short k n') := by
  intro r u
  rw [has_short, has_short]
  constructor
  · rintro ⟨r', rfl, hr⟩
    rcases (h r' u).mp hr with ⟨rfl, hu⟩ | ⟨hne, hr⟩
    · exact .inl ⟨rfl, hu⟩
    · exact .inr ⟨fun heq => hne (List.append_cancel_left heq), r', rfl, hr⟩
  · rintro (⟨rfl, hu⟩ | ⟨hne, r', rfl, hr⟩)
    · exact ⟨key, rfl, (h _ _).mpr (.inl ⟨rfl, hu⟩)⟩
    · exact ⟨r', rfl, (h _ _).mpr (.inr ⟨fun heq => hne (by rw [heq]), hr⟩)⟩

/-! ## Where two keys part -/

/-- A full node with two children. -/
def fork (i j : Fin 17) (a b : Node) : Node :=
  .full (Function.update (Function.update (fun _ => .nil) i a) j b)

theorem has_fork (hij : i ≠ j) {a b : Node} :
    Has (fork i j a b) r u ↔ (∃ r', r = UInt8.ofNat i.val :: r' ∧ Has a r' u) ∨
      ∃ r', r = UInt8.ofNat j.val :: r' ∧ Has b r' u := by
  rw [fork, has_full_update]
  constructor
  · rintro (h | ⟨l, r', hl, rfl, h⟩)
    · exact .inr h
    · by_cases hli : l = i
      · subst hli
        rw [Function.update_self] at h
        exact .inl ⟨r', rfl, h⟩
      · rw [Function.update_of_ne hli] at h
        exact absurd h (has_nil _ _)
  · rintro (⟨r', rfl, h⟩ | h)
    · exact .inr ⟨i, r', hij, rfl, by rwa [Function.update_self]⟩
    · exact .inl h

theorem prefixLen_parting (c : Bytes) (hxy : x ≠ y) (a b : Bytes) :
    prefixLen (c ++ x :: a) (c ++ y :: b) = c.length := by
  induction c with
  | nil => simp [prefixLen, hxy]
  | cons z c ih => simp [prefixLen, ih]

/-- The slot of a nibble. -/
theorem exists_slot (hx : x.toNat < 16) : ∃ i, slot x = some i ∧ i ≠ 16 := by
  refine ⟨⟨x.toNat, by omega⟩, ?_, ?_⟩
  · unfold slot
    rw [dif_pos (by omega)]
  · intro h
    have := congrArg Fin.val h
    simp only at this
    omega

theorem IsNibbles.parts {c b : Bytes} (h : IsNibbles (c ++ y :: b)) :
    IsNibbles c ∧ y.toNat < 16 ∧ IsNibbles b := by
  refine ⟨fun z hz => h z ?_, h y ?_, fun z hz => h z ?_⟩
  · exact List.mem_append_left _ hz
  · exact List.mem_append_right _ List.mem_cons_self
  · exact List.mem_append_right _ (List.mem_cons_of_mem _ hz)

/-- `insert` at a short node whose key departs from the new one. -/
theorem insert_short_parting (v : Bytes) (val : Node) (c : Bytes) (hxy : x ≠ y)
    (nrest rest : Bytes) (hi : slot x = some i) (hj : slot y = some j) :
    insert v (.short (c ++ x :: nrest) val) (c ++ y :: rest) =
      some (true, insertNil c (fork i j (insertNil nrest val) (insertNil rest (.value v)))) := by
  have hmatch := prefixLen_parting c hxy.symm rest nrest
  have hne : c.length ≠ (c ++ x :: nrest).length := by simp
  have hdrop : ∀ z l, (c ++ z :: l).drop c.length = z :: l := fun _ _ => List.drop_left
  have hrest := hdrop y rest
  have htake : (c ++ y :: rest).take c.length = c := List.take_left
  rcases List.exists_cons_of_ne_nil (show c ++ y :: rest ≠ [] by simp) with ⟨z, key, hkey⟩
  rw [hkey] at hmatch htake hrest ⊢
  rw [insert]
  simp only [hmatch, if_neg hne, hdrop, hrest, hi, hj, htake, Option.bind_eq_bind,
    Option.bind_some, List.length_eq_zero_iff]
  rfl

/-- `insert` at a full node. -/
theorem insert_full (v : Bytes) (children : Fin 17 → Node) (i : Fin 17) (r : Bytes) :
    insert v (.full children) (UInt8.ofNat i :: r) = (insert v (children i) r).map
      fun (dirty, nn) =>
        if dirty then (true, .full (Function.update children i nn)) else (false, .full children) := by
  rw [insert, slot_eq_some.mpr rfl]
  show (insert v (children i) r).bind _ = _
  cases insert v (children i) r <;> rfl

/-- A branch where the key of a short node departs from the new one. -/
theorem sets_parting {c a b : Bytes} {val : Node} (hxy : x ≠ y)
    (hi : slot x = some i) (hj : slot y = some j) :
    Sets (.short (c ++ x :: a) val) (c ++ y :: b) v
      (insertNil c (fork i j (insertNil a val) (insertNil b (.value v)))) := by
  rw [slot_eq_some] at hi hj
  have hij : i ≠ j := by
    rintro rfl
    exact hxy (hi.trans hj.symm)
  intro r u
  rw [has_insertNil]
  constructor
  · rintro ⟨r', rfl, h⟩
    rcases (has_fork hij).mp h with ⟨s, rfl, hs⟩ | ⟨s, rfl, hs⟩
    · rcases has_insertNil.mp hs with ⟨s', rfl, hval⟩
      refine .inr ⟨?_, s', by simp [hi], hval⟩
      intro heq
      have := List.append_cancel_left heq
      rw [← hi] at this
      exact hxy (List.cons.inj this).1
    · rcases has_insertNil.mp hs with ⟨s', rfl, rfl, rfl⟩
      exact .inl ⟨by simp [hj], rfl⟩
  · rintro (⟨rfl, rfl⟩ | ⟨-, s, rfl, h⟩)
    · refine ⟨_, rfl, (has_fork hij).mpr (.inr ⟨b, by rw [hj], ?_⟩)⟩
      exact has_insertNil.mpr ⟨[], by simp, rfl, rfl⟩
    · refine ⟨x :: (a ++ s), by simp, (has_fork hij).mpr (.inl ⟨a ++ s, by rw [hi], ?_⟩)⟩
      exact has_insertNil.mpr ⟨s, rfl, h⟩

/-! ## What an insertion gives -/

/-- The node that an insertion gives has the form `C`. -/
def Inserted (C : Node → Prop) (n : Node) (key v : Bytes) : Prop :=
  ∃ b n', insert v n key = some (b, n') ∧ C n' ∧ Sets n key v n' ∧ (b = false → n' = n) ∧
    ((∃ cs, n = .full cs) → ∃ cs, n' = .full cs)

section Inserted

variable {C D : Node → Prop} {n : Node} {cs : Fin 17 → Node} {i : Fin 17} {k key v : Bytes}

theorem inserted_nil (hC : C (insertNil key (.value v))) : Inserted C .nil key v := by
  refine ⟨true, insertNil key (.value v), ?_, hC, ?_, by simp, by simp⟩
  · cases key <;> rfl
  · intro r u
    simp [has_insertNil]

theorem inserted_value {w : Bytes} (hC : C (.value v)) : Inserted C (.value w) [] v := by
  refine ⟨w != v, .value v, rfl, hC, ?_, ?_, by simp⟩
  · intro r u
    rw [has_value, has_value]
    tauto
  · intro hb
    have hwv : w = v := by simpa using hb
    rw [hwv]

/-- Insertion below a short node whose whole key matches. -/
theorem Inserted.short (hk : k ≠ []) (h : Inserted C n key v)
    (hC : ∀ n', C n' → ((∃ cs, n = .full cs) → ∃ cs, n' = .full cs) → D (.short k n')) :
    Inserted D (.short k n) (k ++ key) v := by
  rcases h with ⟨b, n', hins, hn', hsets, hclean, hfull⟩
  refine ⟨b, .short k n', ?_, hC n' hn' hfull, hsets.short, ?_, by simp⟩
  · rw [insert_short_append v hk, hins]
    cases b with
    | true => rfl
    | false => simp [hclean rfl]
  · intro hb
    rw [hclean hb]

/-- Insertion of another value under the key of a leaf. -/
theorem inserted_leaf {w : Bytes} (hk : k ≠ []) (hC : C (.short k (.value v))) :
    Inserted C (.short k (.value w)) k v := by
  have hvalue : Inserted (· = .value v) (.value w) [] v := inserted_value rfl
  have hins := hvalue.short (D := C) hk fun n' hn' _ => by
    rw [hn']
    exact hC
  rwa [List.append_nil] at hins

/-- Insertion where the key of a short node departs. -/
theorem inserted_parting {c a b : Bytes} {x y : UInt8} {j : Fin 17} (hxy : x ≠ y)
    (hi : slot x = some i) (hj : slot y = some j)
    (hC : C (insertNil c (fork i j (insertNil a n) (insertNil b (.value v))))) :
    Inserted C (.short (c ++ x :: a) n) (c ++ y :: b) v :=
  ⟨true, _, insert_short_parting v n c hxy a b hi hj, hC, sets_parting hxy hi hj, by simp, by simp⟩

/-- Insertion below one child of a full node. -/
theorem Inserted.full (h : Inserted C (cs i) key v)
    (hC : ∀ b n', insert v (cs i) key = some (b, n') → C n' →
      D (.full (Function.update cs i n'))) :
    Inserted D (.full cs) (UInt8.ofNat i :: key) v := by
  rcases h with ⟨b, n', hins, hn', hsets, hclean, -⟩
  refine ⟨b, .full (Function.update cs i n'), ?_, hC b n' hins hn', hsets.full, ?_,
    fun _ => ⟨_, rfl⟩⟩
  · rw [insert_full, hins]
    cases b with
    | true => rfl
    | false => simp [hclean rfl]
  · intro hb
    rw [hclean hb, Function.update_eq_self]

end Inserted

/-! ## State tries -/

theorem isState_insertNil {c : Bytes} {children : Fin 17 → Node} (hc : IsNibbles c)
    (h : IsState d (.full children)) : IsState (c.length + d) (insertNil c (.full children)) := by
  unfold insertNil
  split
  · rename_i hnil
    simpa [hnil] using h
  · rename_i hne
    exact .ext hc hne h

theorem isState_fork (hi : i ≠ 16) (hj : j ≠ 16) {a b : Node}
    (ha : IsState d a) (hb : IsState d b) : IsState (d + 1) (fork i j a b) := by
  refine .full ?_ ⟨j, ?_⟩ ?_
  · rw [Function.update_of_ne (Ne.symm hj), Function.update_of_ne (Ne.symm hi)]
  · rw [Function.update_self]
    rintro rfl
    cases hb
  · intro l hl
    by_cases hlj : l = j
    · rw [hlj, Function.update_self]
      exact hb
    · rw [Function.update_of_ne hlj] at hl ⊢
      by_cases hli : l = i
      · rw [hli, Function.update_self]
        exact ha
      · rw [Function.update_of_ne hli] at hl
        exact absurd rfl hl

theorem IsState.pos (h : IsState d n) : 0 < d := by
  cases h with
  | leaf => exact Nat.succ_pos _
  | ext hk hne hchild =>
      have := List.length_pos_iff.mpr hne
      omega
  | full => exact Nat.succ_pos _

/-- All keys have the same length. -/
theorem IsState.length_of_has (h : IsState d n) (hr : Has n r u) :
    r.length = d := by
  induction h generalizing r with
  | leaf hk hv =>
      rw [(has_leaf.mp hr).1, List.length_append, List.length_singleton]
  | ext hk hne hchild ih =>
      rcases hr with ⟨r', rfl, hr⟩
      rw [List.length_append, ih hr]
  | @full children d hvalue hsome hchild ih =>
      rcases hr with ⟨i, r', rfl, hr⟩
      have hi : children i ≠ .nil := by
        intro hnil
        rw [hnil] at hr
        exact has_nil _ _ hr
      rw [List.length_cons, ih i hi hr]

/-- So no key is a part of another. -/
theorem tryGet_iff_has_of_length (h : ∀ r u, Has n r u → r.length = d)
    (hr : r.length = d) : tryGet n r = some u ↔ Has n r u := by
  rw [tryGet_iff_has]
  constructor
  · rintro ⟨p, hp, hhas⟩
    rwa [hp.eq_of_length ((h p u hhas).trans hr.symm)] at hhas
  · exact fun hhas => ⟨r, List.prefix_rfl, hhas⟩

/-- Inserting where the key of a short node departs. -/
theorem inserted_state_parting {c nrest : Bytes} {val : Node}
    (hc : IsNibbles c) (hxy : x ≠ y) (hx : x.toNat < 16) (hy : y.toNat < 16)
    (hold : IsState d (insertNil nrest val)) (hk : IsNibbles k) (hlen : k.length + 1 = d)
    (hv : IsAccount v) : Inserted (IsState (c.length + (d + 1))) (.short (c ++ x :: nrest) val)
      (c ++ y :: (k ++ [16])) v := by
  rcases exists_slot hx with ⟨i, hi, hi'⟩
  rcases exists_slot hy with ⟨j, hj, hj'⟩
  have hnew : IsState d (insertNil (k ++ [16]) (.value v)) := by
    rw [insertNil, if_neg (by simp), ← hlen]
    exact .leaf hk hv
  exact inserted_parting hxy hi hj (isState_insertNil hc (isState_fork hi' hj' hold hnew))

/-- Inserting an account under any key of the right length. -/
theorem IsState.insert_spec (h : IsState d n)
    (hk : IsNibbles k) (hlen : k.length + 1 = d) (hv : IsAccount v) :
    Inserted (IsState d) n (k ++ [16]) v := by
  induction h generalizing k with
  | @leaf k₀ u hk₀ hu =>
      rcases Sys.eq_or_parting (show k₀.length = k.length by omega) with
        rfl | ⟨c, x, y, a, b, rfl, rfl, hxy⟩
      · exact inserted_leaf (by simp) (.leaf hk hv)
      · have hlen' : b.length = a.length := by
          simp only [List.length_append, List.length_cons] at hlen
          omega
        rcases hk₀.parts with ⟨-, hx, ha⟩
        rcases hk.parts with ⟨hc, hy, hb⟩
        have hold : IsState (a.length + 1) (insertNil (a ++ [16]) (.value u)) := by
          rw [insertNil, if_neg (by simp)]
          exact .leaf ha hu
        have hins := inserted_state_parting hc hxy hx hy hold hb
          (show b.length + 1 = a.length + 1 by rw [hlen']) hv
        simpa [Nat.add_assoc] using hins
  | @ext k₀ children d hk₀ hne hchild ih =>
      have hpos := hchild.pos
      have htake : (k.take k₀.length).length = k₀.length := by
        rw [List.length_take]
        omega
      -- compare the key of the node with as much of the new key
      rw [← List.take_append_drop k₀.length k] at hk hlen ⊢
      generalize k.take k₀.length = a at htake hk hlen ⊢
      generalize k.drop k₀.length = rest at hk hlen ⊢
      rw [List.length_append] at hlen
      rcases Sys.eq_or_parting htake.symm with rfl | ⟨c, x, y, a', b', rfl, rfl, hxy⟩
      · -- the whole key matches, and what was a full node stays one
        rw [List.append_assoc]
        refine (ih (fun z hz => hk z (List.mem_append_right _ hz)) (by omega)).short hne ?_
        intro n' hn' hfull
        rcases hfull ⟨children, rfl⟩ with ⟨children', rfl⟩
        exact .ext hk₀ hne hn'
      · simp only [List.length_append, List.length_cons] at htake hlen
        rw [List.append_assoc, List.cons_append] at hk
        rcases hk₀.parts with ⟨-, hx, ha⟩
        rcases hk.parts with ⟨hc, hy, hb⟩
        have hins := inserted_state_parting hc hxy hx hy (isState_insertNil ha hchild) hb
          (show (b' ++ rest).length + 1 = a'.length + d by rw [List.length_append]; omega) hv
        have hd : c.length + (a'.length + d + 1) = (c ++ x :: a').length + d := by
          simp only [List.length_append, List.length_cons]
          omega
        rw [hd] at hins
        simpa using hins
  | @full children d hvalue hsome hchild ih =>
      have hpos : 0 < d := by
        rcases hsome with ⟨i, hi⟩
        exact (hchild i hi).pos
      rcases List.exists_cons_of_length_pos (show 0 < k.length by omega) with ⟨y, k, rfl⟩
      have hk' : IsNibbles k := fun z hz => hk z (List.mem_cons_of_mem _ hz)
      have hlen' : k.length + 1 = d := by simpa using hlen
      rcases exists_slot (hk y List.mem_cons_self) with ⟨i, hslot, hi⟩
      cases slot_eq_some.mp hslot
      have hrec : Inserted (IsState d) (children i) (k ++ [16]) v := by
        by_cases hnil : children i = .nil
        · rw [hnil]
          refine inserted_nil ?_
          rw [insertNil, if_neg (by simp), ← hlen']
          exact .leaf hk' hv
        · exact ih i hnil hk' hlen'
      rw [List.cons_append]
      refine hrec.full fun b n' _ hn' => .full ?_ ⟨i, ?_⟩ fun j hj => ?_
      · rw [Function.update_of_ne (Ne.symm hi), hvalue]
      · rw [Function.update_self]
        rintro rfl
        cases hn'
      · by_cases hji : j = i
        · rw [hji, Function.update_self]
          exact hn'
        · rw [Function.update_of_ne hji] at hj ⊢
          exact hchild j hj

/-! ## Tries as maps from keys to accounts -/

/-- The root of a state trie with 32-byte keys, or of an empty trie. -/
def IsRoot (n : Node) : Prop := n = .nil ∨ IsState 65 n

/-- `TryUpdateAccount` on any state trie. -/
theorem IsRoot.tryUpdateAccount_spec {root : Node} (h : IsRoot root) {data : Bytes}
    (hkey : key.length = 32) {acc : StateAccount} (hdata : encodeAccount acc = some data) :
    ∃ root', tryUpdateAccount root key acc = some root' ∧ IsState 65 root' ∧
      ∀ key', key'.length = 32 → tryGet root' (keybytesToHex key') =
        if key' = key then some data else tryGet root (keybytesToHex key') := by
  have hnib := isNibbles_nibbles key
  have hlen : (nibbles key).length + 1 = 65 := by rw [length_nibbles, hkey]
  have hins : Inserted (IsState 65) root (keybytesToHex key) data := by
    rcases h with rfl | h
    · refine inserted_nil ?_
      rw [insertNil, if_neg (by simp [keybytesToHex]), ← hlen]
      exact .leaf hnib ⟨acc, hdata⟩
    · exact h.insert_spec hnib hlen ⟨acc, hdata⟩
  rcases hins with ⟨b, root', hins, hstate, hsets, -⟩
  refine ⟨root', by simp [tryUpdateAccount, hdata, hins], hstate, fun key' hkey' => ?_⟩
  have hlen' : (keybytesToHex key').length = 65 := by simp [keybytesToHex, length_nibbles, hkey']
  have hroot : ∀ r u, Has root r u → r.length = 65 := by
    rcases h with rfl | h
    · exact fun r u hr => absurd hr (has_nil r u)
    · exact fun r u hr => h.length_of_has hr
  apply Option.ext
  intro u
  rw [tryGet_iff_has_of_length (fun r u hr => hstate.length_of_has hr) hlen', hsets]
  simp only [ne_eq, keybytesToHex_injective.eq_iff]
  by_cases hkey' : key' = key
  · simp [hkey', eq_comm]
  · rw [if_neg hkey', tryGet_iff_has_of_length hroot hlen']
    simp [hkey']

/-- Writing a list of accounts that all have an encoding. -/
theorem IsRoot.overwrite_spec {root : Node} (h : IsRoot root) {us : List (Bytes × StateAccount)}
    (hus : ∀ x ∈ us, x.1.length = 32 ∧ (encodeAccount x.2).isSome) :
    ∃ root', overwrite root us = some root' ∧ IsRoot root' ∧
      (us ≠ [] → IsState 65 root') ∧
      ∀ key, key.length = 32 → tryGet root' (keybytesToHex key) =
        (written us (keybytesToHex key)).or (tryGet root (keybytesToHex key)) := by
  induction us generalizing root with
  | nil => exact ⟨root, rfl, h, fun hne => absurd rfl hne, fun _ _ => rfl⟩
  | cons x us ih =>
      rcases x with ⟨key, acc⟩
      rcases hus _ List.mem_cons_self with ⟨hkey, hok⟩
      rcases Option.isSome_iff_exists.mp hok with ⟨data, hdata⟩
      rcases h.tryUpdateAccount_spec hkey hdata with ⟨root₁, hupd, hstate, hget⟩
      rcases ih (.inr hstate) fun y hy => hus y (List.mem_cons_of_mem _ hy) with
        ⟨root', hover, hroot', hstate', hget'⟩
      refine ⟨root', ?_, hroot', ?_, ?_⟩
      · rw [overwrite, List.foldlM_cons]
        show (tryUpdateAccount root key acc).bind _ = _
        rw [hupd]
        exact hover
      · intro _
        by_cases hus' : us = []
        · subst hus'
          cases hover
          exact hstate
        · exact hstate' hus'
      · intro key' hkey'
        rw [hget' key' hkey', hget key' hkey', written, hdata]
        simp only [keybytesToHex_injective.eq_iff]
        -- a later write to the key wins
        cases written us (keybytesToHex key') with
        | some w => rfl
        | none =>
            by_cases heq : key' = key
            · simp [heq]
            · simp [heq]

end Trie

end LessChain

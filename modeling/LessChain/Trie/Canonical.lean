import LessChain.Trie.Insert

/-!
# Canonical tries

A trie is canonical if no short node is empty or followed by another one and every full node
has two children or more. Unlike a state trie (`IsState`) it may have keys of any length.

* `Canon.unique`: a canonical trie is determined by what it holds.
* `Canon.insert_spec`: `insert` keeps the form and adds one key, as long as no key is a prefix
  of another.
-/

namespace LessChain

namespace Trie

open Sys (Apart apart_append_left)

/-! ## Canonical tries -/

/-- What is left of a HEX key: nibbles, and the terminator at the end only. -/
def Tail : Bytes → Prop
  | [] => True
  | x :: k => (x.toNat < 16 ∧ Tail k) ∨ (x = 16 ∧ k = [])

/-- The form `insert` and `delete` keep. -/
inductive Canon : Node → Prop
  | value {v : Bytes} (hv : v ≠ []) : Canon (.value v)
  | leaf {k v : Bytes} (hk : k ≠ []) (ht : Tail k) (hv : v ≠ []) : Canon (.short k (.value v))
  | ext {k : Bytes} {cs : Fin 17 → Node} (hk : k ≠ []) (hn : IsNibbles k)
      (h : Canon (.full cs)) : Canon (.short k (.full cs))
  | full {cs : Fin 17 → Node} (h16 : cs 16 = .nil ∨ ∃ v, cs 16 = .value v)
      (htwo : ∃ i j, i ≠ j ∧ cs i ≠ .nil ∧ cs j ≠ .nil)
      (h : ∀ i, cs i ≠ .nil → Canon (cs i)) : Canon (.full cs)

variable {k key : Bytes} {cs : Fin 17 → Node} {n : Node}

theorem Canon.exists_has (h : Canon n) : ∃ r u, Has n r u := by
  induction h with
  | @value v hv => exact ⟨[], v, rfl, rfl⟩
  | @leaf k v hk ht hv => exact ⟨k, v, has_leaf.mpr ⟨rfl, rfl⟩⟩
  | @ext k cs hk hn h ih =>
      rcases ih with ⟨r, u, hr⟩
      exact ⟨k ++ r, u, has_short_append.mpr hr⟩
  | @full cs h16 htwo h ih =>
      rcases htwo with ⟨i, j, -, hi, -⟩
      rcases ih i hi with ⟨r, u, hr⟩
      exact ⟨_ :: r, u, has_full_cons.mpr hr⟩

theorem Canon.ne_nil (h : Canon n) : n ≠ .nil := by
  rintro rfl
  cases h

/-- Below a full node there are keys with different first symbols. -/
theorem Canon.exists_two (h : Canon (.full cs)) :
    ∃ x y r s u w, x ≠ y ∧ Has (.full cs) (x :: r) u ∧ Has (.full cs) (y :: s) w := by
  cases h with
  | full h16 htwo h =>
      rcases htwo with ⟨i, j, hij, hi, hj⟩
      rcases (h i hi).exists_has with ⟨r, u, hr⟩
      rcases (h j hj).exists_has with ⟨s, w, hs⟩
      refine ⟨UInt8.ofNat i, UInt8.ofNat j, r, s, u, w, ?_, has_full_cons.mpr hr,
        has_full_cons.mpr hs⟩
      exact fun heq => hij (ofNat_slot_injective heq)

theorem not_has_full_nil {u : Bytes} : ¬ Has (.full cs) [] u := by
  rintro ⟨i, r', heq, -⟩
  cases heq

/-- A word that begins every key below a full node behind `k` is a prefix of `k`. -/
theorem Canon.prefix_of_forall {k' : Bytes} (h : Canon (.full cs))
    (hk : ∀ r u, Has (.short k (.full cs)) r u → k' <+: r) : k' <+: k := by
  rcases h.exists_two with ⟨x, y, r, s, u, w, hxy, hr, hs⟩
  have hx := hk _ _ (has_short_append.mpr hr)
  have hy := hk _ _ (has_short_append.mpr hs)
  rcases Sys.prefix_or_parting k' k with hp | hp | ⟨c, z, z', a, b, rfl, rfl, hne⟩
  · exact hp
  · rcases hp with ⟨t, rfl⟩
    rw [List.prefix_append_right_inj] at hx hy
    cases t with
    | nil => simp
    | cons z t =>
        -- the symbol after `k` cannot be both
        exact absurd ((List.cons_prefix_cons.mp hx).1.symm.trans (List.cons_prefix_cons.mp hy).1) hxy
  · have hpart := Sys.apart_of_ne (c := c) (a := a) (b := b) hne
    exact absurd hx (hpart.append_right _).1

/-- A canonical trie is determined by what it holds. -/
theorem Canon.unique {m : Node} (hn : Canon n) (hm : Canon m)
    (h : ∀ r u, Has n r u ↔ Has m r u) : n = m := by
  induction hn generalizing m with
  | @value v hv =>
      have hroot : Has m [] v := (h [] v).mp ⟨rfl, rfl⟩
      cases hm with
      | value hw =>
          rw [hroot.2]
      | leaf hk ht hw => exact absurd (has_leaf.mp hroot).1.symm hk
      | ext hk hn hcs =>
          rcases has_short.mp hroot with ⟨r', heq, -⟩
          exact absurd (List.append_eq_nil_iff.mp heq.symm).1 hk
      | full h16 htwo hcs => exact absurd hroot not_has_full_nil
  | @leaf k v hk ht hv =>
      have hkey : Has m k v := (h k v).mp (has_leaf.mpr ⟨rfl, rfl⟩)
      have honly : ∀ r u, Has m r u → r = k := fun r u hr => (has_leaf.mp ((h r u).mpr hr)).1
      cases hm with
      | value hw => exact absurd hkey.1 hk
      | leaf hk' ht' hw =>
          rcases has_leaf.mp hkey with ⟨rfl, rfl⟩
          rfl
      | @ext k' cs hk' hn' hcs =>
          rcases hcs.exists_two with ⟨x, y, r, s, u, w, hxy, hr, hs⟩
          have := (honly _ _ (has_short_append.mpr hr)).trans
            (honly _ _ (has_short_append.mpr hs)).symm
          exact absurd (List.cons.inj (List.append_cancel_left this)).1 hxy
      | @full cs h16 htwo hcs =>
          rcases (Canon.full h16 htwo hcs).exists_two with ⟨x, y, r, s, u, w, hxy, hr, hs⟩
          have := (honly _ _ hr).trans (honly _ _ hs).symm
          exact absurd (List.cons.inj this).1 hxy
  | @ext k cs hk hn hcs ih =>
      rcases hcs.exists_two with ⟨x, y, r, s, u, w, hxy, hr, hs⟩
      have hr' : Has m (k ++ x :: r) u := (h _ _).mp (has_short_append.mpr hr)
      have hs' : Has m (k ++ y :: s) w := (h _ _).mp (has_short_append.mpr hs)
      cases hm with
      | value hw => exact absurd (List.append_eq_nil_iff.mp hr'.1).1 hk
      | leaf hk' ht' hw =>
          have := (has_leaf.mp hr').1.trans (has_leaf.mp hs').1.symm
          exact absurd (List.cons.inj (List.append_cancel_left this)).1 hxy
      | @ext k' cs' hk' hn' hcs' =>
          -- each key begins every key of the other
          have hle : k' <+: k := hcs.prefix_of_forall fun r u hr => by
            rcases has_short.mp ((h r u).mp hr) with ⟨r', rfl, -⟩
            exact List.prefix_append ..
          have hge : k <+: k' := hcs'.prefix_of_forall fun r u hr => by
            rcases has_short.mp ((h r u).mpr hr) with ⟨r', rfl, -⟩
            exact List.prefix_append ..
          obtain rfl : k = k' := hge.eq_of_length (Nat.le_antisymm hge.length_le hle.length_le)
          rw [ih hcs' fun r u => by rw [← has_short_append (k := k), h, has_short_append]]
      | @full cs' h16' htwo hcs' =>
          rcases (Canon.full h16' htwo hcs').exists_two with ⟨x', y', r', s', u', w', hxy', hr', hs'⟩
          rcases has_short.mp ((h _ _).mpr hr') with ⟨t, ht, -⟩
          rcases has_short.mp ((h _ _).mpr hs') with ⟨t', ht', -⟩
          rcases List.exists_cons_of_ne_nil hk with ⟨z, k, rfl⟩
          exact absurd ((List.cons.inj ht).1.trans (List.cons.inj ht').1.symm) hxy'
  | @full cs h16 htwo hcs ih =>
      rcases (Canon.full h16 htwo hcs).exists_two with ⟨x, y, r, s, u, w, hxy, hr, hs⟩
      have hr' := (h _ _).mp hr
      have hs' := (h _ _).mp hs
      cases hm with
      | value hw => cases hr'.1
      | leaf hk' ht' hw =>
          have := (has_leaf.mp hr').1.trans (has_leaf.mp hs').1.symm
          exact absurd (List.cons.inj this).1 hxy
      | @ext k' cs' hk' hn' hcs' =>
          rcases has_short.mp hr' with ⟨t, ht, -⟩
          rcases has_short.mp hs' with ⟨t', ht', -⟩
          rcases List.exists_cons_of_ne_nil hk' with ⟨z, k, rfl⟩
          exact absurd ((List.cons.inj ht).1.trans (List.cons.inj ht').1.symm) hxy
      | @full cs' h16' htwo' hcs' =>
          have hchild : ∀ i r u, Has (cs i) r u ↔ Has (cs' i) r u := by
            intro i r u
            rw [← has_full_cons, h, has_full_cons]
          congr 1
          funext i
          by_cases hi : cs i = .nil
          · by_cases hi' : cs' i = .nil
            · rw [hi, hi']
            · rcases (hcs' i hi').exists_has with ⟨r, u, hr⟩
              have := (hchild i r u).mpr hr
              rw [hi] at this
              exact absurd this (has_nil r u)
          · by_cases hi' : cs' i = .nil
            · rcases (hcs i hi).exists_has with ⟨r, u, hr⟩
              have := (hchild i r u).mp hr
              rw [hi'] at this
              exact absurd this (has_nil r u)
            · exact ih i hi (hcs' i hi') (hchild i)

/-! ## Inserting -/

variable {c r v : Bytes} {i : Fin 17}

theorem Tail.of_append (h : Tail (c ++ r)) : Tail r := by
  induction c with
  | nil => exact h
  | cons x c ih =>
      rcases h with ⟨-, h⟩ | ⟨-, h⟩
      · exact ih h
      · rw [(List.append_eq_nil_iff.mp h).2]
        trivial

theorem tail_append (hc : IsNibbles c) (hr : Tail r) : Tail (c ++ r) := by
  induction c with
  | nil => exact hr
  | cons x c ih =>
      exact .inl ⟨hc x List.mem_cons_self, ih fun y hy => hc y (List.mem_cons_of_mem _ hy)⟩

/-- What stands before a further symbol is free of terminators. -/
theorem Tail.isNibbles {x : UInt8} (h : Tail (c ++ x :: r)) : IsNibbles c := by
  induction c with
  | nil =>
      intro y hy
      cases hy
  | cons z c ih =>
      rcases h with ⟨hz, h⟩ | ⟨-, h⟩
      · intro y hy
        rcases List.mem_cons.mp hy with rfl | hy
        · exact hz
        · exact ih h y hy
      · exact absurd h (by simp)

theorem IsNibbles.tail (h : IsNibbles k) : Tail k := by
  simpa using tail_append h (r := []) trivial

/-- The slot of the next symbol. Behind the terminator nothing is left. -/
theorem Tail.exists_slot {x : UInt8} (h : Tail (x :: r)) :
    ∃ i, slot x = some i ∧ (i = 16 → r = []) := by
  rcases h with ⟨hx, -⟩ | ⟨rfl, rfl⟩
  · rcases Trie.exists_slot hx with ⟨i, hi, hne⟩
    exact ⟨i, hi, fun h => absurd h hne⟩
  · exact ⟨16, by decide, fun _ => rfl⟩

theorem tail_keybytesToHex (str : Bytes) : Tail (keybytesToHex str) :=
  tail_append (isNibbles_nibbles str) (.inr ⟨rfl, rfl⟩)

/-- Every key of `n` is `key` or apart from it. -/
def Clear (n : Node) (key : Bytes) : Prop := ∀ r u, Has n r u → r = key ∨ Apart r key

theorem Clear.below (h : Clear (.short k n) (k ++ key)) :
    Clear n key := by
  intro r u hr
  rcases h _ _ (has_short_append.mpr hr) with heq | hapart
  · exact .inl (List.append_cancel_left heq)
  · exact .inr (apart_append_left.mp hapart)

theorem Clear.child (h : Clear (.full cs) (UInt8.ofNat i :: key)) : Clear (cs i) key := by
  intro r u hr
  rcases h _ _ (has_full_cons.mpr hr) with heq | hapart
  · exact .inl (List.cons.inj heq).2
  · exact .inr (Sys.apart_cons.mp hapart)

theorem canon_insertNil_value (hk : Tail k) (hv : v ≠ []) :
    Canon (insertNil k (.value v)) := by
  unfold insertNil
  split
  · exact .value hv
  · rename_i hne
    exact .leaf hne hk hv

theorem canon_insertNil_full (hk : IsNibbles k)
    (h : Canon (.full cs)) : Canon (insertNil k (.full cs)) := by
  unfold insertNil
  split
  · exact h
  · rename_i hne
    exact .ext hne hk h

theorem canon_fork {j : Fin 17} (hij : i ≠ j) {a b : Node} (ha : Canon a) (hb : Canon b)
    (ha16 : i = 16 → ∃ v, a = .value v) (hb16 : j = 16 → ∃ v, b = .value v) :
    Canon (fork i j a b) := by
  have hi : Function.update (Function.update (fun _ => Node.nil) i a) j b i = a := by
    rw [Function.update_of_ne hij, Function.update_self]
  have hj : Function.update (Function.update (fun _ => Node.nil) i a) j b j = b :=
    Function.update_self ..
  have hother : ∀ l, l ≠ i → l ≠ j →
      Function.update (Function.update (fun _ => Node.nil) i a) j b l = .nil := by
    intro l hli hlj
    rw [Function.update_of_ne hlj, Function.update_of_ne hli]
  refine .full ?_ ⟨i, j, hij, by rw [hi]; exact ha.ne_nil, by rw [hj]; exact hb.ne_nil⟩ ?_
  · by_cases h16 : (16 : Fin 17) = i
    · rw [h16, hi]
      exact .inr (ha16 h16.symm)
    · by_cases h16' : (16 : Fin 17) = j
      · rw [h16', hj]
        exact .inr (hb16 h16'.symm)
      · exact .inl (hother _ h16 h16')
  · intro l hl
    by_cases hli : l = i
    · rw [hli, hi]
      exact ha
    · by_cases hlj : l = j
      · rw [hlj, hj]
        exact hb
      · exact absurd (hother l hli hlj) hl

/-- Insertion where the key of a short node departs. -/
theorem inserted_canon_parting {a b : Bytes} {x y : UInt8} {val : Node} (hxy : x ≠ y)
    (hx : Tail (x :: a)) (hy : Tail (c ++ y :: b)) (hold : Canon (insertNil a val))
    (hval : a = [] → x = 16 → ∃ w, val = .value w) (hv : v ≠ []) :
    Inserted Canon (.short (c ++ x :: a) val) (c ++ y :: b) v := by
  have hyb := hy.of_append
  rcases hx.exists_slot with ⟨i, hi, hi16⟩
  rcases hyb.exists_slot with ⟨j, hj, hj16⟩
  have hij : i ≠ j := by
    rintro rfl
    exact hxy ((slot_eq_some.mp hi).trans (slot_eq_some.mp hj).symm)
  have hb : Tail b := Tail.of_append (c := [y]) hyb
  refine inserted_parting hxy hi hj (canon_insertNil_full hy.isNibbles ?_)
  refine canon_fork hij hold (canon_insertNil_value hb hv) ?_ ?_
  · intro h16
    have ha := hi16 h16
    have hx16 : x = 16 := by
      rw [slot_eq_some.mp hi, h16]
      rfl
    rw [insertNil, if_pos ha]
    exact hval ha hx16
  · intro h16
    rw [insertNil, if_pos (hj16 h16)]
    exact ⟨v, rfl⟩

/-- One child of a full node is replaced by what an insertion gives. -/
theorem Canon.update (hcs : Canon (.full cs))
    (hkey : i = 16 → key = []) {b : Bool} {n' : Node} (hins : insert v (cs i) key = some (b, n'))
    (hn' : Canon n') : Canon (.full (Function.update cs i n')) := by
  cases hcs with
  | full h16 htwo hchild =>
      refine .full ?_ ?_ ?_
      · by_cases hi : (16 : Fin 17) = i
        · subst hi
          rw [Function.update_self]
          -- what is inserted at the end of a key is a value
          have hval : ∃ b, insert v (cs 16) [] = some (b, .value v) := by
            rcases h16 with h | ⟨w, h⟩
            · rw [h]
              exact ⟨_, rfl⟩
            · rw [h]
              exact ⟨_, rfl⟩
          rcases hval with ⟨b', hval⟩
          rw [hkey rfl, hval] at hins
          cases hins
          exact .inr ⟨v, rfl⟩
        · rw [Function.update_of_ne hi]
          exact h16
      · rcases htwo with ⟨l, m, hlm, hl, hm⟩
        have hstay : ∀ l, cs l ≠ .nil → Function.update cs i n' l ≠ .nil := by
          intro l hl
          by_cases hli : l = i
          · rw [hli, Function.update_self]
            exact hn'.ne_nil
          · rwa [Function.update_of_ne hli]
        exact ⟨l, m, hlm, hstay l hl, hstay m hm⟩
      · intro l hl
        by_cases hli : l = i
        · rw [hli, Function.update_self]
          exact hn'
        · rw [Function.update_of_ne hli] at hl ⊢
          exact hchild l hl

/-- A key that is apart from those below an extension node does not end within its key. -/
theorem Canon.not_prefix_of_clear (h : Canon (.full cs))
    (hclear : Clear (.short k (.full cs)) key) : ¬ key <+: k := by
  intro hp
  rcases h.exists_has with ⟨r, u, hr⟩
  rcases hclear _ _ (has_short_append.mpr hr) with heq | hapart
  · rw [← heq] at hp
    have hnil : r = [] := by
      have := hp.length_le
      rw [List.length_append] at this
      exact List.eq_nil_of_length_eq_zero (by omega)
    rw [hnil] at hr
    exact not_has_full_nil hr
  · exact hapart.2 (hp.trans (List.prefix_append ..))

theorem Canon.ne_nil_of_clear (h : Canon (.full cs))
    (hclear : Clear (.full cs) key) : key ≠ [] := by
  rintro rfl
  rcases h.exists_has with ⟨r, u, hr⟩
  rcases hclear r u hr with rfl | hapart
  · exact not_has_full_nil hr
  · exact hapart.2 List.nil_prefix

/-- The child of a full node that such a key leads to. -/
theorem Canon.exists_child (h : Canon (.full cs)) (hkey : Tail key)
    (hclear : Clear (.full cs) key) : ∃ (i : Fin 17) (r : Bytes), key = UInt8.ofNat i :: r ∧
      (i = 16 → r = []) ∧ Tail r := by
  rcases List.exists_cons_of_ne_nil (h.ne_nil_of_clear hclear) with ⟨x, r, rfl⟩
  rcases hkey.exists_slot with ⟨i, hi, hi16⟩
  exact ⟨i, r, by rw [slot_eq_some.mp hi], hi16, Tail.of_append (c := [x]) hkey⟩

/-- Inserting under a key that is present or apart from those that are. -/
theorem Canon.insert_spec (h : Canon n) (hkey : Tail key)
    (hv : v ≠ []) (hclear : Clear n key) : Inserted Canon n key v := by
  induction h generalizing key with
  | @value w hw =>
      rcases hclear [] w ⟨rfl, rfl⟩ with rfl | hapart
      · exact inserted_value (.value hv)
      · exact absurd List.nil_prefix hapart.1
  | @leaf k w hk ht hw =>
      rcases hclear k w (has_leaf.mpr ⟨rfl, rfl⟩) with rfl | hapart
      · exact inserted_leaf hk (.leaf hk ht hv)
      · rcases Sys.apart_iff.mp hapart with ⟨c, x, y, a, b, rfl, rfl, hxy⟩
        have hxa := ht.of_append
        exact inserted_canon_parting hxy hxa hkey
          (canon_insertNil_value (Tail.of_append (c := [x]) hxa) hw) (fun _ _ => ⟨w, rfl⟩) hv
  | @ext k cs hk hn hcs ih =>
      rcases Sys.prefix_or_parting k key with ⟨r, rfl⟩ | hp | ⟨c, x, y, a, b, rfl, rfl, hxy⟩
      · refine (ih hkey.of_append hclear.below).short hk ?_
        intro n' hn' hfull
        rcases hfull ⟨cs, rfl⟩ with ⟨cs', rfl⟩
        exact .ext hk hn hn'
      · exact absurd hp (hcs.not_prefix_of_clear hclear)
      · have hxa : IsNibbles (x :: a) := fun z hz => hn z (List.mem_append_right _ hz)
        refine inserted_canon_parting hxy hxa.tail hkey
          (canon_insertNil_full (fun z hz => hxa z (List.mem_cons_of_mem _ hz)) hcs) ?_ hv
        -- the terminator is no nibble of an extension
        rintro - rfl
        exact absurd (hxa 16 List.mem_cons_self) (by decide)
  | @full cs h16 htwo hcs ih =>
      have hfull : Canon (.full cs) := .full h16 htwo hcs
      rcases hfull.exists_child hkey hclear with ⟨i, key, rfl, hi16, hkey'⟩
      have hrec : Inserted Canon (cs i) key v := by
        by_cases hnil : cs i = .nil
        · rw [hnil]
          exact inserted_nil (canon_insertNil_value hkey' hv)
        · exact ih i hnil hkey' hclear.child
      exact hrec.full fun b n' hins hn' => hfull.update hi16 hins hn'

end Trie

end LessChain

import Mathlib.Algebra.BigOperators.Intervals
import Mathlib.Data.List.Dedup
import Mathlib.Data.List.FinRange

/-!
# Fallible folds and counting over grouped lists

A loop that may end its process is a fold in `Option`. `foldlM_induction` is the
loop rule: the invariant sees the entries that are still to come, so that it can
count them. The counting lemmas say what a loop that deals its entries out into
groups does to the number of entries with a property, and `Deals` that messages carry
each entry to its destination.
-/

namespace Sys

universe u v

variable {α : Type u} {β : Type v}

/-- Loop rule: an invariant of the entries still to come and the loop state. -/
theorem foldlM_induction {f : β → α → Option β} (P : List α → β → Prop)
    (hstep : ∀ a l b b', P (a :: l) b → f b a = some b' → P l b') :
    ∀ (l : List α) (b b' : β), P l b → l.foldlM f b = some b' → P [] b' := by
  intro l
  induction l with
  | nil =>
      intro b b' hP h
      have hb : b = b' := by simpa using h
      exact hb ▸ hP
  | cons a l ih =>
      intro b b' hP h
      rw [List.foldlM_cons, Option.bind_eq_bind, Option.bind_eq_some_iff] at h
      rcases h with ⟨b₁, hb₁, hrest⟩
      exact ih b₁ b' (hstep a l b b₁ hP hb₁) hrest

/-- Loop rule for an invariant of the loop state alone. -/
theorem foldlM_invariant {f : β → α → Option β} (P : β → Prop) {l : List α}
    (hstep : ∀ a ∈ l, ∀ b b', P b → f b a = some b' → P b') {b b' : β}
    (hP : P b) (h : l.foldlM f b = some b') : P b' := by
  have hloop := foldlM_induction (fun rest b => (∀ a ∈ rest, a ∈ l) ∧ P b) (f := f)
    (by
      intro a rest b b' hb hf
      refine ⟨fun a' ha' => hb.1 a' (List.mem_cons_of_mem _ ha'), ?_⟩
      exact hstep a (hb.1 a List.mem_cons_self) b b' hb.2 hf)
    l b b' ⟨fun _ ha => ha, hP⟩ h
  exact hloop.2

/-- A loop whose rounds can do more runs through as well. -/
theorem foldlM_mono {f g : β → α → Option β} (h : ∀ b a b', f b a = some b' → g b a = some b')
    {l : List α} {b b' : β} (hrun : l.foldlM f b = some b') : l.foldlM g b = some b' := by
  induction l generalizing b with
  | nil => exact hrun
  | cons a l ih =>
      rw [List.foldlM_cons, Option.bind_eq_bind, Option.bind_eq_some_iff] at hrun
      rcases hrun with ⟨b₁, hb₁, hrest⟩
      rw [List.foldlM_cons, h b a b₁ hb₁]
      exact ih hrest

/-- Loop rule for a loop that runs through. -/
theorem foldlM_exists {f : β → α → Option β} (P : List α → β → Prop)
    (hstep : ∀ a l b, P (a :: l) b → ∃ b', f b a = some b' ∧ P l b') :
    ∀ (l : List α) (b : β), P l b → ∃ b', l.foldlM f b = some b' ∧ P [] b' := by
  intro l
  induction l with
  | nil => exact fun b hP => ⟨b, rfl, hP⟩
  | cons a l ih =>
      intro b hP
      rcases hstep a l b hP with ⟨b₁, hb₁, hP₁⟩
      rw [List.foldlM_cons, hb₁]
      exact ih b₁ hP₁

/-- Loop rule for a loop that runs through if all its entries are good, and ends its
process at the first that is not. -/
theorem foldlM_good_or_bad {f : β → α → Option β} (P : List α → β → Prop) (good : α → Prop)
    (hgood : ∀ a l b, P (a :: l) b → good a → ∃ b', f b a = some b' ∧ P l b')
    (hbad : ∀ a l b, P (a :: l) b → ¬ good a → f b a = none) :
    ∀ (l : List α) (b : β), P l b →
      ((∀ a ∈ l, good a) → ∃ b', l.foldlM f b = some b' ∧ P [] b') ∧
      ((∃ a ∈ l, ¬ good a) → l.foldlM f b = none) := by
  intro l b hP
  constructor
  · intro hall
    have hloop := foldlM_exists (f := f) (fun l b => P l b ∧ ∀ a ∈ l, good a)
      (by
        rintro a l b ⟨hP, hall⟩
        rcases hgood a l b hP (hall a List.mem_cons_self) with ⟨b', hb', hP'⟩
        exact ⟨b', hb', hP', fun a' ha' => hall a' (List.mem_cons_of_mem _ ha')⟩)
      l b ⟨hP, hall⟩
    rcases hloop with ⟨b', hb', hP', -⟩
    exact ⟨b', hb', hP'⟩
  · induction l generalizing b with
    | nil =>
        rintro ⟨a, ha, -⟩
        cases ha
    | cons a l ih =>
        rintro ⟨a', ha', hnot⟩
        rw [List.foldlM_cons]
        by_cases ha : good a
        · rcases hgood a l b hP ha with ⟨b₁, hb₁, hP₁⟩
          rw [hb₁]
          rcases List.mem_cons.mp ha' with rfl | ha'
          · exact absurd ha hnot
          · exact ih b₁ hP₁ ⟨a', ha', hnot⟩
        · rw [hbad a l b hP ha]
          rfl

/-- A fallible map that succeeds has one result for each entry. -/
theorem forall₂_of_mapM {f : α → Option β} {l : List α} {ys : List β} (h : l.mapM f = some ys) :
    List.Forall₂ (fun a y => f a = some y) l ys := by
  induction l generalizing ys with
  | nil =>
      have hys : ys = [] := by simpa using h.symm
      rw [hys]
      exact .nil
  | cons a l ih =>
      rw [List.mapM_cons] at h
      simp only [Option.bind_eq_bind, Option.bind_eq_some_iff, Option.pure_def,
        Option.some.injEq] at h
      rcases h with ⟨b, hb, bs, hbs, rfl⟩
      exact .cons hb (ih hbs)

/-- Every entry on the right of a matching has a partner. -/
theorem exists_left_of_forall₂ {R : α → β → Prop} {l : List α} {ys : List β}
    (h : List.Forall₂ R l ys) {y : β} (hy : y ∈ ys) : ∃ a ∈ l, R a y := by
  induction h with
  | nil => cases hy
  | @cons a b l ys hab _ ih =>
      rcases List.mem_cons.mp hy with rfl | hy
      · exact ⟨a, List.mem_cons_self, hab⟩
      · rcases ih hy with ⟨a', ha', hR⟩
        exact ⟨a', List.mem_cons_of_mem _ ha', hR⟩

/-- The results of a fallible map come from the entries. -/
theorem exists_of_mem_mapM {f : α → Option β} {l : List α} {ys : List β} (h : l.mapM f = some ys)
    (y : β) (hy : y ∈ ys) : ∃ a ∈ l, f a = some y :=
  exists_left_of_forall₂ (forall₂_of_mapM h) hy

/-- Every entry of a fallible map has its result. -/
theorem exists_mem_of_mapM {f : α → Option β} {l : List α} {ys : List β} (h : l.mapM f = some ys)
    (a : α) (ha : a ∈ l) : ∃ y ∈ ys, f a = some y :=
  exists_left_of_forall₂ (R := fun y a => f a = some y) (forall₂_of_mapM h).flip ha

/-- If the result of an entry shows the entry, the results show the list. -/
theorem map_of_mapM {f : α → Option β} {g : β → α} (hg : ∀ a y, f a = some y → g y = a)
    {l : List α} {ys : List β} (h : l.mapM f = some ys) : ys.map g = l := by
  have hmatch := forall₂_of_mapM h
  clear h
  induction hmatch with
  | nil => rfl
  | cons hab _ ih => rw [List.map_cons, hg _ _ hab, ih]

/-- Searching two lists that agree entry by entry on the searched property. -/
theorem find?_forall₂ {R : α → α → Prop} {p : α → Bool} (hp : ∀ a b, R a b → p a = p b)
    {l l' : List α} (h : List.Forall₂ R l l') {a : α} (ha : l.find? p = some a) :
    ∃ b, l'.find? p = some b ∧ R a b := by
  induction h with
  | nil => cases ha
  | @cons x y xs ys hxy _ ih =>
      by_cases hx : p x = true
      · rw [List.find?_cons_of_pos hx, Option.some.injEq] at ha
        subst ha
        exact ⟨y, List.find?_cons_of_pos (hp x y hxy ▸ hx), hxy⟩
      · rw [List.find?_cons_of_neg hx] at ha
        rw [List.find?_cons_of_neg (hp x y hxy ▸ hx)]
        exact ih ha

/-! ## Counting -/

/-- Two entries with a property that at most one entry has are the same. -/
theorem eq_of_countP_le_one {p : α → Bool} {l : List α} (h : l.countP p ≤ 1) {a b : α}
    (ha : a ∈ l) (hb : b ∈ l) (hpa : p a) (hpb : p b) : a = b := by
  rw [List.countP_eq_length_filter] at h
  have hfa : a ∈ l.filter p := List.mem_filter.mpr ⟨ha, hpa⟩
  have hfb : b ∈ l.filter p := List.mem_filter.mpr ⟨hb, hpb⟩
  rcases List.length_eq_one_iff.mp
    (Nat.le_antisymm h (List.length_pos_of_mem hfa)) with ⟨x, hx⟩
  rw [hx, List.mem_singleton] at hfa hfb
  rw [hfa, hfb]

/-- Dealing the entries out by a key, and keeping some of the groups, does not add
entries. -/
theorem sum_countP_filter_le [DecidableEq β] (p : α → Bool) (key : α → β) (l : List α) :
    ∀ {ks : List β}, ks.Nodup →
      (ks.map fun k => (l.filter fun a => key a = k).countP p).sum ≤ l.countP p := by
  intro ks hks
  induction l with
  | nil => simp
  | cons a l ih =>
      have hcount : (ks.map fun k => ((a :: l).filter fun a => key a = k).countP p).sum =
          (ks.map fun k => (l.filter fun a => key a = k).countP p).sum +
            (if p a then ks.count (key a) else 0) := by
        clear ih hks
        induction ks with
        | nil => simp
        | cons k ks ihk =>
            simp only [List.map_cons, List.sum_cons, ihk, List.count_cons]
            by_cases hk : key a = k
            · rw [List.filter_cons_of_pos (by simpa using hk), List.countP_cons]
              by_cases hp : p a = true
              · simp [hp, hk]; omega
              · simp [hp]
            · rw [List.filter_cons_of_neg (by simpa using hk)]
              have hk' : (k == key a) = false := by simpa using fun h : k = key a => hk h.symm
              simp [hk']; omega
      have hone : ks.count (key a) ≤ 1 := List.nodup_iff_count_le_one.mp hks (key a)
      rw [hcount, List.countP_cons]
      by_cases hp : p a = true
      · simp [hp]; omega
      · simp [hp]; omega

/-- Dealing the entries out into `n` groups keeps each of them once. -/
theorem sum_length_filter (key : α → ℕ) {n : ℕ} {l : List α} (h : ∀ a ∈ l, key a < n) :
    ∑ i ∈ Finset.range n, (l.filter fun a => key a = i).length = l.length := by
  induction l with
  | nil => simp
  | cons a l ih =>
      have hcons : ∀ i, ((a :: l).filter fun a => key a = i).length =
          (if key a = i then 1 else 0) + (l.filter fun a => key a = i).length := by
        intro i
        by_cases hi : key a = i
        · simp [hi]
          omega
        · simp [hi]
      have ha : key a ∈ Finset.range n := Finset.mem_range.mpr (h a List.mem_cons_self)
      rw [Finset.sum_congr rfl fun i _ => hcons i, Finset.sum_add_distrib,
        ih fun b hb => h b (List.mem_cons_of_mem _ hb), Finset.sum_ite_eq, if_pos ha,
        List.length_cons]
      omega

/-- Replacing one entry of a table shifts the sum over the table by the difference. -/
theorem sum_range_update (g : α → ℕ) (f : ℕ → α) {n i : ℕ} (hi : i < n) (v : α) :
    (∑ j ∈ Finset.range n, g (Function.update f i v j)) + g (f i) =
      (∑ j ∈ Finset.range n, g (f j)) + g v := by
  have hmem : i ∈ Finset.range n := Finset.mem_range.mpr hi
  have hcomp : ∀ j, g (Function.update f i v j) = Function.update (fun j => g (f j)) i (g v) j := by
    intro j
    by_cases hj : j = i
    · subst hj
      simp
    · simp [hj]
  have hsplit := Finset.sum_eq_add_sum_sdiff_singleton_of_mem hmem fun j => g (f j)
  simp only [hcomp]
  rw [Finset.sum_update_of_mem hmem]
  omega

/-- In a table with distinct keys an entry is what its key is looked up as. -/
theorem lookup_eq_some_of_mem [BEq α] [LawfulBEq α] {l : List (α × β)}
    (hnodup : (l.map Prod.fst).Nodup) {a : α} {b : β} (h : (a, b) ∈ l) : l.lookup a = some b := by
  induction l with
  | nil => cases h
  | cons e l ih =>
      rw [List.map_cons, List.nodup_cons] at hnodup
      rcases List.mem_cons.mp h with rfl | h
      · simp
      · have hne : (a == e.1) = false := by
          rw [beq_eq_false_iff_ne]
          rintro rfl
          exact hnodup.1 (List.mem_map.mpr ⟨_, h, rfl⟩)
        rw [List.lookup_cons, hne]
        exact ih hnodup.2 h

/-- A list of messages is the one that is taken out and those that stay. -/
theorem cons_eraseIdx_perm {l : List α} {k : ℕ} {a : α} (h : l[k]? = some a) :
    (a :: l.eraseIdx k).Perm l := by
  obtain ⟨hlt, rfl⟩ := List.getElem?_eq_some_iff.mp h
  exact List.getElem_cons_eraseIdx_perm hlt

/-- Taking a message out of a list of them takes its share out of the sum. -/
theorem sum_eraseIdx (g : α → ℕ) (l : List α) (k : ℕ) (h : k < l.length) :
    ((l.eraseIdx k).map g).sum + g (l.get ⟨k, h⟩) = (l.map g).sum := by
  have hperm := (List.getElem_cons_eraseIdx_perm h).map g
  rw [← hperm.sum_eq, List.map_cons, List.sum_cons, Nat.add_comm]
  rfl

/-! ## Dealing out -/

section Deals

/-- What the messages carry to destination `k`, in their order. -/
def sentTo [DecidableEq β] (msgs : List (β × List α)) (k : β) : List α :=
  msgs.flatMap fun m => if m.1 = k then m.2 else []

/-- The number of entries in the messages. -/
def carried (msgs : List (β × List α)) : ℕ := (msgs.map fun m => m.2.length).sum

/-- The messages carry the entries of `out`, each once and to the destination that is its key,
and keep the order of those that go to the same destination. -/
structure Deals [DecidableEq β] (key : α → β) (msgs : List (β × List α)) (out : List α) :
    Prop where
  sent : ∀ k, sentTo msgs k = out.filter fun a => key a = k
  carried_eq : carried msgs = out.length

variable [DecidableEq β] {key : α → β} {msgs msgs' : List (β × List α)} {out out' : List α}

theorem Deals.nil : Deals key ([] : List (β × List α)) [] := ⟨fun _ => rfl, rfl⟩

theorem Deals.append (h : Deals key msgs out) (h' : Deals key msgs' out') :
    Deals key (msgs ++ msgs') (out ++ out') where
  sent k := by
    rw [List.filter_append, ← h.sent, ← h'.sent]
    simp [sentTo]
  carried_eq := by
    rw [List.length_append, ← h.carried_eq, ← h'.carried_eq]
    simp [carried]

theorem sentTo_range (f : ℕ → List α) (n k : ℕ) :
    sentTo ((List.range n).map fun i => (i, f i)) k = if k < n then f k else [] := by
  induction n with
  | zero => rfl
  | succ n ih =>
      simp only [sentTo, List.flatMap_map] at ih ⊢
      rw [List.range_succ, List.flatMap_append, ih, List.flatMap_singleton]
      rcases Nat.lt_trichotomy k n with hlt | rfl | hgt
      · rw [if_pos hlt, if_neg (by omega), if_pos (by omega), List.append_nil]
      · rw [if_neg (by omega), if_pos rfl, if_pos (by omega), List.nil_append]
      · rw [if_neg (by omega), if_neg (by omega), if_neg (by omega), List.append_nil]

/-- One message for each of `n` destinations, with the entries for it. -/
theorem deals_range {key : α → ℕ} {n : ℕ} (h : ∀ a ∈ out, key a < n) :
    Deals key ((List.range n).map fun i => (i, out.filter fun a => key a = i)) out where
  sent k := by
    rw [sentTo_range (fun i => out.filter fun a => key a = i)]
    split
    case isTrue => rfl
    case isFalse hk =>
      refine (List.filter_eq_nil_iff.mpr fun a ha => ?_).symm
      have hlt := h a ha
      simp only [decide_eq_true_eq]
      omega
  carried_eq := by
    rw [carried, List.map_map, ← sum_length_filter key h]
    rfl

end Deals

end Sys

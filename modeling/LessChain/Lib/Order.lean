import Mathlib.Data.Fintype.EquivFin
import Mathlib.Data.List.Dedup
import Mathlib.Data.List.Infix
import Mathlib.Data.List.Sort

/-!
# Walking maps and sorting slices

A `range` over a Go map visits the entries in an order the program does not choose, and
`sort.Slice` puts equal elements in an order of its own. An `Order` and a `Sorter` are such
choices. The rest is about sorted lists: when they are determined by their elements, and how
to recognise a list that was produced piece by piece as the beginning of one.
-/

namespace Sys

/-- The orders in which the maps of one call are walked. -/
structure Order where
  iter : {α : Type} → List α → List α
  perm : ∀ {α : Type} (l : List α), (iter l).Perm l

@[simp] theorem Order.mem_iter {α : Type} (o : Order) {l : List α} {a : α} :
    a ∈ o.iter l ↔ a ∈ l := (o.perm l).mem_iff

/-- The map is walked as it is listed. -/
def Order.listed : Order := ⟨fun l => l, fun l => .refl l⟩

/-- The map is walked backwards. -/
def Order.backwards : Order := ⟨fun l => l.reverse, fun l => l.reverse_perm⟩

/-- What `sort.Slice` promises for a comparison. -/
structure Sorter (α : Type) (lt : α → α → Prop) where
  sort : List α → List α
  perm : ∀ l, (sort l).Perm l
  sorted : ∀ l, (sort l).Pairwise fun a b => ¬ lt b a

/-- Where no two elements are alike, every sorter gives the same list, in whatever order the
elements come. -/
theorem Sorter.sort_eq {α : Type} {lt : α → α → Prop} (s s' : Sorter α lt) {l l' : List α}
    (hperm : l.Perm l') (htotal : ∀ a ∈ l, ∀ b ∈ l, ¬ lt a b → ¬ lt b a → a = b) :
    s.sort l = s'.sort l' := by
  have hsame : (s.sort l).Perm (s'.sort l') := ((s.perm l).trans hperm).trans (s'.perm l').symm
  refine List.Perm.eq_of_pairwise ?_ (s.sorted l) (s'.sorted l') hsame
  intro a b ha hb hab hba
  refine htotal a ((s.perm l).mem_iff.mp ha) b ?_ hba hab
  exact hperm.mem_iff.mpr ((s'.perm l').mem_iff.mp hb)

/-- Where nothing is listed twice, two listings of the same elements are rearrangements by one
permutation of the places. -/
theorem exists_rearrangement {α : Type} [DecidableEq α] {l m : List α} (hl : l.Nodup)
    (hperm : l.Perm m) :
    ∃ σ : Equiv.Perm (Fin l.length), ∀ i : Fin l.length, m[(σ i : ℕ)]? = l[(i : ℕ)]? := by
  have hlt : ∀ i : Fin l.length, m.idxOf l[(i : ℕ)] < m.length := fun i =>
    List.idxOf_lt_length_iff.mpr (hperm.mem_iff.mp (List.getElem_mem _))
  have hinj : Function.Injective fun i : Fin l.length =>
      (⟨m.idxOf l[(i : ℕ)], (hlt i).trans_eq hperm.length_eq.symm⟩ : Fin l.length) := by
    intro i j hij
    have hidx : m.idxOf l[(i : ℕ)] = m.idxOf l[(j : ℕ)] := congrArg Fin.val hij
    have hget : l[(i : ℕ)] = l[(j : ℕ)] := by
      rw [← List.getElem_idxOf (hlt i), ← List.getElem_idxOf (hlt j)]
      simp only [hidx]
    exact Fin.ext (hl.getElem_inj_iff.mp hget)
  refine ⟨Equiv.ofBijective _ (Finite.injective_iff_bijective.mp hinj), fun i => ?_⟩
  rw [Equiv.ofBijective_apply, List.getElem?_eq_getElem (hlt i), List.getElem_idxOf,
    List.getElem?_eq_getElem]

/-- A strictly increasing list of elements of another that leaves no smaller one out is its
beginning. -/
theorem prefix_of_initial {l m : List ℕ} (hl : l.Pairwise (· < ·)) (hm : m.Pairwise (· < ·))
    (hsub : ∀ x ∈ l, x ∈ m) (hinit : ∀ x ∈ m, ∀ y ∈ l, x < y → x ∈ l) : l <+: m := by
  induction l generalizing m with
  | nil => exact List.nil_prefix
  | cons a l ih =>
      obtain ⟨hal, hl'⟩ := List.pairwise_cons.mp hl
      cases m with
      | nil => cases hsub a List.mem_cons_self
      | cons b m =>
          obtain ⟨hbm, hm'⟩ := List.pairwise_cons.mp hm
          -- the least elements are the same
          have hba : b = a := by
            rcases List.mem_cons.mp (hsub a List.mem_cons_self) with heq | ham
            · exact heq.symm
            · have hlt : b < a := hbm a ham
              have hmem := hinit b List.mem_cons_self a List.mem_cons_self hlt
              rcases List.mem_cons.mp hmem with heq | hbl
              · exact heq
              · have := hal b hbl
                omega
          subst hba
          rw [List.cons_prefix_cons]
          refine ⟨rfl, ih hl' hm' ?_ ?_⟩
          · intro x hx
            rcases List.mem_cons.mp (hsub x (List.mem_cons_of_mem _ hx)) with rfl | hxm
            · exact absurd (hal x hx) (lt_irrefl x)
            · exact hxm
          · intro x hx y hy hlt
            have hmem := hinit x (List.mem_cons_of_mem _ hx) y (List.mem_cons_of_mem _ hy) hlt
            rcases List.mem_cons.mp hmem with rfl | hxl
            · exact absurd (hbm x hx) (lt_irrefl x)
            · exact hxl

/-- Lists that are strictly increasing in a key are determined by their elements. -/
theorem eq_of_pairwise_key {α : Type} {key : α → ℕ} {l m : List α}
    (hl : (l.map key).Pairwise (· < ·)) (hm : (m.map key).Pairwise (· < ·))
    (hmem : ∀ a, a ∈ l ↔ a ∈ m) : l = m := by
  have hnodup : ∀ {k : List α}, (k.map key).Pairwise (· < ·) → k.Nodup :=
    fun h => (h.imp fun hlt => hlt.ne).of_map key fun _ _ hab heq => hab (congrArg key heq)
  have hperm : l.Perm m := (List.perm_ext_iff_of_nodup (hnodup hl) (hnodup hm)).mpr hmem
  refine hperm.eq_of_pairwise ?_ (List.pairwise_map.mp hl) (List.pairwise_map.mp hm)
  intro a b _ _ hab hba
  omega

/-- Without its repetitions, a sorted list is strictly increasing. -/
theorem pairwise_lt_dedup {l : List ℕ} (h : l.Pairwise (· ≤ ·)) : l.dedup.Pairwise (· < ·) := by
  have hle : l.dedup.Pairwise (· ≤ ·) := h.sublist l.dedup_sublist
  refine (hle.and l.nodup_dedup).imp ?_
  rintro a b ⟨hab, hne⟩
  exact lt_of_le_of_ne hab hne

end Sys

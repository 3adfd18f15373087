import Mathlib.Data.Fintype.Card
import Mathlib.Tactic.Common

/-!
# Votes and certificates

Among finitely many voters some are faulty. A certificate for a vote is a set of voters
of a given size in which everybody who is not faulty cast it; nothing is asked of the
faulty ones, who may show a different vote to everybody.
-/

namespace Sys

universe u

variable {ι : Type u}

/-- `q` voters stand behind the vote `voted`, as far as they are not faulty. -/
def Certified (faulty : Finset ι) (q : ℕ) (voted : ι → Prop) : Prop :=
  ∃ Q : Finset ι, q ≤ Q.card ∧ ∀ i ∈ Q, i ∉ faulty → voted i

/-- Votes are not taken back. -/
theorem Certified.mono {faulty : Finset ι} {q : ℕ} {voted voted' : ι → Prop}
    (h : Certified faulty q voted) (hmono : ∀ i, voted i → voted' i) :
    Certified faulty q voted' := by
  obtain ⟨Q, hcard, hQ⟩ := h
  exact ⟨Q, hcard, fun i hi hf => hmono i (hQ i hi hf)⟩

/-- Two certificates that are large enough have a voter in common that is not faulty. -/
theorem Certified.exists_common [Fintype ι] [DecidableEq ι] {faulty : Finset ι} {q q' : ℕ}
    {voted voted' : ι → Prop} (h : Certified faulty q voted) (h' : Certified faulty q' voted')
    (hq : Fintype.card ι + faulty.card < q + q') : ∃ i, i ∉ faulty ∧ voted i ∧ voted' i := by
  obtain ⟨Q, hcard, hQ⟩ := h
  obtain ⟨Q', hcard', hQ'⟩ := h'
  have hunion := Finset.card_union_add_card_inter Q Q'
  have huniv := Finset.card_le_univ (Q ∪ Q')
  obtain ⟨i, hi, hf⟩ : ∃ i ∈ Q ∩ Q', i ∉ faulty :=
    Finset.exists_mem_notMem_of_card_lt_card (by omega)
  rw [Finset.mem_inter] at hi
  exact ⟨i, hf, hQ i hi.1 hf, hQ' i hi.2 hf⟩

end Sys

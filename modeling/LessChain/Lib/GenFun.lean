import Mathlib.Algebra.BigOperators.Ring.Finset
import Mathlib.Algebra.Order.BigOperators.Group.Finset
import Mathlib.Algebra.Polynomial.Coeff
import Mathlib.Data.Fintype.BigOperators
import Mathlib.Data.Fintype.Powerset

/-!
# Generating functions

Polynomials as lists of coefficients, which can be computed with, and what the coefficients of
a generating function count.

* `toPoly` gives the polynomial of a list, `toPoly_mul` and `toPoly_pow` say that the list
  operations compute its products and powers.
* `coeffs` lists the coefficients that are not zero, highest degree first. Where no degree is
  skipped (`Gapless`), the list can be read by degree: `coeffs_eq`.
* `coeff_sum_pow` reads a power of a generating function: a coefficient counts the families of
  choices with a given total weight. `card_placements` is the case of sets of positions in
  groups.
-/

namespace Sys.GenFun

open Polynomial

section Lists

variable {R : Type*} [CommSemiring R]

/-- Sum of two polynomials; the coefficients are listed from the constant one on. -/
def add : List R → List R → List R
  | [], q => q
  | a :: p, [] => a :: p
  | a :: p, b :: q => (a + b) :: add p q

/-- Product of two polynomials. -/
def mul : List R → List R → List R
  | [], _ => []
  | a :: p, q => add (q.map (a * ·)) (0 :: mul p q)

/-- Powers of a polynomial. -/
def pow (p : List R) : ℕ → List R
  | 0 => [1]
  | n + 1 => mul (pow p n) p

/-- The coefficients that are not zero, highest degree first; a single zero for the zero
polynomial. -/
def coeffs [DecidableEq R] (p : List R) : List R :=
  let terms := p.reverse.filter (· ≠ 0)
  if terms.length = 0 then [0] else terms

/-- The polynomial with the coefficients of the list. -/
noncomputable def toPoly : List R → R[X]
  | [] => 0
  | a :: p => C a + X * toPoly p

theorem toPoly_add (p q : List R) : toPoly (add p q) = toPoly p + toPoly q := by
  fun_induction add p q with
  | case1 q => simp [toPoly]
  | case2 a p => simp [toPoly]
  | case3 a p b q ih =>
      simp only [toPoly, ih, C_add]
      ring

theorem toPoly_map_mul (a : R) (q : List R) : toPoly (q.map (a * ·)) = C a * toPoly q := by
  induction q with
  | nil => simp [toPoly]
  | cons b q ih =>
      simp only [List.map_cons, toPoly, ih, C_mul]
      ring

theorem toPoly_mul (p q : List R) : toPoly (mul p q) = toPoly p * toPoly q := by
  induction p with
  | nil => simp [mul, toPoly]
  | cons a p ih =>
      simp only [mul, toPoly_add, toPoly_map_mul, toPoly, ih, C_0]
      ring

theorem toPoly_pow (p : List R) (n : ℕ) : toPoly (pow p n) = toPoly p ^ n := by
  induction n with
  | zero => simp [pow, toPoly]
  | succ n ih => rw [pow, toPoly_mul, ih, pow_succ]

theorem coeff_toPoly (p : List R) (i : ℕ) : (toPoly p).coeff i = p.getD i 0 := by
  induction p generalizing i with
  | nil => simp [toPoly]
  | cons a p ih =>
      cases i with
      | zero => simp [toPoly]
      | succ i => simp [toPoly, coeff_X_mul, ih]

theorem toPoly_map_range (f : ℕ → R) (n : ℕ) :
    toPoly ((List.range n).map f) = ∑ i ∈ Finset.range n, C (f i) * X ^ i := by
  ext j
  rw [coeff_toPoly, finsetSum_coeff]
  simp only [coeff_C_mul_X_pow]
  rw [Finset.sum_ite_eq (Finset.range n) j f]
  by_cases hj : j < n
  · simp [hj]
  · simp [hj]

end Lists

section Gapless

variable {R : Type*} [CommSemiring R] [LinearOrder R]

/-- The coefficients up to degree `d` are positive, the others are zero. -/
structure Gapless (p : R[X]) (d : ℕ) : Prop where
  pos : ∀ i, i ≤ d → 0 < p.coeff i
  zero : ∀ i, d < i → p.coeff i = 0

theorem Gapless.nonneg {p : R[X]} {d : ℕ} (h : Gapless p d) (i : ℕ) : 0 ≤ p.coeff i := by
  rcases le_or_gt i d with hi | hi
  · exact (h.pos i hi).le
  · exact (h.zero i hi).ge

/-- Without gaps, the coefficients that are not zero are those up to the degree. -/
theorem coeffs_eq {p : List R} {d : ℕ} (h : Gapless (toPoly p) d) :
    coeffs p = ((List.range (d + 1)).map (toPoly p).coeff).reverse := by
  -- split at the degree: below it all are kept, above it all are zero
  have hlow : p.take (d + 1) = (List.range (d + 1)).map (toPoly p).coeff := by
    have hlen : d < p.length := by
      by_contra hshort
      have hpos := h.pos d le_rfl
      simp [coeff_toPoly, List.getElem?_eq_none (show p.length ≤ d by omega)] at hpos
    apply List.ext_getElem
    · simp
      omega
    · intro i hi hi'
      rw [List.length_take] at hi
      simp [coeff_toPoly, List.getElem?_eq_getElem (show i < p.length by omega)]
  have hhigh : (p.drop (d + 1)).filter (· ≠ 0) = [] := by
    rw [List.filter_eq_nil_iff]
    intro a ha
    obtain ⟨i, hi, rfl⟩ := List.getElem_of_mem ha
    rw [List.length_drop] at hi
    have hzero := h.zero (d + 1 + i) (by omega)
    simpa [coeff_toPoly, List.getElem?_eq_getElem (show d + 1 + i < p.length by omega)]
      using hzero
  have hkept : (p.take (d + 1)).filter (· ≠ 0) = p.take (d + 1) := by
    rw [List.filter_eq_self, hlow]
    intro a ha
    obtain ⟨i, hi, rfl⟩ := List.mem_map.mp ha
    have hpos := h.pos i (by simpa [Nat.lt_succ_iff] using hi)
    simpa using hpos.ne'
  have hterms : p.reverse.filter (· ≠ 0) = ((List.range (d + 1)).map (toPoly p).coeff).reverse := by
    rw [List.filter_reverse]
    conv_lhs => rw [← List.take_append_drop (d + 1) p]
    rw [List.filter_append, hhigh, hkept, List.append_nil, hlow]
  have hsome : (p.reverse.filter (· ≠ 0)).length ≠ 0 := by
    rw [hterms]
    simp
  rw [coeffs, if_neg hsome, hterms]

theorem coeffs_of_eq_zero {p : List R} (h : toPoly p = 0) : coeffs p = [0] := by
  have hnone : (p.reverse.filter (· ≠ 0)).length = 0 := by
    rw [List.length_eq_zero_iff, List.filter_eq_nil_iff]
    intro a ha
    obtain ⟨i, hi, rfl⟩ := List.getElem_of_mem (List.mem_reverse.mp ha)
    have hzero := coeff_toPoly p i
    rw [h, coeff_zero] at hzero
    simpa [List.getElem?_eq_getElem hi] using hzero.symm
  rw [coeffs, if_pos hnone]

variable [IsStrictOrderedRing R]

theorem gapless_one : Gapless (1 : R[X]) 0 := by
  constructor
  · intro i hi
    obtain rfl : i = 0 := by omega
    simp
  · intro i hi
    rw [coeff_one, if_neg (by omega)]

theorem Gapless.mul {p q : R[X]} {d e : ℕ} (hp : Gapless p d) (hq : Gapless q e) :
    Gapless (p * q) (d + e) := by
  constructor
  · intro i hi
    rw [coeff_mul]
    apply Finset.sum_pos'
    · intro ij _
      exact mul_nonneg (hp.nonneg ij.1) (hq.nonneg ij.2)
    · -- take as much of the degree from `p` as it has
      refine ⟨(min i d, i - min i d), ?_, ?_⟩
      · rw [Finset.HasAntidiagonal.mem_antidiagonal]
        omega
      · exact mul_pos (hp.pos _ (by omega)) (hq.pos _ (by omega))
  · intro i hi
    rw [coeff_mul]
    apply Finset.sum_eq_zero
    intro ij hij
    rw [Finset.HasAntidiagonal.mem_antidiagonal] at hij
    rcases le_or_gt ij.1 d with h₁ | h₁
    · rw [hq.zero ij.2 (by omega), mul_zero]
    · rw [hp.zero ij.1 h₁, zero_mul]

theorem Gapless.pow {p : R[X]} {d : ℕ} (h : Gapless p d) (n : ℕ) : Gapless (p ^ n) (n * d) := by
  induction n with
  | zero =>
      rw [pow_zero, Nat.zero_mul]
      exact gapless_one
  | succ n ih =>
      rw [pow_succ, Nat.succ_mul]
      exact ih.mul h

end Gapless

section Counting

variable {ι α : Type*} [DecidableEq ι] [Fintype ι]

/-- The power of a generating function counts families: the coefficient of degree `t` is the
number of choices of one element for each index with total weight `t`. -/
theorem coeff_sum_pow (s : Finset α) (w : α → ℕ) (t : ℕ) :
    ((∑ a ∈ s, (X : ℤ[X]) ^ w a) ^ Fintype.card ι).coeff t =
      ((Fintype.piFinset fun _ : ι => s).filter fun f => ∑ i, w (f i) = t).card := by
  have hprod : (∑ a ∈ s, (X : ℤ[X]) ^ w a) ^ Fintype.card ι =
      ∑ f ∈ Fintype.piFinset fun _ : ι => s, X ^ ∑ i, w (f i) := by
    rw [← Finset.card_univ, ← Finset.prod_const, Finset.prod_univ_sum]
    simp only [Finset.prod_pow_eq_pow_sum]
  rw [hprod, finsetSum_coeff]
  simp only [coeff_X_pow, Finset.sum_boole, eq_comm]

variable {κ : Type*} [Fintype κ] [DecidableEq κ]

/-- The positions of `S` in group `i`. -/
def slice (S : Finset (ι × κ)) (i : ι) : Finset κ :=
  Finset.univ.filter fun k => (i, k) ∈ S

omit [Fintype ι] in
theorem card_slice (S : Finset (ι × κ)) (i : ι) :
    (slice S i).card = (S.filter fun p => p.1 = i).card := by
  refine Finset.card_nbij' (fun k => (i, k)) Prod.snd ?_ ?_ ?_ ?_
  · intro k hk
    simpa [slice] using hk
  · rintro ⟨j, k⟩ hp
    obtain ⟨hmem, rfl⟩ : (j, k) ∈ S ∧ j = i := by simpa using hp
    simpa [slice] using hmem
  · intro k _
    rfl
  · rintro ⟨j, k⟩ hp
    obtain ⟨-, rfl⟩ : (j, k) ∈ S ∧ j = i := by simpa using hp
    rfl

theorem sum_card_slice (S : Finset (ι × κ)) : ∑ i, (slice S i).card = S.card := by
  simp only [card_slice]
  exact (Finset.card_eq_sum_card_fiberwise fun p _ => Finset.mem_univ p.1).symm

/-- Sets of positions correspond to families of sets, one for each group. -/
def slices : Finset (ι × κ) ≃ (ι → Finset κ) where
  toFun S := slice S
  invFun f := Finset.univ.filter fun p => p.2 ∈ f p.1
  left_inv S := by ext ⟨i, k⟩; simp [slice]
  right_inv f := by ext i k; simp [slice]

variable (ι κ) in
/-- Sets of `t` positions with fewer than `limit` in each group. -/
def placements (limit t : ℕ) : Finset (Finset (ι × κ)) :=
  Finset.univ.filter fun S => S.card = t ∧ ∀ i, (S.filter fun p => p.1 = i).card < limit

/-- They are counted by a coefficient. -/
theorem card_placements (limit t : ℕ) :
    ((placements ι κ limit t).card : ℤ) =
      ((∑ j ∈ Finset.range limit, C ((Fintype.card κ).choose j : ℤ) * X ^ j) ^
        Fintype.card ι).coeff t := by
  have hbase : (∑ j ∈ Finset.range limit, C ((Fintype.card κ).choose j : ℤ) * X ^ j) =
      ∑ A ∈ Finset.univ.filter fun A : Finset κ => A.card < limit, X ^ A.card := by
    rw [← Finset.sum_fiberwise_of_maps_to (t := Finset.range limit) (g := Finset.card)
      (fun A hA => by simpa using hA)]
    refine Finset.sum_congr rfl fun j hj => ?_
    rw [Finset.mem_range] at hj
    have hfiber : ((Finset.univ.filter fun A : Finset κ => A.card < limit).filter
        fun A => A.card = j) = Finset.univ.powersetCard j := by
      ext A
      simp only [Finset.mem_filter, Finset.mem_univ, true_and, Finset.mem_powersetCard,
        Finset.subset_univ]
      omega
    have hweight : ∀ A ∈ (Finset.univ : Finset κ).powersetCard j,
        (X : ℤ[X]) ^ A.card = X ^ j := by
      intro A hA
      rw [(Finset.mem_powersetCard.mp hA).2]
    rw [hfiber, Finset.sum_congr rfl hweight, Finset.sum_const, Finset.card_powersetCard,
      Finset.card_univ]
    simp
  rw [hbase, coeff_sum_pow (ι := ι), Nat.cast_inj]
  refine Finset.card_equiv slices fun S => ?_
  simp [placements, slices, Fintype.mem_piFinset, ← card_slice, sum_card_slice, and_comm]

end Counting

end Sys.GenFun

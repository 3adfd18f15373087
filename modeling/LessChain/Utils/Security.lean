import Mathlib.Data.Nat.Choose.Basic
import Mathlib.Data.Nat.Factorial.BigOperators
import LessChain.Lib.GenFun

/-!
# The safety of a division into shards

`utils/cal_security.py` computes how likely it is that every shard of a random division has
few enough malicious nodes. The count behind it, `gf_coeffs`, is read off a generating
function: each group contributes `∑ i < limit, C(n, i) xⁱ`, and the coefficient of
`x ^ total_placed` in the product of all groups is wanted. The product is a sympy polynomial,
here a list of coefficients.

sympy lists only the coefficients that are not zero, and the script picks one by counting from
the end of that list. That is the wanted coefficient because no degree is skipped
(`gapless_groupPoly_pow`). `gfCoeffs_eq_card` says that the script counts the placements it is meant
to count.
-/

namespace LessChain.Utils

open Sys.GenFun Polynomial

/-- Loop state of `binomial`. -/
structure Tok where
  ntok : ℤ
  ktok : ℤ
  n : ℤ

/-- Body of the loop of `binomial`. -/
def Tok.next (s : Tok) (t : ℕ) : Tok :=
  { ntok := s.ntok * s.n, ktok := s.ktok * t, n := s.n - 1 }

/-- `binomial`. -/
def binomial (n k : ℤ) : ℤ :=
  if 0 ≤ k ∧ k ≤ n then
    let s := (List.range' 1 (min k (n - k)).toNat).foldl Tok.next ⟨1, 1, n⟩
    -- `//` rounds down, and so does `/` where the divisor is positive
    s.ntok / s.ktok
  else 0

/-- `gf_coeffs`; none where the script would index past the start of a list. -/
def gfCoeffs (n_groups n_per_group limit_per_group total_placed : ℕ) : Option ℤ :=
  let base_coeffs :=
    (List.range limit_per_group).reverse.map fun i : ℕ => binomial n_per_group i
  -- `sym.Poly` takes the coefficients in descending order
  let gf_base := base_coeffs.reverse
  let comb_coeffs := coeffs (pow gf_base n_groups)
  if comb_coeffs.length < total_placed + 1 then some 0
  else comb_coeffs[comb_coeffs.length - (total_placed + 1)]?

/-- After `m` rounds: the falling factorial, the factorial, and what is left of `n`. -/
theorem foldl_next (n m : ℕ) (hm : m ≤ n) :
    (List.range' 1 m).foldl Tok.next ⟨1, 1, n⟩ =
      ⟨n.descFactorial m, m.factorial, n - m⟩ := by
  induction m with
  | zero => simp
  | succ m ih =>
      rw [List.range'_1_concat, List.foldl_append, ih (by omega)]
      simp only [List.foldl_cons, List.foldl_nil, Tok.next, Nat.descFactorial_succ,
        Nat.factorial_succ]
      push_cast [Nat.cast_sub (show m ≤ n by omega)]
      congr 1 <;> ring

theorem binomial_natCast (n k : ℕ) : binomial n k = n.choose k := by
  unfold binomial
  split
  case isTrue h =>
    have hle : k ≤ n := by omega
    have hmin : (min (k : ℤ) (n - k)).toNat = min k (n - k) := by omega
    have hchoose : n.choose (min k (n - k)) = n.choose k := by
      rcases le_total k (n - k) with hk | hk
      · rw [min_eq_left hk]
      · rw [min_eq_right hk, Nat.choose_symm hle]
    rw [hmin, foldl_next n _ (by omega), ← hchoose, Nat.choose_eq_descFactorial_div_factorial]
    push_cast
    rfl
  case isFalse h =>
    rw [Nat.choose_eq_zero_of_lt (by omega), Nat.cast_zero]

theorem binomial_of_neg {n k : ℤ} (h : n < 0 ∨ k < 0) : binomial n k = 0 := by
  rw [binomial, if_neg (by omega)]

/-- The generating function of one group. -/
noncomputable def groupPoly (n_per_group limit_per_group : ℕ) : ℤ[X] :=
  ∑ i ∈ Finset.range limit_per_group, C (n_per_group.choose i : ℤ) * X ^ i

theorem coeff_groupPoly (n limit i : ℕ) :
    (groupPoly n limit).coeff i = if i < limit then (n.choose i : ℤ) else 0 := by
  rw [groupPoly, finsetSum_coeff]
  simp only [coeff_C_mul_X_pow, Finset.sum_ite_eq, Finset.mem_range]

theorem gapless_groupPoly (n limit : ℕ) :
    Gapless (groupPoly n (limit + 1)) (min limit n) := by
  constructor
  · intro i hi
    have hchoose := Nat.choose_pos (show i ≤ n by omega)
    rw [coeff_groupPoly, if_pos (by omega)]
    exact_mod_cast hchoose
  · intro i hi
    rw [coeff_groupPoly]
    split
    case isTrue h => rw [Nat.choose_eq_zero_of_lt (by omega), Nat.cast_zero]
    case isFalse => rfl

/-- The product of all groups has no gaps, unless it is zero. -/
theorem gapless_groupPoly_pow (n limit groups : ℕ) :
    (∃ d, Gapless (groupPoly n limit ^ groups) d) ∨ groupPoly n limit ^ groups = 0 := by
  cases limit with
  | succ limit => exact .inl ⟨_, (gapless_groupPoly n limit).pow groups⟩
  | zero =>
      have hzero : groupPoly n 0 = 0 := by simp [groupPoly]
      cases groups with
      | zero => exact .inl ⟨0, by rw [pow_zero]; exact gapless_one⟩
      | succ groups => exact .inr (by rw [hzero, pow_succ, mul_zero])

/-- Counting from the end of the listed coefficients gives the one of that degree. -/
theorem getElem_coeffs {p : List ℤ} (h : (∃ d, Gapless (toPoly p) d) ∨ toPoly p = 0) (t : ℕ) :
    (if (coeffs p).length < t + 1 then some 0
      else (coeffs p)[(coeffs p).length - (t + 1)]?) = some ((toPoly p).coeff t) := by
  rcases h with ⟨d, hd⟩ | hzero
  · have hlen : (coeffs p).length = d + 1 := by simp [coeffs_eq hd]
    rw [hlen]
    split
    case isTrue hlt => rw [hd.zero t (by omega)]
    case isFalse hle =>
      rw [coeffs_eq hd, List.getElem?_reverse (by simp)]
      have hindex : d - (d - t) = t := by omega
      simp [hindex, List.getElem?_range (show t < d + 1 by omega)]
  · rw [coeffs_of_eq_zero hzero, hzero, coeff_zero]
    cases t <;> simp

/-- `binomial` computes binomial coefficients, and `gf_coeffs` counts the ways to choose
`total_placed` of the positions of all groups, fewer than `limit_per_group` in each. -/
theorem gfCoeffs_eq_card (n_groups n_per_group limit_per_group total_placed : ℕ) :
    (∀ n k : ℕ, binomial n k = n.choose k) ∧
    (∀ n k : ℤ, n < 0 ∨ k < 0 → binomial n k = 0) ∧
    gfCoeffs n_groups n_per_group limit_per_group total_placed =
      some ((placements (Fin n_groups) (Fin n_per_group) limit_per_group
        total_placed).card : ℤ) := by
  refine ⟨binomial_natCast, fun n k => binomial_of_neg, ?_⟩
  have hpoly : toPoly (pow ((List.range limit_per_group).map fun i : ℕ => binomial n_per_group i)
      n_groups) = groupPoly n_per_group limit_per_group ^ n_groups := by
    simp only [toPoly_pow, toPoly_map_range, binomial_natCast, groupPoly]
  have hread := getElem_coeffs (hpoly ▸ gapless_groupPoly_pow _ _ _) total_placed
  rw [hpoly] at hread
  rw [card_placements, Fintype.card_fin, Fintype.card_fin, gfCoeffs, List.map_reverse,
    List.reverse_reverse]
  exact hread

example : gfCoeffs 2 3 2 2 = some 9 := by decide +kernel

end LessChain.Utils

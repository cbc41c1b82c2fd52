-- The fast inverse of a Vandermonde matrix, through the polynomial whose roots
-- are its points, and the systematic codes that it gives.
import Mathlib.LinearAlgebra.Lagrange
import Mathlib.LinearAlgebra.Vandermonde
import Mathlib.LinearAlgebra.Matrix.NonsingularInverse

namespace wspace_client.vandermonde

open Polynomial Matrix Lagrange

variable {F : Type} [Field F]

/-! ## The polynomial of the first points -/

/-- The polynomial with the roots `p 0`, ..., `p (i - 1)`, shifted to degree `k`. -/
noncomputable def shifted (k : Nat) (p : Nat → F) (i : Nat) : F[X] :=
  X ^ (k - i) * nodal (Finset.range i) p

theorem shifted_last (k : Nat) (p : Nat → F) : shifted k p k = nodal (Finset.range k) p := by
  rw [shifted, Nat.sub_self, pow_zero, one_mul]

/-- One more root. -/
theorem coeff_shifted_succ {k i : Nat} (p : Nat → F) (hi : i < k) (j : Nat) :
    (shifted k p (i + 1)).coeff j =
      (shifted k p i).coeff j - p i * (shifted k p i).coeff (j + 1) := by
  have hpow : k - i = k - (i + 1) + 1 := by omega
  have hnodal : nodal (Finset.range (i + 1)) p = nodal (Finset.range i) p * (X - C (p i)) := by
    rw [nodal_eq, nodal_eq, Finset.prod_range_succ]
  have hX : shifted k p i = X ^ (k - (i + 1)) * nodal (Finset.range i) p * X := by
    rw [shifted, hpow, pow_succ]
    ring
  have hsucc : shifted k p (i + 1) =
      shifted k p i - C (p i) * (X ^ (k - (i + 1)) * nodal (Finset.range i) p) := by
    rw [hX, shifted, hnodal]
    ring
  rw [hsucc, coeff_sub, coeff_C_mul]
  congr 2
  rw [hX, coeff_mul_X]

theorem coeff_shifted_top {k i : Nat} (p : Nat → F) (hi : i ≤ k) :
    (shifted k p i).coeff k = 1 := by
  have hmonic : (shifted k p i).Monic := (monic_X_pow _).mul nodal_monic
  have hdeg : (shifted k p i).natDegree = k := by
    rw [shifted, (monic_X_pow _).natDegree_mul nodal_monic, natDegree_X_pow, natDegree_nodal,
      Finset.card_range]
    omega
  have hlead := hmonic.coeff_natDegree
  rwa [hdeg] at hlead

/-- With zero as the first point, the lowest coefficients are zero. -/
theorem coeff_shifted_low {k i j : Nat} {p : Nat → F} (h0 : p 0 = 0) (hi : 0 < i)
    (hj : j ≤ k - i) : (shifted k p i).coeff j = 0 := by
  rw [shifted, coeff_X_pow_mul']
  split
  · have hjk : j - (k - i) = 0 := by omega
    rw [hjk, coeff_zero_eq_eval_zero, eval_nodal]
    exact Finset.prod_eq_zero (Finset.mem_range.mpr hi) (by rw [h0, sub_zero])
  · rfl

/-! ## Division by one root -/

/-- The polynomial without the root `p r`. -/
noncomputable def quotient (k : Nat) (p : Nat → F) (r : Nat) : F[X] :=
  nodal ((Finset.range k).erase r) p

theorem natDegree_quotient {k r : Nat} (p : Nat → F) (hr : r < k) :
    (quotient k p r).natDegree = k - 1 := by
  rw [quotient, natDegree_nodal, Finset.card_erase_of_mem (Finset.mem_range.mpr hr),
    Finset.card_range]

theorem coeff_quotient_last {k r : Nat} (p : Nat → F) (hr : r < k) :
    (quotient k p r).coeff (k - 1) = 1 := by
  rw [← natDegree_quotient p hr]
  exact nodal_monic

/-- Synthetic division: each coefficient follows from the next one. -/
theorem coeff_quotient {k r : Nat} (p : Nat → F) (hr : r < k) (i : Nat) :
    (quotient k p r).coeff i =
      (nodal (Finset.range k) p).coeff (i + 1) + p r * (quotient k p r).coeff (i + 1) := by
  have hmul : nodal (Finset.range k) p = (X - C (p r)) * quotient k p r :=
    nodal_eq_mul_nodal_erase (Finset.mem_range.mpr hr)
  rw [hmul, sub_mul, coeff_sub, coeff_X_mul, coeff_C_mul]
  ring

/-- The value of the coefficients from `i` on, as the rule of Horner sums them. -/
noncomputable def horner (Q : F[X]) (k : Nat) (x : F) (i : Nat) : F :=
  ∑ j ∈ Finset.range (k - i), Q.coeff (i + j) * x ^ j

theorem horner_last {Q : F[X]} {k : Nat} (x : F) (hk : 0 < k) :
    horner Q k x (k - 1) = Q.coeff (k - 1) := by
  have hone : k - (k - 1) = 1 := by omega
  simp [horner, hone]

theorem horner_step {Q : F[X]} {k i : Nat} (x : F) (hi : i < k) :
    horner Q k x i = x * horner Q k x (i + 1) + Q.coeff i := by
  have hsucc : k - i = k - (i + 1) + 1 := by omega
  rw [horner, hsucc, Finset.sum_range_succ', horner, Finset.mul_sum]
  congr 1
  · refine Finset.sum_congr rfl fun j _ => ?_
    have hidx : i + (j + 1) = i + 1 + j := by omega
    rw [hidx, pow_succ]
    ring
  · simp

theorem horner_zero {Q : F[X]} {k : Nat} (x : F) (hQ : Q.natDegree < k) :
    horner Q k x 0 = Q.eval x := by
  rw [eval_eq_sum_range' hQ, horner]
  simp

/-! ## The inverse -/

/-- The coefficients of the polynomials that are one at one point and zero at the others. -/
noncomputable def inverse (k : Nat) (p : Nat → F) : Matrix (Fin k) (Fin k) F :=
  fun col row => ((quotient k p row).eval (p row))⁻¹ * (quotient k p row).coeff col

theorem eval_quotient_self {k r : Nat} {p : Nat → F} (hp : Set.InjOn p (Finset.range k))
    (hr : r < k) : (quotient k p r).eval (p r) ≠ 0 := by
  refine eval_nodal_not_at_node fun i hi he => ?_
  obtain ⟨hne, hi⟩ := Finset.mem_erase.mp hi
  exact hne (hp hi (Finset.mem_range.mpr hr) he.symm)

theorem eval_quotient_other {k r i : Nat} (p : Nat → F) (hi : i < k) (hne : i ≠ r) :
    (quotient k p r).eval (p i) = 0 :=
  eval_nodal_at_node (Finset.mem_erase.mpr ⟨hne, Finset.mem_range.mpr hi⟩)

theorem vandermonde_mul_inverse {k : Nat} {p : Nat → F} (hp : Set.InjOn p (Finset.range k)) :
    vandermonde (fun i : Fin k => p i) * inverse k p = 1 := by
  ext i r
  have hk : 0 < k := Fin.pos i
  have hsum : (vandermonde (fun i : Fin k => p i) * inverse k p) i r =
      ((quotient k p r).eval (p r))⁻¹ * (quotient k p r).eval (p i) := by
    have hdeg : (quotient k p r).natDegree < k := by
      rw [natDegree_quotient p r.isLt]
      omega
    rw [eval_eq_sum_range' hdeg (p i), ← Fin.sum_univ_eq_sum_range
      (fun j => (quotient k p r).coeff j * p i ^ j), Finset.mul_sum, mul_apply]
    refine Finset.sum_congr rfl fun j _ => ?_
    rw [vandermonde_apply, inverse]
    ring
  rw [hsum]
  by_cases hir : i = r
  · subst hir
    rw [inv_mul_cancel₀ (eval_quotient_self hp i.isLt), one_apply_eq]
  · have hne : (i : Nat) ≠ r := fun he => hir (Fin.ext he)
    rw [eval_quotient_other p i.isLt hne, mul_zero, one_apply_ne hir]

/-! ## Systematic codes -/

/-- Any `k` rows of a Vandermonde matrix, times an invertible matrix, are independent. -/
theorem rows_surjective {k : Nat} {q : Fin k → F} {V W : Matrix (Fin k) (Fin k) F}
    (hq : Function.Injective q) (hW : V * W = 1) :
    Function.Surjective (vandermonde q * W).mulVec := by
  rw [mulVec_surjective_iff_isUnit, isUnit_iff_isUnit_det, det_mul]
  apply IsUnit.mul
  · exact isUnit_iff_ne_zero.mpr (det_vandermonde_ne_zero_iff.mpr hq)
  · exact (isUnit_iff_isUnit_det W).mp (IsUnit.of_mul_eq_one V (mul_eq_one_comm.mp hW))

end wspace_client.vandermonde

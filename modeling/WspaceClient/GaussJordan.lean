-- In-place inversion of a matrix. Each pivot exchanges one input of the matrix
-- with one output, and the row swaps on the way are undone on the columns.
import Mathlib.Data.Matrix.Mul
import Mathlib.Data.Finset.Piecewise
import Mathlib.Tactic.FieldSimp
import Mathlib.Tactic.Ring

namespace wspace_client.gauss_jordan

open Matrix

variable {F n : Type} [Field F] [Fintype n] [DecidableEq n]

/-! ## The operations -/

def swapRows (M : Matrix n n F) (r c : n) : Matrix n n F := fun i j => M (Equiv.swap r c i) j

def swapCols (M : Matrix n n F) (r c : n) : Matrix n n F := fun i j => M i (Equiv.swap r c j)

/-- The row of the pivot, whose place takes the one of the inverse. -/
def pivotRow (M : Matrix n n F) (c : n) : n → F :=
  fun j => (M c c)⁻¹ * Function.update (M c) c 1 j

/-- Clears the column of the pivot, whose places take the inverse. -/
def pivot (M : Matrix n n F) (c : n) : Matrix n n F :=
  fun i => if i = c then pivotRow M c
    else fun j => Function.update (M i) c 0 j - M i c * pivotRow M c j

/-- Row swaps, in their order. -/
def swapAllRows (A : Matrix n n F) (ps : List (n × n)) : Matrix n n F :=
  ps.foldl (fun A p => swapRows A p.1 p.2) A

/-- Column swaps, the last one first. -/
def swapAllCols (M : Matrix n n F) (ps : List (n × n)) : Matrix n n F :=
  ps.foldr (fun p M => swapCols M p.1 p.2) M

/-! ## Exchanges -/

/-- `M` is `A` with the inputs in `S` exchanged with the outputs in `S`. -/
def Exchanged (A : Matrix n n F) (S : Finset n) (M : Matrix n n F) : Prop :=
  ∀ x, M *ᵥ S.piecewise (A *ᵥ x) (-x) = S.piecewise x (-(A *ᵥ x))

theorem exchanged_empty (A : Matrix n n F) : Exchanged A ∅ A := by
  intro x
  rw [Finset.piecewise_empty, Finset.piecewise_empty, mulVec_neg]

/-- With every input exchanged, the matrix is the inverse. -/
theorem Exchanged.mul_eq_one {A M : Matrix n n F} (h : Exchanged A Finset.univ M) : M * A = 1 := by
  refine Matrix.ext_of_mulVec_single fun i => ?_
  have hx := h (Pi.single i 1)
  rw [Finset.piecewise_univ, Finset.piecewise_univ] at hx
  rw [← mulVec_mulVec, hx, one_mulVec]

theorem swapRows_mulVec (A : Matrix n n F) (r c : n) (x : n → F) :
    swapRows A r c *ᵥ x = fun i => (A *ᵥ x) (Equiv.swap r c i) := rfl

omit [Fintype n] in
theorem swap_mem_iff {S : Finset n} {r c : n} (hr : r ∉ S) (hc : c ∉ S) (i : n) :
    Equiv.swap r c i ∈ S ↔ i ∈ S := by
  rcases eq_or_ne i r with rfl | hir
  · simp [hr, hc]
  · rcases eq_or_ne i c with rfl | hic
    · simp [hr, hc]
    · rw [Equiv.swap_apply_of_ne_of_ne hir hic]

/-- A swap of two rows that are not yet exchanged swaps the outputs. -/
theorem Exchanged.swapRows {A M : Matrix n n F} {S : Finset n} {r c : n} (h : Exchanged A S M)
    (hr : r ∉ S) (hc : c ∉ S) : Exchanged (swapRows A r c) S (swapRows M r c) := by
  have hfix : ∀ i ∈ S, Equiv.swap r c i = i := by
    intro i hi
    apply Equiv.swap_apply_of_ne_of_ne
    · rintro rfl
      exact hr hi
    · rintro rfl
      exact hc hi
  intro x
  have hin : S.piecewise (gauss_jordan.swapRows A r c *ᵥ x) (-x) =
      S.piecewise (A *ᵥ x) (-x) := by
    refine S.piecewise_congr (fun i hi => ?_) fun _ _ => rfl
    exact congrArg (A *ᵥ x) (hfix i hi)
  rw [hin, swapRows_mulVec, h x]
  funext i
  by_cases hi : i ∈ S
  · rw [hfix i hi, S.piecewise_eq_of_mem _ _ hi, S.piecewise_eq_of_mem _ _ hi]
  · have hi' : Equiv.swap r c i ∉ S := by rwa [swap_mem_iff hr hc]
    rw [S.piecewise_eq_of_notMem _ _ hi, S.piecewise_eq_of_notMem _ _ hi']
    rfl

/-- A sum of products, when one place changes on both sides. -/
theorem sum_update_mul_update (f u : n → F) (c : n) (a b : F) :
    ∑ j, Function.update f c a j * Function.update u c b j =
      a * b + (∑ j, f j * u j - f c * u c) := by
  rw [Fintype.sum_eq_add_sum_compl c, Fintype.sum_eq_add_sum_compl c fun j => f j * u j,
    Function.update_self, Function.update_self, add_sub_cancel_left]
  congr 1
  refine Finset.sum_congr rfl fun j hj => ?_
  have hne : j ≠ c := by simpa using hj
  rw [Function.update_of_ne hne, Function.update_of_ne hne]

theorem Exchanged.pivot {A M : Matrix n n F} {S : Finset n} {c : n} (h : Exchanged A S M)
    (hc : c ∉ S) (hp : M c c ≠ 0) : Exchanged A (insert c S) (pivot M c) := by
  intro x
  let u := S.piecewise (A *ᵥ x) (-x)
  let v := S.piecewise x (-(A *ᵥ x))
  have hu : u c = -x c := S.piecewise_eq_of_notMem _ _ hc
  have hv : v c = -(A *ᵥ x) c := S.piecewise_eq_of_notMem _ _ hc
  have hrow : ∀ i, ∑ j, M i j * u j = v i := fun i => congrFun (h x) i
  have hpivot : ∑ j, pivotRow M c j * Function.update u c ((A *ᵥ x) c) j = x c := by
    calc ∑ j, pivotRow M c j * Function.update u c ((A *ᵥ x) c) j
        = (M c c)⁻¹ * ∑ j, Function.update (M c) c 1 j * Function.update u c ((A *ᵥ x) c) j := by
          simp only [pivotRow, mul_assoc, Finset.mul_sum]
      _ = (M c c)⁻¹ * (M c c * x c) := by
          rw [sum_update_mul_update, hrow, hu, hv]
          ring
      _ = x c := by rw [← mul_assoc, inv_mul_cancel₀ hp, one_mul]
  rw [Finset.piecewise_insert, Finset.piecewise_insert]
  funext i
  change ∑ j, gauss_jordan.pivot M c i j * Function.update u c ((A *ᵥ x) c) j =
    Function.update v c (x c) i
  by_cases hi : i = c
  · subst hi
    rw [Function.update_self, ← hpivot]
    simp only [gauss_jordan.pivot, if_true]
  · rw [Function.update_of_ne hi]
    calc ∑ j, gauss_jordan.pivot M c i j * Function.update u c ((A *ᵥ x) c) j
        = ∑ j, Function.update (M i) c 0 j * Function.update u c ((A *ᵥ x) c) j -
            M i c * ∑ j, pivotRow M c j * Function.update u c ((A *ᵥ x) c) j := by
          simp only [gauss_jordan.pivot, if_neg hi, sub_mul, Finset.sum_sub_distrib, mul_assoc,
            Finset.mul_sum]
      _ = v i := by
          rw [hpivot, sum_update_mul_update, hrow, hu]
          ring

/-- A row that is not yet exchanged has a place for a pivot, since the outputs
of the matrix are independent. -/
theorem Exchanged.exists_pivot {A M : Matrix n n F} {S : Finset n} {r : n}
    (h : Exchanged A S M) (hA : Function.Surjective A.mulVec) (hr : r ∉ S) :
    ∃ c ∉ S, M r c ≠ 0 := by
  by_contra hno
  have hzero : ∀ c ∉ S, M r c = 0 := by
    intro c hc
    by_contra hne
    exact hno ⟨c, hc, hne⟩
  -- The input that only the output `r` sees.
  obtain ⟨x, hx⟩ := hA (Pi.single r 1)
  have hrow := congrFun (h x) r
  have hsum : (M *ᵥ S.piecewise (A *ᵥ x) (-x)) r = 0 := by
    refine Finset.sum_eq_zero fun j _ => ?_
    by_cases hj : j ∈ S
    · have hjr : j ≠ r := by
        rintro rfl
        exact hr hj
      rw [S.piecewise_eq_of_mem _ _ hj, hx, Pi.single_eq_of_ne hjr, mul_zero]
    · exact mul_eq_zero_of_left (hzero j hj) _
  rw [hsum, S.piecewise_eq_of_notMem _ _ hr, hx, Pi.neg_apply, Pi.single_eq_same] at hrow
  exact one_ne_zero (neg_eq_zero.mp hrow.symm)

theorem swapRows_surjective {A : Matrix n n F} (r c : n) (hA : Function.Surjective A.mulVec) :
    Function.Surjective (swapRows A r c).mulVec := by
  intro y
  obtain ⟨x, hx⟩ := hA fun i => y (Equiv.swap r c i)
  refine ⟨x, ?_⟩
  rw [swapRows_mulVec, hx]
  simp

/-! ## The swaps are undone -/

theorem swapCols_mul (M A : Matrix n n F) (r c : n) :
    swapCols M r c * A = M * swapRows A r c := by
  ext i j
  simp only [mul_apply, swapCols, swapRows]
  rw [← Equiv.sum_comp (Equiv.swap r c)]
  simp

theorem swapAllCols_mul (M A : Matrix n n F) (ps : List (n × n)) :
    swapAllCols M ps * A = M * swapAllRows A ps := by
  induction ps generalizing A with
  | nil => rfl
  | cons p ps ih =>
    change swapCols (swapAllCols M ps) p.1 p.2 * A = M * swapAllRows (swapRows A p.1 p.2) ps
    rw [swapCols_mul, ih]

omit [Field F] [Fintype n] in
theorem swapAllRows_concat (A : Matrix n n F) (ps : List (n × n)) (p : n × n) :
    swapAllRows A (ps ++ [p]) = swapRows (swapAllRows A ps) p.1 p.2 := by
  simp [swapAllRows]

end wspace_client.gauss_jordan

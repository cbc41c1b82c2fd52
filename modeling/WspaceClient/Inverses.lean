-- The two inversions of `fec.cc` are right: the Gauss-Jordan elimination finds
-- a pivot for every column, and the fast inversion gives the Vandermonde inverse.
import WspaceClient.Fec

namespace wspace_client.fec

open gauss_jordan Matrix

/-! ## Field operations -/

theorem Gf.neg_eq (x : Gf) : -x = x := rfl

theorem Gf.sub_eq (x y : Gf) : x - y = x + y := by
  rw [sub_eq_add_neg, Gf.neg_eq]

theorem addmul_eq {ι : Type} (dst src : ι → Gf) (c : Gf) :
    addmul dst src c = fun i => dst i + c * src i := by
  unfold addmul
  split
  · simp only [gfMul_eq]
  · rename_i hc
    rw [not_not] at hc
    simp [hc]

/-! ## One column -/

theorem scaled_eq_pivotRow {k : Nat} (src : Matrix (Fin k) (Fin k) Gf) (icol : Fin k) :
    (if src icol icol ≠ 1 then
      fun ix => gfMul (generateGf.inverse (src icol icol)) (Function.update (src icol) icol 1 ix)
    else src icol) = pivotRow src icol := by
  funext ix
  unfold pivotRow
  split
  · rw [← inverse_eq]
    exact gfMul_eq _ _
  · rename_i hone
    rw [not_not] at hone
    -- The place of the pivot is already one.
    have hself : Function.update (src icol) icol 1 = src icol := by
      rw [← hone, Function.update_eq_self]
    rw [hself, hone, inv_one, one_mul]

theorem pivot_self {k : Nat} (src : Matrix (Fin k) (Fin k) Gf) (icol : Fin k) :
    pivot src icol icol = pivotRow src icol := if_pos rfl

theorem pivot_of_ne {k : Nat} (src : Matrix (Fin k) (Fin k) Gf) {icol i : Fin k} (h : i ≠ icol) :
    pivot src icol i =
      fun j => Function.update (src i) icol 0 j + src i icol * pivotRow src icol j := if_neg h

/-- The elimination of the code is the exchange of the pivot. -/
theorem eliminate_eq_pivot {k : Nat} (src : Matrix (Fin k) (Fin k) Gf) (icol : Fin k) :
    eliminate src icol = pivot src icol := by
  unfold eliminate
  simp only [scaled_eq_pivotRow]
  funext i
  by_cases hi : i = icol
  · rw [if_pos hi, hi, pivot_self]
  · rw [if_neg hi, pivot_of_ne src hi]
    split
    · rw [addmul_eq]
    · rename_i hid
      rw [not_not] at hid
      -- A row of the identity has nothing to take from the other rows.
      rw [hid]
      funext j
      by_cases hj : j = icol
      · rw [hj]
        simp
      · simp [hj]

/-! ## The search for a pivot -/

/-- A mark is 0, or 1 for a column that was exchanged. -/
def Elim.Marked {k : Nat} (s : Elim k) : Prop := ∀ j, s.ipiv j = 0 ∨ s.ipiv j = 1

/-- A place where the search may stop. -/
structure Elim.Pivot {k : Nat} (s : Elim k) (irow icol : Fin k) : Prop where
  row : s.ipiv irow = 0
  col : s.ipiv icol = 0
  ne_zero : s.src irow icol ≠ 0

theorem probe_pivot {k : Nat} {s : Elim k} {row ix : Fin k} (h : s.Pivot row ix) :
    probe s row ix = some (some (row, ix)) := by
  unfold probe
  rw [if_pos h.col, if_pos h.ne_zero]

/-- The search only stops at such a place. -/
theorem pivot_of_probe {k : Nat} {s : Elim k} {row ix : Fin k} {v : Option (Fin k × Fin k)}
    (hm : s.Marked) (hrow : s.ipiv row ≠ 1) (h : probe s row ix = some v) :
    v = some (row, ix) ∧ s.Pivot row ix := by
  unfold probe at h
  split at h
  · rename_i hcol
    split at h
    · rename_i hne
      cases h
      exact ⟨rfl, (hm row).resolve_right hrow, hcol, hne⟩
    · cases h
  · split at h
    · have := hm ix
      omega
    · cases h

theorem findPivot_spec {k : Nat} {s : Elim k} {r c : Fin k} (col : Fin k) (hm : s.Marked)
    (hp : s.Pivot r c) : ∃ irow icol, findPivot s col = some (irow, icol) ∧ s.Pivot irow icol := by
  unfold findPivot
  split
  · rename_i hdiag
    have hcol := (hm col).resolve_right hdiag.1
    exact ⟨col, col, rfl, hcol, hcol, hdiag.2⟩
  · let search : Fin k → Option (Option (Fin k × Fin k)) := fun row =>
      if s.ipiv row ≠ 1 then (List.finRange k).findSome? (probe s row) else none
    have hr : s.ipiv r ≠ 1 := by
      rw [hp.row]
      decide
    have hsome : ((List.finRange k).findSome? search).isSome := by
      rw [List.findSome?_isSome_iff]
      refine ⟨r, List.mem_finRange r, ?_⟩
      simp only [search, if_pos hr]
      rw [List.findSome?_isSome_iff]
      exact ⟨c, List.mem_finRange c, by rw [probe_pivot hp]; rfl⟩
    obtain ⟨v, hv⟩ := Option.isSome_iff_exists.mp hsome
    obtain ⟨irow, -, hrow⟩ := List.exists_of_findSome?_eq_some hv
    simp only [search] at hrow
    split at hrow
    · rename_i hne
      obtain ⟨icol, -, hicol⟩ := List.exists_of_findSome?_eq_some hrow
      obtain ⟨rfl, hpiv⟩ := pivot_of_probe hm hne hicol
      exact ⟨irow, icol, by rw [hv]; rfl, hpiv⟩
    · cases hrow

/-! ## All columns -/

/-- The columns that were exchanged. -/
def Elim.done {k : Nat} (s : Elim k) : Finset (Fin k) := Finset.univ.filter fun j => s.ipiv j = 1

theorem Elim.mem_done {k : Nat} {s : Elim k} {j : Fin k} : j ∈ s.done ↔ s.ipiv j = 1 := by
  simp [Elim.done]

/-- After `t` columns: the matrix is the original one, with its rows swapped
and the marked columns exchanged. -/
structure Elim.Holds {k : Nat} (A : Matrix (Fin k) (Fin k) Gf) (t : Nat) (s : Elim k) : Prop where
  marked : s.Marked
  count : s.done.card = t
  exchanged : Exchanged (swapAllRows A s.swaps) s.done s.src

theorem swapAllRows_surjective {k : Nat} {A : Matrix (Fin k) (Fin k) Gf}
    (hA : Function.Surjective A.mulVec) (ps : List (Fin k × Fin k)) :
    Function.Surjective (swapAllRows A ps).mulVec := by
  induction ps generalizing A with
  | nil => exact hA
  | cons p ps ih => exact ih (swapRows_surjective p.1 p.2 hA)

theorem swapRows_self {k : Nat} (M : Matrix (Fin k) (Fin k) Gf) (r : Fin k) :
    swapRows M r r = M := by
  unfold swapRows
  rw [Equiv.swap_self]
  rfl

/-- The state after the exchange of a pivot. -/
def Elim.exchange {k : Nat} (s : Elim k) (irow icol : Fin k) : Elim k where
  src := pivot (swapRows s.src irow icol) icol
  ipiv := Function.update s.ipiv icol (s.ipiv icol + 1)
  swaps := s.swaps ++ [(irow, icol)]

theorem invertColumn_eq {k : Nat} {s : Elim k} {col irow icol : Fin k}
    (hfind : findPivot s col = some (irow, icol)) (hp : s.Pivot irow icol) :
    invertColumn s col = some (s.exchange irow icol) := by
  have hsrc : (if irow ≠ icol then swapRows s.src irow icol else s.src) =
      swapRows s.src irow icol := by
    split
    · rfl
    · rename_i he
      rw [not_not.mp he, swapRows_self]
  have hne : swapRows s.src irow icol icol icol ≠ 0 := by
    unfold swapRows
    rw [Equiv.swap_apply_right]
    exact hp.ne_zero
  unfold invertColumn
  simp only [hfind, bind, Option.bind, hsrc, if_neg hne, eliminate_eq_pivot]
  rfl

theorem Elim.Holds.exchange {k : Nat} {A : Matrix (Fin k) (Fin k) Gf} {t : Nat} {s : Elim k}
    {irow icol : Fin k} (h : s.Holds A t) (hp : s.Pivot irow icol) :
    (s.exchange irow icol).Holds A (t + 1) := by
  have hirow : irow ∉ s.done := by simp [Elim.mem_done, hp.row]
  have hicol : icol ∉ s.done := by simp [Elim.mem_done, hp.col]
  have hdone : (s.exchange irow icol).done = insert icol s.done := by
    ext j
    rw [Finset.mem_insert, Elim.mem_done, Elim.mem_done]
    by_cases hj : j = icol
    · simp [Elim.exchange, hj, hp.col]
    · simp [Elim.exchange, hj]
  refine ⟨fun j => ?_, ?_, ?_⟩
  · by_cases hj : j = icol
    · right
      simp [Elim.exchange, hj, hp.col]
    · simp only [Elim.exchange, Function.update_of_ne hj]
      exact h.marked j
  · rw [hdone, Finset.card_insert_of_notMem hicol, h.count]
  · have hne : swapRows s.src irow icol icol icol ≠ 0 := by
      unfold swapRows
      rw [Equiv.swap_apply_right]
      exact hp.ne_zero
    rw [hdone]
    simp only [Elim.exchange, swapAllRows_concat]
    exact (h.exchanged.swapRows hirow hicol).pivot hicol hne

theorem invertColumn_holds {k : Nat} {A : Matrix (Fin k) (Fin k) Gf} {t : Nat} {s : Elim k}
    (col : Fin k) (hA : Function.Surjective A.mulVec) (h : s.Holds A t) (ht : t < k) :
    ∃ s', invertColumn s col = some s' ∧ s'.Holds A (t + 1) := by
  -- Fewer columns than all are marked, so a row is left, and it has a pivot.
  obtain ⟨r, hr⟩ : ∃ r, r ∉ s.done := by
    by_contra hall
    have huniv : s.done = Finset.univ :=
      Finset.eq_univ_of_forall fun r => not_not.mp fun hr => hall ⟨r, hr⟩
    have hcount := h.count
    rw [huniv, Finset.card_univ, Fintype.card_fin] at hcount
    omega
  obtain ⟨c, hc, hrc⟩ := h.exchanged.exists_pivot (swapAllRows_surjective hA s.swaps) hr
  have hunmarked : ∀ j, j ∉ s.done → s.ipiv j = 0 := by
    intro j hj
    rw [Elim.mem_done] at hj
    exact (h.marked j).resolve_right hj
  obtain ⟨irow, icol, hfind, hpiv⟩ :=
    findPivot_spec col h.marked ⟨hunmarked r hr, hunmarked c hc, hrc⟩
  exact ⟨s.exchange irow icol, invertColumn_eq hfind hpiv, h.exchange hpiv⟩

theorem invertColumns_holds {k : Nat} {A : Matrix (Fin k) (Fin k) Gf}
    (hA : Function.Surjective A.mulVec) (cols : List (Fin k)) {t : Nat} {s : Elim k}
    (h : s.Holds A t) (ht : t + cols.length ≤ k) :
    ∃ s', cols.foldlM invertColumn s = some s' ∧ s'.Holds A (t + cols.length) := by
  induction cols generalizing t s with
  | nil => exact ⟨s, rfl, h⟩
  | cons col cols ih =>
    rw [List.length_cons] at ht
    obtain ⟨s1, hs1, h1⟩ := invertColumn_holds col hA h (by omega)
    obtain ⟨s2, hs2, h2⟩ := ih h1 (by omega)
    refine ⟨s2, ?_, ?_⟩
    · simp only [List.foldlM_cons, hs1, bind, Option.bind]
      exact hs2
    · rw [List.length_cons, ← Nat.add_assoc, Nat.add_right_comm]
      exact h2

/-- The swaps of the columns, which skip the places that do not move. -/
theorem undo_eq {k : Nat} (M : Matrix (Fin k) (Fin k) Gf) (ps : List (Fin k × Fin k)) :
    ps.foldr (fun p src => if p.1 ≠ p.2 then swapCols src p.1 p.2 else src) M =
      swapAllCols M ps := by
  have hskip : ∀ (p : Fin k × Fin k) (src : Matrix (Fin k) (Fin k) Gf),
      (if p.1 ≠ p.2 then swapCols src p.1 p.2 else src) = swapCols src p.1 p.2 := by
    intro p src
    split
    · rfl
    · rename_i he
      unfold swapCols
      rw [not_not.mp he, Equiv.swap_self]
      rfl
  simp only [hskip]
  rfl

theorem elim_holds {k : Nat} (A : Matrix (Fin k) (Fin k) Gf) :
    Elim.Holds A 0 ⟨A, fun _ => 0, []⟩ := by
  refine ⟨fun _ => .inl rfl, ?_, ?_⟩
  · simp [Elim.done]
  · have hnone : Elim.done (⟨A, fun _ => 0, []⟩ : Elim k) = ∅ := by simp [Elim.done]
    rw [hnone]
    exact exchanged_empty A

/-- With every column exchanged and the swaps undone, the matrix is the inverse. -/
theorem Elim.Holds.inverse {k : Nat} {A : Matrix (Fin k) (Fin k) Gf} {s : Elim k}
    (h : s.Holds A k) : swapAllCols s.src s.swaps * A = 1 := by
  have hall : s.done = Finset.univ := by
    apply Finset.eq_univ_of_card
    rw [h.count, Fintype.card_fin]
  have hex := h.exchanged
  rw [hall] at hex
  rw [swapAllCols_mul]
  exact hex.mul_eq_one

/-- The elimination of an invertible matrix succeeds, and gives its inverse. -/
theorem invertMat_spec {k : Nat} {A : Matrix (Fin k) (Fin k) Gf}
    (hA : Function.Surjective A.mulVec) : ∃ M, invertMat A = some M ∧ M * A = 1 := by
  obtain ⟨s, hs, h⟩ := invertColumns_holds hA (List.finRange k) (elim_holds A) (by simp)
  rw [List.length_finRange, Nat.zero_add] at h
  refine ⟨swapAllCols s.src s.swaps, ?_, h.inverse⟩
  unfold invertMat
  simp only [hs, bind, Option.bind, undo_eq]
  rfl

/-! ## The Vandermonde inverse -/

open vandermonde Lagrange

/-- The coefficients `c` are right after the first `i` points. -/
def CoeffsOf (k : Nat) (p : Nat → Gf) (i : Nat) (c : Nat → Gf) : Prop :=
  ∀ j < k, c j = (shifted k p i).coeff j

/-- One turn of the inner loop of `vdmPoint`. -/
def innerStep (a : Gf) (c : Nat → Gf) (j : Nat) : Nat → Gf :=
  Function.update c j (c j + gfMul a (c (j + 1)))

/-- A turn reads the place after its own, which no turn before it wrote. -/
theorem foldl_innerStep (a : Gf) (c : Nat → Gf) (start count j : Nat) :
    (List.range' start count).foldl (innerStep a) c j =
      if start ≤ j ∧ j < start + count then c j + a * c (j + 1) else c j := by
  have h := foldl_range'_rule (f := innerStep a) (s := c) (a := start) (n := count)
    (fun m d => ∀ j, d j = if start ≤ j ∧ j < m then c j + a * c (j + 1) else c j) ?_ ?_
  · exact h j
  · intro j
    rw [if_neg (by omega)]
  · intro m d hm _ hd j
    unfold innerStep
    by_cases hj : j = m
    · subst hj
      rw [Function.update_self, hd, hd, if_neg (by omega), if_neg (by omega), if_pos (by omega),
        gfMul_eq]
    · rw [Function.update_of_ne hj, hd]
      have hiff : (start ≤ j ∧ j < m) ↔ (start ≤ j ∧ j < m + 1) := by omega
      simp only [hiff]

theorem vdmPoint_coeffs {k i : Nat} {p c : Nat → Gf} (h0 : p 0 = 0) (hi : 1 ≤ i) (hik : i < k)
    (h : CoeffsOf k p i c) : CoeffsOf k p (i + 1) (vdmPoint k p c i) := by
  have hinner := foldl_innerStep (p i) c (k - 1 - (i - 1)) (i - 1)
  unfold innerStep at hinner
  intro j hj
  rw [coeff_shifted_succ p hik j, Gf.sub_eq, ← h j hj]
  simp only [vdmPoint]
  by_cases hlast : j = k - 1
  · subst hlast
    have htop : (shifted k p i).coeff (k - 1 + 1) = 1 := by
      rw [Nat.sub_add_cancel (by omega)]
      exact coeff_shifted_top p (Nat.le_of_lt hik)
    rw [htop, mul_one, Function.update_self, hinner, if_neg (by omega)]
  · rw [Function.update_of_ne hlast, hinner, ← h (j + 1) (by omega)]
    split
    · rfl
    · -- A place that the loop leaves out is zero, as its neighbour is.
      rw [h (j + 1) (by omega), coeff_shifted_low h0 hi (by omega), mul_zero, add_zero]

theorem vdmCoeffs_eq {k : Nat} {p : Nat → Gf} (h0 : p 0 = 0) (hk : 1 ≤ k) {j : Nat} (hj : j < k) :
    vdmCoeffs k p j = (nodal (Finset.range k) p).coeff j := by
  have hstart : CoeffsOf k p 1 (Function.update (fun _ => 0) (k - 1) (p 0)) := by
    intro j hj
    rw [h0, coeff_shifted_low h0 Nat.one_pos (by omega)]
    by_cases hlast : j = k - 1
    · rw [hlast, Function.update_self]
    · rw [Function.update_of_ne hlast]
  have h := foldl_range'_rule (f := vdmPoint k p) (n := k - 1) (CoeffsOf k p) hstart
    fun i c hi hlt hc => vdmPoint_coeffs h0 hi (by omega) hc
  rw [Nat.add_sub_cancel' hk] at h
  rw [← shifted_last]
  exact h j hj

/-- What one turn of the division keeps. -/
structure Divided (k : Nat) (p : Nat → Gf) (row i : Nat) (s : (Nat → Gf) × Gf) : Prop where
  b : ∀ j, i ≤ j → j < k → s.1 j = (quotient k p row).coeff j
  t : s.2 = horner (quotient k p row) k (p row) i

theorem divide_spec {k : Nat} {p c : Nat → Gf} {row : Nat} (hrow : row < k)
    (hc : ∀ j < k, c j = (nodal (Finset.range k) p).coeff j) :
    Divided k p row 0 (divide k c (p row)) := by
  apply foldr_range_rule (Divided k p row)
  · constructor
    · intro j hj hjk
      have hlast : j = k - 1 := by omega
      simp only [hlast, Function.update_self, coeff_quotient_last p hrow]
    · rw [horner_last (p row) (by omega), coeff_quotient_last p hrow]
  · intro i s hi h
    have hb : c (i + 1) + p row * s.1 (i + 1) = (quotient k p row).coeff i := by
      rw [hc (i + 1) (by omega), h.b (i + 1) (Nat.le_refl _) (by omega),
        ← coeff_quotient p hrow i]
    constructor
    · intro j hj hjk
      by_cases hji : j = i
      · simp only [divideStep, hji, Function.update_self, gfMul_eq, hb]
      · simp only [divideStep, Function.update_of_ne hji]
        exact h.b j (by omega) hjk
    · simp only [divideStep, Function.update_self, gfMul_eq, hb, h.t]
      exact (horner_step (p row) (by omega)).symm

theorem invertVdm_eq {src : Nat → Nat → Gf} {k : Nat} (hk : 2 ≤ k) (h0 : src 0 1 = 0)
    (col row : Fin k) :
    invertVdm src k col row = inverse k (fun i => src i 1) col row := by
  have hdiv := divide_spec (p := fun i => src i 1) row.isLt
    fun j hj => vdmCoeffs_eq h0 (by omega) hj
  have hdeg : (quotient k (fun i => src i 1) row).natDegree < k := by
    rw [natDegree_quotient _ row.isLt]
    omega
  unfold invertVdm
  rw [if_neg (by omega)]
  simp only [col.isLt, row.isLt, and_self, if_true]
  rw [gfMul_eq, inverse_eq, hdiv.b col (Nat.zero_le _) col.isLt, hdiv.t, horner_zero _ hdeg]
  rfl

end wspace_client.fec

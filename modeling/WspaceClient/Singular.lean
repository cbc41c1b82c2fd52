-- When the decoder gives up: `invert_mat` fails on singular matrices and on no
-- others, so `fec_decode` fails when an index is repeated or past the code, and
-- never besides.
import WspaceClient.Erasure
import Mathlib.LinearAlgebra.Matrix.NonsingularInverse

namespace wspace_client.fec

open Matrix gauss_jordan

/-! ## What `invert_mat` gives is an inverse -/

/-- The search stops at a place that can be a pivot, or nowhere. -/
theorem findPivot_pivot {k : Nat} {s : Elim k} {col irow icol : Fin k} (hm : s.Marked)
    (h : findPivot s col = some (irow, icol)) : s.Pivot irow icol := by
  unfold findPivot at h
  split at h
  · rename_i hdiag
    cases h
    have hcol := (hm col).resolve_right hdiag.1
    exact ⟨hcol, hcol, hdiag.2⟩
  · obtain ⟨row, -, hrow⟩ := List.exists_of_findSome?_eq_some (Option.join_eq_some_iff.mp h)
    split at hrow
    · rename_i hne
      obtain ⟨ix, -, hix⟩ := List.exists_of_findSome?_eq_some hrow
      obtain ⟨heq, hpiv⟩ := pivot_of_probe hm hne hix
      cases heq
      exact hpiv
    · cases hrow

theorem invertColumn_some {k : Nat} {A : Matrix (Fin k) (Fin k) Gf} {t : Nat} {s s' : Elim k}
    {col : Fin k} (h : s.Holds A t) (hs : invertColumn s col = some s') : s'.Holds A (t + 1) := by
  have hfound := hs
  unfold invertColumn at hfound
  obtain ⟨⟨irow, icol⟩, hfind, -⟩ := Option.bind_eq_some_iff.mp hfound
  have hp := findPivot_pivot h.marked hfind
  rw [invertColumn_eq hfind hp] at hs
  cases hs
  exact h.exchange hp

theorem invertColumns_some {k : Nat} {A : Matrix (Fin k) (Fin k) Gf} {cols : List (Fin k)}
    {t : Nat} {s s' : Elim k} (h : s.Holds A t) (hs : cols.foldlM invertColumn s = some s') :
    s'.Holds A (t + cols.length) := by
  induction cols generalizing t s with
  | nil =>
    cases hs
    exact h
  | cons col cols ih =>
    rw [List.foldlM_cons] at hs
    obtain ⟨s1, h1, hs⟩ := Option.bind_eq_some_iff.mp hs
    have hend := ih (invertColumn_some h h1) hs
    rwa [Nat.add_assoc, Nat.add_comm 1] at hend

/-- Whatever the matrix is, a result is its inverse. -/
theorem invertMat_some {k : Nat} {A M : Matrix (Fin k) (Fin k) Gf} (h : invertMat A = some M) :
    M * A = 1 := by
  obtain ⟨s, hs, h⟩ := Option.bind_eq_some_iff.mp h
  cases h
  have hholds := invertColumns_some (elim_holds A) hs
  rw [List.length_finRange, Nat.zero_add] at hholds
  rw [undo_eq]
  exact hholds.inverse

/-- A matrix with two equal rows has no inverse. -/
theorem rows_ne_of_invertMat {k : Nat} {A M : Matrix (Fin k) (Fin k) Gf}
    (h : invertMat A = some M) {a b : Fin k} (hne : a ≠ b) : A a ≠ A b := by
  intro hrows
  have hone := congrArg det (invertMat_some h)
  rw [det_mul, det_zero_of_row_eq hne hrows, mul_zero, det_one] at hone
  exact zero_ne_one hone

/-- The elimination fails on the singular matrices, and else gives the inverse. -/
theorem invert_mat_is_exact {k : Nat} (A : Matrix (Fin k) (Fin k) Gf) :
    (invertMat A = none ↔ A.det = 0) ∧ ∀ M, invertMat A = some M → M = A⁻¹ ∧ A * M = 1 := by
  refine ⟨⟨fun hnone => ?_, fun hdet => ?_⟩, fun M hM => ?_⟩
  · -- A matrix with an inverse is solved for every right side, so the search finds pivots.
    by_contra hdet
    have hunit : IsUnit A.det := isUnit_iff_ne_zero.mpr hdet
    have hsurj : Function.Surjective A.mulVec := fun y =>
      ⟨A⁻¹.mulVec y, by rw [mulVec_mulVec, mul_nonsing_inv A hunit, one_mulVec]⟩
    obtain ⟨M, hM, -⟩ := invertMat_spec hsurj
    rw [hnone] at hM
    cases hM
  · by_contra hsome
    obtain ⟨M, hM⟩ := Option.ne_none_iff_exists'.mp hsome
    have hone := congrArg det (invertMat_some hM)
    rw [det_mul, hdet, mul_zero, det_one] at hone
    exact zero_ne_one hone
  · have hone := invertMat_some hM
    exact ⟨(inv_eq_left_inv hone).symm, mul_eq_one_comm.mp hone⟩

/-! ## What the shuffle leaves -/

/-- A shuffle that succeeds permutes the first `k` indices, and each index below `k`
stands in its own place. -/
theorem shuffle_perm {α : Type} {pkt pkt' : Nat → α} {index index' : Nat → Nat} {k i : Nat}
    (hi : i ≤ k) (hset : Settled index k i)
    (h : shuffle pkt index k i = (false, pkt', index')) :
    Settled index' k k ∧ ∃ σ : Equiv.Perm Nat, (∀ j, σ j < k ↔ j < k) ∧ index' = index ∘ σ := by
  induction pkt, index, i using shuffle.induct k with
  | case1 pkt index i hik hskip ih =>
    rw [shuffle, if_pos hik, dif_pos hskip] at h
    refine ih (by omega) (fun j hj => ?_) h
    by_cases hji : j = i
    · rw [hji]
      exact hskip
    · exact hset j (by omega)
  | case2 pkt index i hik hskip hconflict =>
    rw [shuffle, if_pos hik, dif_neg hskip, dif_pos hconflict] at h
    cases h
  | case3 pkt index i hik hskip hconflict ih =>
    obtain ⟨hk, hne⟩ := not_or.mp hskip
    have hc : index i < k := Nat.lt_of_not_le hk
    rw [shuffle, if_pos hik, dif_neg hskip, dif_neg hconflict] at h
    obtain ⟨hset', σ, hσ, rfl⟩ := ih hi (fun j hj => by
      by_cases hjc : j = index i
      · right
        rw [hjc, swap_right]
      · rw [swap_of_ne index (by omega) hjc]
        exact hset j hj) h
    refine ⟨hset', Equiv.swap i (index i) * σ, fun j => ⟨fun hj => ?_, fun hj => ?_⟩, rfl⟩
    · have hback := swap_lt hik hc hj
      rw [Equiv.Perm.mul_apply, Equiv.swap_apply_self] at hback
      exact (hσ j).mp hback
    · exact swap_lt hik hc ((hσ j).mpr hj)
  | case4 pkt index i hik =>
    rw [shuffle, if_neg hik] at h
    cases h
    have hik' : i = k := by omega
    rw [hik'] at hset
    exact ⟨hset, 1, fun _ => Iff.rfl, rfl⟩

/-- The decoder has no matrix for indices with a repetition or past the code. -/
theorem buildDecodeMatrix_some {code : FecParms} {index : Nat → Nat}
    {M : Matrix (Fin code.k) (Fin code.k) Gf} (hkn : code.k ≤ code.n)
    (hset : Settled index code.k code.k) (h : buildDecodeMatrix code index = some M) :
    (∀ j < code.k, index j < code.n) ∧ Set.InjOn index (Finset.range code.k) := by
  unfold buildDecodeMatrix at h
  split at h
  · rename_i hin
    refine ⟨fun j hj => (hin ⟨j, hj⟩).elim (fun hlt => by dsimp only at hlt; omega) id,
      fun a ha b hb hab => ?_⟩
    have ha := Finset.mem_range.mp ha
    have hb := Finset.mem_range.mp hb
    by_contra hne
    by_cases hlow : index a < code.k
    · -- Two indices below `k` stand in one place.
      have haa : index a = a := (hset a ha).resolve_left (by omega)
      have hbb : index b = b := (hset b hb).resolve_left (by omega)
      omega
    · -- Two rows of the matrix are the same.
      refine rows_ne_of_invertMat h (a := ⟨a, ha⟩) (b := ⟨b, hb⟩)
        (fun he => hne (Fin.ext_iff.mp he)) (funext fun j => ?_)
      dsimp only
      rw [if_neg hlow, if_neg (by omega), hab]
  · cases h

/-- The decoder gives up exactly when an index is repeated or past the code. -/
theorem fec_decode_gives_up_iff {code : FecParms} {k n : Nat} (hk : 1 ≤ k)
    (hcode : fecNew k n = some code) (pkt : Nat → Nat → Gf) (index : Nat → Nat) (sz : Nat) :
    (fecDecode code pkt index sz).1 = true ↔
      ¬(Set.InjOn index (Finset.range k) ∧ ∀ j < k, index j < n) := by
  have hsizes : k ≤ n ∧ n ≤ GF_SIZE + 1 := by
    by_contra hno
    unfold fecNew at hcode
    rw [if_pos (by omega)] at hcode
    cases hcode
  obtain ⟨code', hnew, hmade⟩ := fecNew_made hk hsizes.1 hsizes.2
  rw [hcode] at hnew
  cases hnew
  have hck := hmade.eq_k
  have hcn := hmade.eq_n
  subst hck
  subst hcn
  refine ⟨?_, ?_⟩
  · rintro hflag ⟨hinj, hlt⟩
    obtain ⟨pkt', index', hshuffle, hinj', hset, hlt'⟩ := shuffle_spec (fun q _ => q < code.n) pkt
      index code.k 0 (Nat.zero_le _) hinj (fun j hj => absurd hj (Nat.not_lt_zero j)) hlt
    obtain ⟨M, hM, -⟩ := buildDecodeMatrix_spec hmade hk hsizes.1 hsizes.2 hlt' hinj' hset
    unfold fecDecode at hflag
    rw [hshuffle] at hflag
    simp only [hM] at hflag
    cases hflag
  · intro hno
    by_contra hflag
    refine hno ?_
    unfold fecDecode at hflag
    split at hflag
    · exact absurd rfl hflag
    · rename_i pkt' index' hshuffle
      split at hflag
      · exact absurd rfl hflag
      · rename_i M hM
        obtain ⟨hset, σ, hσ, rfl⟩ := shuffle_perm (Nat.zero_le _)
          (fun j hj => absurd hj (Nat.not_lt_zero j)) hshuffle
        obtain ⟨hlt, hinj⟩ := buildDecodeMatrix_some hsizes.1 hset hM
        have hback : ∀ j < code.k, σ.symm j < code.k := fun j hj => by
          rw [← hσ, Equiv.apply_symm_apply]
          exact hj
        have hindex : ∀ j, (index ∘ σ) (σ.symm j) = index j := fun j =>
          congrArg index (σ.apply_symm_apply j)
        refine ⟨fun a ha b hb hab => ?_, fun j hj => ?_⟩
        · have ha := hback a (Finset.mem_range.mp ha)
          have hb := hback b (Finset.mem_range.mp hb)
          rw [← hindex a, ← hindex b] at hab
          exact σ.symm.injective
            (hinj (Finset.mem_range.mpr ha) (Finset.mem_range.mpr hb) hab)
        · rw [← hindex j]
          exact hlt _ (hback j hj)

/-- Two of three coded packets decode, and one of them twice does not. -/
theorem a_repeated_index_is_refused : ∃ code, fecNew 2 3 = some code ∧
    ∀ pkt sz, (fecDecode code pkt (fun j => j + 1) sz).1 = false ∧
      (fecDecode code pkt (fun _ => 2) sz).1 = true := by
  obtain ⟨code, hcode, -⟩ := fecNew_made (k := 2) (n := 3) (by decide) (by decide) (by decide)
  refine ⟨code, hcode, fun pkt sz => ⟨?_, ?_⟩⟩
  · rw [← Bool.not_eq_true, fec_decode_gives_up_iff (by decide) hcode, not_not]
    exact ⟨fun a _ b _ hab => Nat.add_right_cancel hab, by decide⟩
  · rw [fec_decode_gives_up_iff (by decide) hcode]
    rintro ⟨hinj, -⟩
    have h01 : 0 = 1 := hinj (Finset.mem_coe.mpr (by decide)) (Finset.mem_coe.mpr (by decide)) rfl
    exact absurd h01 (by decide)

end wspace_client.fec

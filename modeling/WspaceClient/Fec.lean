-- `fec.cc`: the encoding matrix, the encoder and the decoder of the erasure
-- code. Any `k` of the `n` coded packets give the `k` packets back.
import WspaceClient.Gf
import WspaceClient.GaussJordan
import WspaceClient.Vandermonde

namespace wspace_client.fec

open gauss_jordan

/-- `dst[] = dst[] + c * src[]` on whole vectors. -/
def addmul {ι : Type} (dst src : ι → Gf) (c : Gf) : ι → Gf :=
  if c ≠ 0 then fun i => dst i + gfMul c (src i) else dst

def matmul (a b : Nat → Nat → Gf) (k : Nat) : Nat → Nat → Gf := fun row col =>
  (List.range k).foldl (fun acc i => acc + gfMul (a row i) (b i col)) 0

/-! ## `invert_mat` -/

/-- The matrix in elimination. `swaps` holds `indxr` and `indxc`, a pair for each column done. -/
structure Elim (k : Nat) where
  src : Matrix (Fin k) (Fin k) Gf
  ipiv : Fin k → Nat
  swaps : List (Fin k × Fin k)

/-- One place of the search for a pivot: a pivot, a singular matrix, or neither. -/
def probe {k : Nat} (s : Elim k) (row ix : Fin k) : Option (Option (Fin k × Fin k)) :=
  if s.ipiv ix = 0 then
    if s.src row ix ≠ 0 then some (some (row, ix)) else none
  else if s.ipiv ix > 1 then some none
  else none

/-- `irow` and `icol`: on the diagonal if possible, else the first place that serves. -/
def findPivot {k : Nat} (s : Elim k) (col : Fin k) : Option (Fin k × Fin k) :=
  if s.ipiv col ≠ 1 ∧ s.src col col ≠ 0 then some (col, col)
  else ((List.finRange k).findSome? fun row =>
    if s.ipiv row ≠ 1 then (List.finRange k).findSome? (probe s row) else none).join

/-- Scales the row of the pivot, and clears the column of the pivot in all others. -/
def eliminate {k : Nat} (src : Matrix (Fin k) (Fin k) Gf) (icol : Fin k) :
    Matrix (Fin k) (Fin k) Gf :=
  let c := src icol icol
  let pivot_row := if c ≠ 1 then
      fun ix => gfMul (generateGf.inverse c) (Function.update (src icol) icol 1 ix)
    else src icol
  let id_row := Pi.single icol 1
  fun ix =>
    if ix = icol then pivot_row
    else if pivot_row ≠ id_row then
      addmul (Function.update (src ix) icol 0) pivot_row (src ix icol)
    else src ix

/-- One turn of the loop over the columns. -/
def invertColumn {k : Nat} (s : Elim k) (col : Fin k) : Option (Elim k) := do
  let (irow, icol) ← findPivot s col
  let src := if irow ≠ icol then swapRows s.src irow icol else s.src
  if src icol icol = 0 then none
  else some {
    src := eliminate src icol
    ipiv := Function.update s.ipiv icol (s.ipiv icol + 1)
    swaps := s.swaps ++ [(irow, icol)] }

/-- The inverse, or nothing when the matrix is singular. -/
def invertMat {k : Nat} (src : Matrix (Fin k) (Fin k) Gf) : Option (Matrix (Fin k) (Fin k) Gf) := do
  let s ← (List.finRange k).foldlM invertColumn ⟨src, fun _ => 0, []⟩
  return s.swaps.foldr (fun p src => if p.1 ≠ p.2 then swapCols src p.1 p.2 else src) s.src

/-! ## `invert_vdm` -/

/-- One more point in the coefficients `c` of the polynomial. -/
def vdmPoint (k : Nat) (p : Nat → Gf) (c : Nat → Gf) (i : Nat) : Nat → Gf :=
  let c := (List.range' (k - 1 - (i - 1)) (i - 1)).foldl
    (fun c j => Function.update c j (c j + gfMul (p i) (c (j + 1)))) c
  Function.update c (k - 1) (c (k - 1) + p i)

def vdmCoeffs (k : Nat) (p : Nat → Gf) : Nat → Gf :=
  (List.range' 1 (k - 1)).foldl (vdmPoint k p) (Function.update (fun _ => 0) (k - 1) (p 0))

/-- One turn of the synthetic division: the next coefficient `b[i]`, and the value `t`. -/
def divideStep (c : Nat → Gf) (xx : Gf) (i : Nat) (s : (Nat → Gf) × Gf) : (Nat → Gf) × Gf :=
  let b := Function.update s.1 i (c (i + 1) + gfMul xx (s.1 (i + 1)))
  (b, gfMul xx s.2 + b i)

def divide (k : Nat) (c : Nat → Gf) (xx : Gf) : (Nat → Gf) × Gf :=
  (List.range (k - 1)).foldr (divideStep c xx) (Function.update (fun _ => 0) (k - 1) 1, 1)

/-- The first `k` rows become the inverse. Only their second column is read. -/
def invertVdm (src : Nat → Nat → Gf) (k : Nat) : Nat → Nat → Gf :=
  if k = 1 then src
  else
    let p := fun i => src i 1
    let c := vdmCoeffs k p
    fun col row =>
      if col < k ∧ row < k then
        let (b, t) := divide k c (p row)
        gfMul (generateGf.inverse t) (b col)
      else src col row

/-! ## The code -/

structure FecParms where
  k : Nat
  n : Nat
  enc_matrix : Nat → Nat → Gf

/-- Powers of the field elements, starting from 0. -/
def powerMatrix (row col : Nat) : Gf :=
  match row with
  | 0 => if col = 0 then 1 else 0
  | row + 1 => generateGf.gf_exp (modnn (row * col))

def fecNew (k n : Nat) : Option FecParms :=
  if k > GF_SIZE + 1 ∨ n > GF_SIZE + 1 ∨ k > n then none
  else
    let tmp_m := invertVdm powerMatrix k
    let bottom := matmul (fun row => tmp_m (row + k)) tmp_m k
    some {
      k, n
      enc_matrix := fun row col =>
        if row < k then if row = col then 1 else 0 else bottom (row - k) col }

/-- The first `sz` elements of a buffer, over those of an old one. -/
def bcopy (src dst : Nat → Gf) (sz : Nat) : Nat → Gf := fun i => if i < sz then src i else dst i

def fecEncode (code : FecParms) (src : Nat → Nat → Gf) (fec : Nat → Gf) (index sz : Nat) :
    Nat → Gf :=
  if index < code.k then bcopy (src index) fec sz
  else if index < code.n then
    bcopy ((List.range code.k).foldl (fun fec i => addmul fec (src i) (code.enc_matrix index i))
      fun _ => 0) fec sz
  else fec

/-- `SWAP` of two places of an array. -/
def swap {α : Type} (arr : Nat → α) (i c : Nat) : Nat → α := fun j => arr (Equiv.swap i c j)

/-- The places of the first `k` that do not hold their own index. -/
def misplaced (index : Nat → Nat) (k : Nat) : Finset Nat :=
  (Finset.range k).filter fun j => index j ≠ j

theorem mem_misplaced {index : Nat → Nat} {k j : Nat} :
    j ∈ misplaced index k ↔ j < k ∧ index j ≠ j := by
  simp [misplaced]

@[simp] theorem swap_left {α : Type} (arr : Nat → α) (i c : Nat) : swap arr i c i = arr c := by
  simp [swap]

@[simp] theorem swap_right {α : Type} (arr : Nat → α) (i c : Nat) : swap arr i c c = arr i := by
  simp [swap]

theorem swap_of_ne {α : Type} (arr : Nat → α) {i c j : Nat} (hi : j ≠ i) (hc : j ≠ c) :
    swap arr i c j = arr j := by
  unfold swap
  rw [Equiv.swap_apply_of_ne_of_ne hi hc]

/-- Each swap puts one index in its place for good. -/
theorem misplaced_swap {index : Nat → Nat} {k i : Nat} (hc : index i < k) (hi : index i ≠ i)
    (hcc : index (index i) ≠ index i) :
    (misplaced (swap index i (index i)) k).card < (misplaced index k).card := by
  apply Finset.card_lt_card
  rw [Finset.ssubset_iff_of_subset]
  · refine ⟨index i, mem_misplaced.mpr ⟨hc, hcc⟩, ?_⟩
    simp [mem_misplaced]
  · intro j hj
    rw [mem_misplaced] at hj ⊢
    refine ⟨hj.1, ?_⟩
    by_cases hji : j = i
    · subst hji
      exact hi
    · by_cases hjc : j = index i
      · rw [hjc]
        exact hcc
      · have hne := hj.2
        rwa [swap_of_ne index hji hjc] at hne

/-- Moves packets to their position, from place `i` on. The first result is the error. -/
def shuffle {α : Type} (pkt : Nat → α) (index : Nat → Nat) (k i : Nat) :
    Bool × (Nat → α) × (Nat → Nat) :=
  if i < k then
    if _ : k ≤ index i ∨ index i = i then shuffle pkt index k (i + 1)
    else if _ : index (index i) = index i then (true, pkt, index)
    else shuffle (swap pkt i (index i)) (swap index i (index i)) k i
  else (false, pkt, index)
termination_by (misplaced index k).card + (k - i)
decreasing_by
  · omega
  · rename_i h hc
    obtain ⟨hk, hi⟩ := not_or.mp h
    have := misplaced_swap (Nat.lt_of_not_le hk) hi hc
    omega

def buildDecodeMatrix (code : FecParms) (index : Nat → Nat) :
    Option (Matrix (Fin code.k) (Fin code.k) Gf) :=
  if ∀ i : Fin code.k, index i < code.k ∨ index i < code.n then
    invertMat fun i j =>
      if index i < code.k then if j = i then 1 else 0 else code.enc_matrix (index i) j
  else none

/-- The actual decoding: the lost packets replace the coded ones. -/
def decodePkts (code : FecParms) (m_dec : Matrix (Fin code.k) (Fin code.k) Gf)
    (pkt : Nat → Nat → Gf) (index : Nat → Nat) (sz : Nat) : Nat → Nat → Gf :=
  let new_pkt : Fin code.k → Nat → Gf := fun row =>
    (List.finRange code.k).foldl
      (fun new (col : Fin code.k) => addmul new (pkt col) (m_dec row col))
      fun _ => 0
  fun row =>
    if h : row < code.k then
      if index row ≥ code.k then bcopy (new_pkt ⟨row, h⟩) (pkt row) sz else pkt row
    else pkt row

/-- The packets come back in `pkt`. The first result is the error. -/
def fecDecode (code : FecParms) (pkt : Nat → Nat → Gf) (index : Nat → Nat) (sz : Nat) :
    Bool × (Nat → Nat → Gf) × (Nat → Nat) :=
  match shuffle pkt index code.k 0 with
  | (true, pkt, index) => (true, pkt, index)
  | (false, pkt, index) =>
    match buildDecodeMatrix code index with
    | none => (true, pkt, index)
    | some m_dec => (false, decodePkts code m_dec pkt index sz, index)

end wspace_client.fec

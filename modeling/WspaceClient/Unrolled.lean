-- The loops of `fec.cc` as they are written: the multiplication table, the
-- unrolled `addmul1` with its limit before the end, and the encoder and the decoder
-- that run it in place. They agree with the plain sums, for every length.
import WspaceClient.Erasure

namespace wspace_client.fec

/-! ## `init_mul_table` -/

/-- `gf_mul_table[i][j] = v`. -/
def setTable (t : Gf → Gf → Gf) (i j : Nat) (v : Gf) : Gf → Gf → Gf :=
  Function.update t (.ofNat i) (Function.update (t (.ofNat i)) (.ofNat j) v)

/-- A row of the table. The row and the column of zero get what the logarithm of zero gives. -/
def fillRow (t : Gf → Gf → Gf) (i : Nat) : Gf → Gf → Gf :=
  (List.range (GF_SIZE + 1)).foldl (fun t j => setTable t i j
    (generateGf.gf_exp (modnn (generateGf.gf_log (.ofNat i) + generateGf.gf_log (.ofNat j))))) t

def zeroEntries (t : Gf → Gf → Gf) (j : Nat) : Gf → Gf → Gf := setTable (setTable t j 0 0) 0 j 0

/-- The table, over what stood in its memory. -/
def initMulTable (t : Gf → Gf → Gf) : Gf → Gf → Gf :=
  (List.range (GF_SIZE + 1)).foldl zeroEntries ((List.range (GF_SIZE + 1)).foldl fillRow t)

theorem setTable_cases (t : Gf → Gf → Gf) (i j : Nat) (v x y : Gf) :
    setTable t i j v x y = if x = .ofNat i ∧ y = .ofNat j then v else t x y := by
  unfold setTable
  by_cases hx : x = .ofNat i
  · subst hx
    rw [Function.update_self]
    by_cases hy : y = .ofNat j
    · subst hy
      rw [Function.update_self, if_pos ⟨rfl, rfl⟩]
    · rw [Function.update_of_ne hy, if_neg fun h => hy h.2]
  · rw [Function.update_of_ne hx, if_neg fun h => hx h.1]

/-- Every element is the number of a place. -/
theorem Gf.exists_ofNat (x : Gf) : ∃ i < GF_SIZE + 1, x = .ofNat i :=
  ⟨BitVec.toNat x, BitVec.isLt x, (BitVec.ofNat_toNat 8 x).symm.trans rfl⟩

/-- What the first loop stores. -/
def rawProduct (x y : Gf) : Gf :=
  generateGf.gf_exp (modnn (generateGf.gf_log x + generateGf.gf_log y))

theorem fillRow_spec (t : Gf → Gf → Gf) (i : Nat) :
    (∀ y, fillRow t i (.ofNat i) y = rawProduct (.ofNat i) y) ∧
      ∀ x, x ≠ .ofNat i → fillRow t i x = t x := by
  have h : (∀ j < GF_SIZE + 1, fillRow t i (.ofNat i) (.ofNat j) =
      rawProduct (.ofNat i) (.ofNat j)) ∧ ∀ x, x ≠ .ofNat i → fillRow t i x = t x := by
    refine foldl_range_rule (fun n (u : Gf → Gf → Gf) => (∀ j < n, u (.ofNat i) (.ofNat j) =
      rawProduct (.ofNat i) (.ofNat j)) ∧ ∀ x, x ≠ .ofNat i → u x = t x)
      ⟨nofun, fun _ _ => rfl⟩ ?_
    intro n u _ ⟨hrow, hne⟩
    refine ⟨fun j hj => ?_, fun x hx => ?_⟩
    · rw [setTable_cases]
      split
      · rename_i heq
        rw [heq.2]
        rfl
      · rename_i hne
        refine hrow j ?_
        by_contra hlt
        obtain rfl : j = n := by omega
        exact hne ⟨rfl, rfl⟩
    · funext y
      rw [setTable_cases, if_neg fun h => hx h.1, hne x hx]
  refine ⟨fun y => ?_, h.2⟩
  obtain ⟨j, hj, rfl⟩ := y.exists_ofNat
  exact h.1 j hj

theorem fillRows_spec (t : Gf → Gf → Gf) (x y : Gf) :
    (List.range (GF_SIZE + 1)).foldl fillRow t x y = rawProduct x y := by
  obtain ⟨i, hi, rfl⟩ := x.exists_ofNat
  have h : ∀ i < GF_SIZE + 1, ∀ y, (List.range (GF_SIZE + 1)).foldl fillRow t (.ofNat i) y =
      rawProduct (.ofNat i) y := by
    refine foldl_range_rule (fun n (u : Gf → Gf → Gf) => ∀ i < n, ∀ y, u (.ofNat i) y =
      rawProduct (.ofNat i) y) nofun ?_
    intro n u _ hu i hi y
    by_cases hin : Gf.ofNat i = Gf.ofNat n
    · rw [hin]
      exact (fillRow_spec u n).1 y
    · rw [(fillRow_spec u n).2 _ hin]
      refine hu i ?_ y
      by_contra hlt
      exact hin (congrArg Gf.ofNat (by omega))
  exact h i hi y

/-- The second loop clears the row and the column of zero, and nothing else. -/
theorem zeroEntries_spec (t : Gf → Gf → Gf) (x y : Gf) :
    (List.range (GF_SIZE + 1)).foldl zeroEntries t x y = if x = 0 ∨ y = 0 then 0 else t x y := by
  have h : (∀ j < GF_SIZE + 1, (List.range (GF_SIZE + 1)).foldl zeroEntries t 0 (.ofNat j) = 0 ∧
      (List.range (GF_SIZE + 1)).foldl zeroEntries t (.ofNat j) 0 = 0) ∧
      ∀ x y, x ≠ 0 → y ≠ 0 → (List.range (GF_SIZE + 1)).foldl zeroEntries t x y = t x y := by
    refine foldl_range_rule (fun n (u : Gf → Gf → Gf) => (∀ j < n, u 0 (.ofNat j) = 0 ∧
      u (.ofNat j) 0 = 0) ∧ ∀ x y, x ≠ 0 → y ≠ 0 → u x y = t x y) ⟨nofun, fun _ _ _ _ => rfl⟩ ?_
    have hzero : Gf.ofNat 0 = 0 := rfl
    intro n u _ ⟨hz, hne⟩
    refine ⟨fun j hj => ?_, fun x y hx hy => ?_⟩
    · by_cases hjn : Gf.ofNat j = Gf.ofNat n
      · unfold zeroEntries
        simp [setTable_cases, hzero, hjn]
      · have hold := hz j (by
          by_contra hlt
          exact hjn (congrArg Gf.ofNat (by omega)))
        unfold zeroEntries
        simp only [setTable_cases, hzero]
        refine ⟨?_, ?_⟩
        · split
          · rfl
          · split
            · rfl
            · exact hold.1
        · split
          · rfl
          · split
            · rfl
            · exact hold.2
    · unfold zeroEntries
      rw [setTable_cases, if_neg fun h => hx (h.1.trans hzero), setTable_cases,
        if_neg fun h => hy (h.2.trans hzero)]
      exact hne x y hx hy
  by_cases hx : x = 0
  · obtain ⟨j, hj, rfl⟩ := y.exists_ofNat
    rw [if_pos (.inl hx), hx]
    exact (h.1 j hj).1
  · by_cases hy : y = 0
    · obtain ⟨j, hj, rfl⟩ := x.exists_ofNat
      rw [if_pos (.inr hy), hy]
      exact (h.1 j hj).2
    · rw [if_neg (by simp [hx, hy])]
      exact h.2 x y hx hy

/-- The table holds the products of the field, whatever stood in its memory. -/
theorem initMulTable_eq (t : Gf → Gf → Gf) (x y : Gf) : initMulTable t x y = gfMul x y := by
  unfold initMulTable gfMul
  rw [zeroEntries_spec, fillRows_spec]
  rfl

/-! ## `addmul1` -/

/-- `GF_ADDMULC(dst[i], src[i])`, with the row of the factor in the table. -/
def addmulc (row : Gf → Gf) (src : Nat → Gf) (dst : Nat → Gf) (i : Nat) : Nat → Gf :=
  Function.update dst i (dst i + row (src i))

def UNROLL : Nat := 16

/-- The unrolled loop, from `pos` on. The limit may lie before the array. -/
def addmulGroups (row : Gf → Gf) (src : Nat → Gf) (lim : Int) (pos : Nat) (dst : Nat → Gf) :
    (Nat → Gf) × Nat :=
  if (pos : Int) < lim then
    addmulGroups row src lim (pos + UNROLL) ((List.range' pos UNROLL).foldl (addmulc row src) dst)
  else (dst, pos)
termination_by (lim - pos).toNat
decreasing_by
  unfold UNROLL
  omega

/-- The final components. -/
def addmulRest (row : Gf → Gf) (src : Nat → Gf) (lim : Int) (pos : Nat) (dst : Nat → Gf) :
    Nat → Gf :=
  if (pos : Int) < lim then addmulRest row src lim (pos + 1) (addmulc row src dst pos) else dst
termination_by (lim - pos).toNat

def addmul1 (dst src : Nat → Gf) (row : Gf → Gf) (sz : Nat) : Nat → Gf :=
  let lim : Int := sz - UNROLL + 1
  let (dst, pos) := addmulGroups row src lim 0 dst
  addmulRest row src (lim + UNROLL - 1) pos dst

/-- The elements before `pos` got their product, and the others are as they were. -/
def Added (row : Gf → Gf) (src dst0 : Nat → Gf) (pos : Nat) (dst : Nat → Gf) : Prop :=
  ∀ t, dst t = if t < pos then dst0 t + row (src t) else dst0 t

theorem Added.next {row : Gf → Gf} {src dst0 dst : Nat → Gf} {pos : Nat}
    (h : Added row src dst0 pos dst) : Added row src dst0 (pos + 1) (addmulc row src dst pos) := by
  intro t
  unfold addmulc
  by_cases ht : t = pos
  · rw [ht, Function.update_self, h pos, if_neg (Nat.lt_irrefl pos), if_pos (Nat.lt_succ_self pos)]
  · rw [Function.update_of_ne ht, h t]
    exact if_congr (by omega) rfl rfl

theorem Added.group {row : Gf → Gf} {src dst0 dst : Nat → Gf} {pos : Nat}
    (h : Added row src dst0 pos dst) (n : Nat) :
    Added row src dst0 (pos + n) ((List.range' pos n).foldl (addmulc row src) dst) := by
  induction n generalizing pos dst with
  | zero => exact h
  | succ n ih =>
    have hrest := ih h.next
    rwa [Nat.add_assoc, Nat.add_comm 1] at hrest

/-- The unrolled loop stops with less than a group left, and never past the end. -/
theorem addmulGroups_spec {row : Gf → Gf} {src dst0 dst : Nat → Gf} {sz pos : Nat}
    (hpos : pos ≤ sz) (h : Added row src dst0 pos dst) :
    ∃ dst' pos', addmulGroups row src (sz - UNROLL + 1) pos dst = (dst', pos') ∧ pos' ≤ sz ∧
      Added row src dst0 pos' dst' := by
  induction hn : sz - pos using Nat.strong_induction_on generalizing pos dst with
  | _ n ih =>
    rw [addmulGroups]
    by_cases hlt : (pos : Int) < sz - UNROLL + 1
    · rw [if_pos hlt]
      unfold UNROLL at hlt ih ⊢
      exact ih (sz - (pos + 16)) (by omega) (by omega) (h.group 16) rfl
    · rw [if_neg hlt]
      exact ⟨dst, pos, rfl, hpos, h⟩

theorem addmulRest_spec {row : Gf → Gf} {src dst0 dst : Nat → Gf} {sz pos : Nat}
    (hpos : pos ≤ sz) (h : Added row src dst0 pos dst) :
    Added row src dst0 sz (addmulRest row src sz pos dst) := by
  induction hn : sz - pos generalizing pos dst with
  | zero =>
    obtain rfl : pos = sz := by omega
    rw [addmulRest, if_neg (by omega)]
    exact h
  | succ n ih =>
    rw [addmulRest, if_pos (by omega)]
    exact ih (by omega) h.next (by omega)

/-- Every element below the length gets its product once, and no other is touched. -/
theorem addmul1_added (dst src : Nat → Gf) (row : Gf → Gf) (sz : Nat) :
    Added row src dst sz (addmul1 dst src row sz) := by
  obtain ⟨dst', pos', hgroups, hle, h⟩ := addmulGroups_spec (Nat.zero_le sz)
    (fun t => (if_neg (Nat.not_lt_zero t)).symm : Added row src dst 0 dst)
  have hlim : (sz : Int) - UNROLL + 1 + UNROLL - 1 = sz := by omega
  unfold addmul1
  simp only [hgroups, hlim]
  exact addmulRest_spec hle h

/-- The macro `addmul`, with the table. -/
def addmulTable (table : Gf → Gf → Gf) (dst src : Nat → Gf) (c : Gf) (sz : Nat) : Nat → Gf :=
  if c ≠ 0 then addmul1 dst src (table c) sz else dst

/-- The unrolled sum is the plain one below the length. -/
theorem addmulTable_eq (t : Gf → Gf → Gf) (dst src : Nat → Gf) (c : Gf) (sz : Nat) :
    addmulTable (initMulTable t) dst src c sz = bcopy (addmul dst src c) dst sz := by
  funext i
  unfold addmulTable addmul bcopy
  by_cases hc : c ≠ 0
  · rw [if_pos hc, if_pos hc, addmul1_added dst src _ sz i, initMulTable_eq]
  · rw [if_neg hc, if_neg hc, ite_self]

/-! ## The encoder and the decoder in place -/

def bzero (dst : Nat → Gf) (sz : Nat) : Nat → Gf := fun i => if i < sz then 0 else dst i

/-- `bzero` and the sum of the first `k` packets, into one buffer. -/
def sumInto (table : Gf → Gf → Gf) (src : Nat → Nat → Gf) (p : Nat → Gf) (k sz : Nat)
    (dst : Nat → Gf) : Nat → Gf :=
  (List.range k).foldl (fun dst i => addmulTable table dst (src i) (p i) sz) (bzero dst sz)

theorem sumInto_eq (t : Gf → Gf → Gf) (src : Nat → Nat → Gf) (p : Nat → Gf) (k sz : Nat)
    (dst : Nat → Gf) : sumInto (initMulTable t) src p k sz dst =
      bcopy ((List.range k).foldl (fun new i => addmul new (src i) (p i)) fun _ => 0) dst sz := by
  unfold sumInto
  induction k with
  | zero => rfl
  | succ k ih =>
    rw [List.range_succ, List.foldl_append, List.foldl_append, ih]
    simp only [List.foldl_cons, List.foldl_nil, addmulTable_eq, addmul_eq]
    funext i
    unfold bcopy
    by_cases hi : i < sz
    · simp only [if_pos hi]
    · simp only [if_neg hi]

/-- `fec_encode` as it is written. -/
def fecEncodeInPlace (table : Gf → Gf → Gf) (code : FecParms) (src : Nat → Nat → Gf)
    (fec : Nat → Gf) (index sz : Nat) : Nat → Gf :=
  if index < code.k then bcopy (src index) fec sz
  else if index < code.n then sumInto table src (code.enc_matrix index) code.k sz fec
  else fec

/-- `m_dec[row * k + col]`. -/
def entryAt {k : Nat} (m_dec : Matrix (Fin k) (Fin k) Gf) (row col : Nat) : Gf :=
  if h : row < k ∧ col < k then m_dec ⟨row, h.1⟩ ⟨col, h.2⟩ else 0

/-- The end of `fec_decode` as it is written. `fresh` is what `my_malloc` gives for each row. -/
def decodePktsInPlace (table : Gf → Gf → Gf) (fresh : Nat → Nat → Gf) (code : FecParms)
    (m_dec : Matrix (Fin code.k) (Fin code.k) Gf) (pkt : Nat → Nat → Gf) (index : Nat → Nat)
    (sz : Nat) : Nat → Nat → Gf :=
  fun row =>
    if row < code.k then
      if index row ≥ code.k then
        bcopy (sumInto table pkt (entryAt m_dec row) code.k sz (fresh row)) (pkt row) sz
      else pkt row
    else pkt row

theorem foldl_finRange {α : Type} (k : Nat) (f : α → Nat → α) (a : α) :
    (List.finRange k).foldl (fun a (i : Fin k) => f a i) a = (List.range k).foldl f a := by
  rw [← List.map_coe_finRange_eq_range, List.foldl_map]

theorem bcopy_bcopy (src dst dst' : Nat → Gf) (sz : Nat) :
    bcopy (bcopy src dst sz) dst' sz = bcopy src dst' sz := by
  funext i
  unfold bcopy
  split <;> rfl

/-- The loops as they are written give what the sums give: the encoder, and the
decoder whatever memory it was given. -/
theorem the_written_loops_agree (t : Gf → Gf → Gf) (code : FecParms) :
    (∀ src fec index sz, fecEncodeInPlace (initMulTable t) code src fec index sz =
      fecEncode code src fec index sz) ∧
    ∀ fresh m_dec pkt index sz, decodePktsInPlace (initMulTable t) fresh code m_dec pkt index sz =
      decodePkts code m_dec pkt index sz := by
  refine ⟨fun src fec index sz => ?_, fun fresh m_dec pkt index sz => ?_⟩
  · unfold fecEncodeInPlace fecEncode
    rw [sumInto_eq]
  · unfold decodePktsInPlace decodePkts
    funext row
    by_cases hrow : row < code.k
    · rw [if_pos hrow, dif_pos hrow]
      refine if_congr Iff.rfl ?_ rfl
      have hentry : ∀ col : Fin code.k, entryAt m_dec row col = m_dec ⟨row, hrow⟩ col :=
        fun col => dif_pos ⟨hrow, col.isLt⟩
      rw [sumInto_eq, ← foldl_finRange]
      simp only [hentry]
      exact bcopy_bcopy _ _ _ _
    · rw [if_neg hrow, dif_neg hrow]

end wspace_client.fec

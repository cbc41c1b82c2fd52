-- The encoder and the decoder of `fec.cc` together: any `k` coded packets with
-- distinct indices decode to the `k` original packets.
import WspaceClient.Inverses

namespace wspace_client.fec

open gauss_jordan vandermonde Matrix

/-! ## The encoding matrix -/

/-- The field element of each row: zero, and the powers of 2. -/
def point : Nat → Gf
  | 0 => 0
  | row + 1 => Gf.pow row

theorem powerMatrix_eq (row col : Nat) : powerMatrix row col = point row ^ col := by
  cases row with
  | zero =>
    unfold powerMatrix point
    cases col with
    | zero => rfl
    | succ col => exact (zero_pow (Nat.succ_ne_zero col)).symm
  | succ row =>
    unfold powerMatrix point
    exact (gf_exp_modnn _).trans (Gf.pow_pow row col).symm

theorem point_injOn {n : Nat} (hn : n ≤ GF_SIZE + 1) : Set.InjOn point (Finset.range n) := by
  intro i hi j hj h
  have hi := Finset.mem_range.mp hi
  have hj := Finset.mem_range.mp hj
  cases i with
  | zero =>
    cases j with
    | zero => rfl
    | succ j => exact absurd h.symm (Gf.pow_ne_zero j)
  | succ i =>
    cases j with
    | zero => exact absurd h (Gf.pow_ne_zero i)
    | succ j => exact congrArg (· + 1) (Gf.pow_injective (by omega) (by omega) h)

/-- The inverse that `fec_new` multiplies by. -/
def vdmInverse (k : Nat) : Matrix (Fin k) (Fin k) Gf := fun i j => invertVdm powerMatrix k i j

theorem vandermonde_mul_vdmInverse {k : Nat} (hk : 1 ≤ k) (hk' : k ≤ GF_SIZE + 1) :
    vandermonde (fun i : Fin k => point i) * vdmInverse k = 1 := by
  by_cases hone : k = 1
  · subst hone
    ext i j
    have hi : i = 0 := Subsingleton.elim i 0
    have hj : j = 0 := Subsingleton.elim j 0
    have hself : vdmInverse 1 0 0 = 1 := by simp [vdmInverse, invertVdm, powerMatrix]
    rw [hi, hj, mul_apply, Fin.sum_univ_one, one_apply_eq, hself, vandermonde_apply]
    simp
  · have hpoint : (fun i => powerMatrix i 1) = point := by
      funext i
      rw [powerMatrix_eq, pow_one]
    have hinv : vdmInverse k = vandermonde.inverse k point := by
      ext i j
      unfold vdmInverse
      rw [invertVdm_eq (by omega) rfl, hpoint]
    rw [hinv]
    exact vandermonde_mul_inverse (point_injOn hk')

theorem matmul_eq (a b : Nat → Nat → Gf) (k row col : Nat) :
    matmul a b k row col = ∑ i : Fin k, a row i * b i col := by
  rw [Fin.sum_univ_eq_sum_range (fun i => a row i * b i col)]
  unfold matmul
  refine foldl_range_rule (fun i acc => acc = ∑ j ∈ Finset.range i, a row j * b j col) rfl ?_
  intro i acc _ h
  rw [h, gfMul_eq, Finset.sum_range_succ]

/-- A code as `fec_new` makes it: the row of each index is a row of the
Vandermonde matrix, times the inverse of the first rows. -/
structure FecParms.Made (code : FecParms) (k n : Nat) : Prop where
  eq_k : code.k = k
  eq_n : code.n = n
  top : ∀ row < k, ∀ col, code.enc_matrix row col = if row = col then 1 else 0
  row : ∀ row < n, ∀ col : Fin k,
    code.enc_matrix row col = ∑ l : Fin k, point row ^ (l : Nat) * vdmInverse k l col

theorem fecNew_made {k n : Nat} (hk : 1 ≤ k) (hkn : k ≤ n) (hn : n ≤ GF_SIZE + 1) :
    ∃ code, fecNew k n = some code ∧ code.Made k n := by
  refine ⟨_, if_neg (by omega), rfl, rfl, ?_, ?_⟩
  · intro row hrow col
    simp only [if_pos hrow]
  · intro row hrow col
    by_cases htop : row < k
    · have hid := congrFun (congrFun (vandermonde_mul_vdmInverse hk (by omega)) ⟨row, htop⟩) col
      rw [mul_apply] at hid
      simp only [vandermonde_apply] at hid
      simp only [if_pos htop]
      rw [hid, one_apply]
      simp only [Fin.ext_iff]
    · simp only [if_neg htop]
      rw [matmul_eq]
      refine Finset.sum_congr rfl fun l _ => ?_
      -- The rows below the first `k` are still powers.
      have hrow : row - k + k = row := by omega
      have hkeep : invertVdm powerMatrix k (row - k + k) l = powerMatrix row l := by
        unfold invertVdm
        rw [hrow]
        split
        · rfl
        · simp only [htop, false_and, if_false]
      rw [hkeep, powerMatrix_eq]
      rfl

/-! ## Encoding -/

theorem foldl_addmul (k : Nat) (src : Nat → Nat → Gf) (c : Nat → Gf) :
    (List.range k).foldl (fun fec i => addmul fec (src i) (c i)) (fun _ => 0) =
      fun t => ∑ i : Fin k, c i * src i t := by
  funext t
  rw [Fin.sum_univ_eq_sum_range (fun i => c i * src i t)]
  refine foldl_range_rule
    (fun i (fec : Nat → Gf) => fec t = ∑ j ∈ Finset.range i, c j * src j t) rfl ?_
  intro i fec _ h
  simp only [addmul_eq, h, Finset.sum_range_succ]

theorem bcopy_of_lt (src dst : Nat → Gf) {sz t : Nat} (ht : t < sz) : bcopy src dst sz t = src t :=
  if_pos ht

/-- A coded packet is a combination of the packets, with the row of its index. -/
theorem fecEncode_eq {code : FecParms} {k n index sz t : Nat} (hc : code.Made k n)
    (hindex : index < n) (ht : t < sz) (src : Nat → Nat → Gf) (fec : Nat → Gf) :
    fecEncode code src fec index sz t = ∑ i : Fin k, code.enc_matrix index i * src i t := by
  unfold fecEncode
  rw [hc.eq_k, hc.eq_n, if_pos hindex, foldl_addmul]
  split
  · rename_i htop
    rw [bcopy_of_lt _ _ ht, Finset.sum_eq_single (⟨index, htop⟩ : Fin k)]
    · rw [hc.top index htop, if_pos rfl, one_mul]
    · intro i _ hne
      have hne' : index ≠ i := fun he => hne (Fin.ext he.symm)
      rw [hc.top index htop, if_neg hne', zero_mul]
    · intro hno
      exact absurd (Finset.mem_univ _) hno
  · exact bcopy_of_lt _ _ ht

/-! ## Shuffling -/

/-- After the shuffle, an index below `k` stands in its own place. -/
def Settled (index : Nat → Nat) (k i : Nat) : Prop := ∀ j < i, k ≤ index j ∨ index j = j

theorem swap_lt {i c j k : Nat} (hi : i < k) (hc : c < k) (hj : j < k) : Equiv.swap i c j < k := by
  rw [Equiv.swap_apply_def]
  split
  · exact hc
  · split
    · exact hi
    · exact hj

/-- With distinct indices the shuffle succeeds. It moves each packet with its index. -/
theorem shuffle_spec {α : Type} (R : Nat → α → Prop) (pkt : Nat → α) (index : Nat → Nat) (k i : Nat)
    (hi : i ≤ k) (hinj : Set.InjOn index (Finset.range k)) (hset : Settled index k i)
    (hR : ∀ j < k, R (index j) (pkt j)) :
    ∃ pkt' index', shuffle pkt index k i = (false, pkt', index') ∧
      Set.InjOn index' (Finset.range k) ∧ Settled index' k k ∧
      ∀ j < k, R (index' j) (pkt' j) := by
  induction pkt, index, i using shuffle.induct k with
  | case1 pkt index i hik hskip ih =>
    rw [shuffle, if_pos hik, dif_pos hskip]
    refine ih (by omega) hinj (fun j hj => ?_) hR
    by_cases hji : j = i
    · rw [hji]
      exact hskip
    · exact hset j (by omega)
  | case2 pkt index i hik hskip hconflict =>
    obtain ⟨hk, hne⟩ := not_or.mp hskip
    have hmem : index i ∈ (Finset.range k : Set Nat) := by simpa using Nat.lt_of_not_le hk
    exact absurd (hinj hmem (by simpa using hik) hconflict) hne
  | case3 pkt index i hik hskip hconflict ih =>
    obtain ⟨hk, hne⟩ := not_or.mp hskip
    have hc : index i < k := Nat.lt_of_not_le hk
    rw [shuffle, if_pos hik, dif_neg hskip, dif_neg hconflict]
    refine ih hi ?_ (fun j hj => ?_) fun j hj => hR _ (swap_lt hik hc hj)
    · intro a ha b hb hab
      have ha := swap_lt hik hc (Finset.mem_range.mp ha)
      have hb := swap_lt hik hc (Finset.mem_range.mp hb)
      exact (Equiv.swap i (index i)).injective
        (hinj (Finset.mem_range.mpr ha) (Finset.mem_range.mpr hb) hab)
    · by_cases hjc : j = index i
      · right
        rw [hjc, swap_right]
      · rw [swap_of_ne index (by omega) hjc]
        exact hset j hj
  | case4 pkt index i hik =>
    rw [shuffle, if_neg hik]
    have hik' : i = k := by omega
    rw [hik'] at hset
    exact ⟨pkt, index, rfl, hinj, hset, hR⟩

/-! ## Decoding -/

/-- The rows of the indices, which the decoder inverts. -/
def decodeRows (code : FecParms) (index : Nat → Nat) : Matrix (Fin code.k) (Fin code.k) Gf :=
  fun i j => code.enc_matrix (index i) j

theorem decodeRows_surjective {code : FecParms} {n : Nat} {index : Nat → Nat}
    (hc : code.Made code.k n) (hk : 1 ≤ code.k) (hkn : code.k ≤ n) (hn : n ≤ GF_SIZE + 1)
    (hindex : ∀ j < code.k, index j < n) (hinj : Set.InjOn index (Finset.range code.k)) :
    Function.Surjective (decodeRows code index).mulVec := by
  have hrows : decodeRows code index =
      vandermonde (fun i : Fin code.k => point (index i)) * vdmInverse code.k := by
    ext i j
    rw [mul_apply]
    exact hc.row (index i) (hindex i i.isLt) j
  have hpoints : Function.Injective fun i : Fin code.k => point (index i) := by
    intro i j h
    have hij := point_injOn hn (Finset.mem_range.mpr (hindex i i.isLt))
      (Finset.mem_range.mpr (hindex j j.isLt)) h
    exact Fin.ext (hinj (Finset.mem_range.mpr i.isLt) (Finset.mem_range.mpr j.isLt) hij)
  rw [hrows]
  exact rows_surjective hpoints (vandermonde_mul_vdmInverse hk (by omega))

theorem buildDecodeMatrix_spec {code : FecParms} {n : Nat} {index : Nat → Nat}
    (hc : code.Made code.k n) (hk : 1 ≤ code.k) (hkn : code.k ≤ n) (hn : n ≤ GF_SIZE + 1)
    (hindex : ∀ j < code.k, index j < n) (hinj : Set.InjOn index (Finset.range code.k))
    (hset : Settled index code.k code.k) :
    ∃ M, buildDecodeMatrix code index = some M ∧ M * decodeRows code index = 1 := by
  have hmatrix : (fun i j : Fin code.k => if index i < code.k then if j = i then 1 else 0
      else code.enc_matrix (index i) j) = decodeRows code index := by
    funext i j
    unfold decodeRows
    split
    · rename_i htop
      have hself : index i = i := (hset i i.isLt).resolve_left (by omega)
      rw [hself, hc.top i i.isLt]
      simp only [Fin.ext_iff, eq_comm]
    · rfl
  unfold buildDecodeMatrix
  rw [if_pos fun i => .inr (by rw [hc.eq_n]; exact hindex i i.isLt), hmatrix]
  exact invertMat_spec (decodeRows_surjective hc hk hkn hn hindex hinj)

theorem foldl_addmul_finRange (k : Nat) (src : Nat → Nat → Gf) (c : Fin k → Gf) (t : Nat) :
    (List.finRange k).foldl (fun new (i : Fin k) => addmul new (src i) (c i)) (fun _ => 0) t =
      ∑ i, c i * src i t := by
  have h : ∀ (l : List (Fin k)) (new : Nat → Gf),
      l.foldl (fun new (i : Fin k) => addmul new (src i) (c i)) new t =
        new t + (l.map fun i => c i * src i t).sum := by
    intro l
    induction l with
    | nil => simp
    | cons i l ih =>
      intro new
      rw [List.foldl_cons, ih, addmul_eq, List.map_cons, List.sum_cons, add_assoc]
  rw [h, zero_add, Fin.sum_univ_def]

/-- Any `k` coded packets with distinct indices give the packets back. -/
theorem fecDecode_spec {code : FecParms} {k n sz : Nat} {x pkt : Nat → Nat → Gf}
    {index : Nat → Nat} (hc : code.Made k n) (hk : 1 ≤ k) (hkn : k ≤ n) (hn : n ≤ GF_SIZE + 1)
    (hindex : ∀ j < k, index j < n) (hinj : Set.InjOn index (Finset.range k))
    (hpkt : ∀ j < k, ∀ t < sz, pkt j t = ∑ l : Fin k, code.enc_matrix (index j) l * x l t) :
    ∃ pkt' index', fecDecode code pkt index sz = (false, pkt', index') ∧
      ∀ j < k, ∀ t < sz, pkt' j t = x j t := by
  have hcode := hc.eq_k
  subst hcode
  obtain ⟨pkt1, index1, hshuffle, hinj1, hset, hR⟩ := shuffle_spec
    (fun q p => q < n ∧ ∀ t < sz, p t = ∑ l : Fin code.k, code.enc_matrix q l * x l t)
    pkt index code.k 0 (Nat.zero_le _) hinj (fun j hj => absurd hj (Nat.not_lt_zero j))
    fun j hj => ⟨hindex j hj, hpkt j hj⟩
  obtain ⟨M, hM, hMD⟩ :=
    buildDecodeMatrix_spec hc hk hkn hn (fun j hj => (hR j hj).1) hinj1 hset
  refine ⟨decodePkts code M pkt1 index1 sz, index1, ?_, fun j hj t ht => ?_⟩
  · unfold fecDecode
    rw [hshuffle]
    simp only [hM]
  · unfold decodePkts
    simp only [hj, dif_pos]
    split
    · -- A packet that was lost: its row of the inverse, times the received packets.
      rw [bcopy_of_lt _ _ ht, foldl_addmul_finRange]
      have hx := congrFun (congrArg (· *ᵥ fun l : Fin code.k => x l t) hMD) ⟨j, hj⟩
      simp only [← mulVec_mulVec, one_mulVec] at hx
      rw [← hx]
      refine Finset.sum_congr rfl fun col _ => ?_
      rw [(hR col col.isLt).2 t ht]
      rfl
    · -- A packet that came as itself stands in its own place.
      rename_i htop
      have hself : index1 j = j := (hset j hj).resolve_left (by omega)
      rw [(hR j hj).2 t ht, hself, Finset.sum_eq_single (⟨j, hj⟩ : Fin code.k)]
      · rw [hc.top j hj, if_pos rfl, one_mul]
      · intro l _ hne
        have hne' : j ≠ l := fun he => hne (Fin.ext he.symm)
        rw [hc.top j hj, if_neg hne', zero_mul]
      · intro hno
        exact absurd (Finset.mem_univ _) hno

end wspace_client.fec

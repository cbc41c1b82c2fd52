-- The field elements of the erasure code, with the tables of `generate_gf`.
-- The tables turn bytes into the field of the powers of the element 2.
import WspaceClient.Galois
import WspaceClient.Words
import Mathlib.Algebra.CharP.Two
import Mathlib.Data.BitVec
import Mathlib.Tactic.NormNum.Prime

namespace wspace_client.fec

open galois

def GF_BITS : Nat := 8

def GF_SIZE : Nat := 2 ^ GF_BITS - 1

/-- A field element is a byte, and its sum is the exclusive or. -/
def Gf : Type := Byte

namespace Gf

instance : DecidableEq Gf := inferInstanceAs (DecidableEq (BitVec 8))

instance : Fintype Gf := .ofEquiv (Fin (2 ^ 8)) (BitVec.equivFin (m := 8)).symm.toEquiv

instance : Zero Gf := ⟨0#8⟩

instance : Add Gf := ⟨BitVec.xor⟩

instance : Neg Gf := ⟨id⟩

instance : AddCommGroup Gf where
  add_assoc := BitVec.xor_assoc
  zero_add _ := BitVec.zero_xor
  add_zero _ := BitVec.xor_zero
  add_comm := BitVec.xor_comm
  neg_add_cancel _ := BitVec.xor_self
  nsmul := nsmulRec
  zsmul := zsmulRec

/-- The element that is the integer `i` in the source. -/
def ofNat (i : Nat) : Gf := BitVec.ofNat 8 i

def shl (x : Gf) : Gf := BitVec.shiftLeft x 1

def ge (x y : Gf) : Bool := BitVec.ule y x

end Gf

/-! ## The tables -/

structure Tables where
  gf_exp : Nat → Gf
  gf_log : Gf → Nat
  inverse : Gf → Gf

/-- The primitive polynomial for `GF_BITS`. -/
def Pp : List Char := "101110001".toList

/-- One turn of the first loop of `generate_gf`, with the mask. -/
def firstPower (s : Tables × Gf) (i : Nat) : Tables × Gf :=
  let (t, mask) := s
  let gf_exp := Function.update t.gf_exp i mask
  let gf_log := Function.update t.gf_log (gf_exp i) i
  let gf_exp := if Pp[i]? = some '1' then
      Function.update gf_exp GF_BITS (gf_exp GF_BITS + mask) else gf_exp
  ({ t with gf_exp, gf_log }, mask.shl)

def firstPowers : Tables :=
  let t : Tables := ⟨fun _ => 0, fun _ => 0, fun _ => 0⟩
  let (t, _) := (List.range GF_BITS).foldl firstPower (t, Gf.ofNat 1)
  { t with gf_log := Function.update t.gf_log (t.gf_exp GF_BITS) GF_BITS }

/-- One turn of its second loop. -/
def nextPower (t : Tables) (i : Nat) : Tables :=
  let mask := Gf.ofNat (2 ^ (GF_BITS - 1))
  let x := t.gf_exp (i - 1)
  let gf_exp := Function.update t.gf_exp i
    (if x.ge mask then t.gf_exp GF_BITS + (x + mask).shl else x.shl)
  { t with gf_exp, gf_log := Function.update t.gf_log (gf_exp i) i }

def expPowers : Tables :=
  (List.range' (GF_BITS + 1) (GF_SIZE - (GF_BITS + 1))).foldl nextPower firstPowers

def copyPower (t : Tables) (i : Nat) : Tables :=
  { t with gf_exp := Function.update t.gf_exp (i + GF_SIZE) (t.gf_exp i) }

def setInverse (t : Tables) (i : Nat) : Tables :=
  let gf_log := t.gf_log (.ofNat i)
  { t with inverse := Function.update t.inverse (.ofNat i) (t.gf_exp (GF_SIZE - gf_log)) }

/-- The logarithm of zero is a special value. -/
def zeroLog (t : Tables) : Tables :=
  { t with gf_log := Function.update t.gf_log 0 GF_SIZE }

/-- `inverse` before its loop. Zero has no inverse, and nobody reads its entry. -/
def unitInverse (t : Tables) : Tables :=
  { t with inverse := Function.update (Function.update t.inverse 0 0) (.ofNat 1) (.ofNat 1) }

def generateGf : Tables :=
  let t := (List.range GF_SIZE).foldl copyPower (zeroLog expPowers)
  (List.range' 2 (GF_SIZE + 1 - 2)).foldl setInverse (unitInverse t)

theorem modnn_lt {x : Nat} (h : GF_SIZE ≤ x) :
    ((x - GF_SIZE) >>> GF_BITS) + ((x - GF_SIZE) &&& GF_SIZE) < x := by
  have hle : (x - GF_SIZE) &&& GF_SIZE ≤ x - GF_SIZE := Nat.and_le_left
  have hmod : (x - GF_SIZE) &&& GF_SIZE = (x - GF_SIZE) % 2 ^ GF_BITS :=
    Nat.and_two_pow_sub_one_eq_mod _ _
  rw [Nat.shiftRight_eq_div_pow, hmod]
  simp only [GF_SIZE, GF_BITS] at *
  omega

/-- The remainder by `GF_SIZE`, without a division. -/
def modnn (x : Nat) : Nat :=
  if _ : GF_SIZE ≤ x then modnn (((x - GF_SIZE) >>> GF_BITS) + ((x - GF_SIZE) &&& GF_SIZE))
  else x
termination_by x
decreasing_by exact modnn_lt ‹_›

/-- An entry of `gf_mul_table` after `init_mul_table`. -/
def gfMul (x y : Gf) : Gf :=
  if x = 0 ∨ y = 0 then 0
  else generateGf.gf_exp (modnn (generateGf.gf_log x + generateGf.gf_log y))

/-! ## The powers of the element 2 -/

/-- The next power: a shift, and the polynomial for the bit that left. -/
def Gf.next (x : Gf) : Gf :=
  if x.ge (.ofNat (2 ^ (GF_BITS - 1))) then .ofNat 29 + (x + .ofNat (2 ^ (GF_BITS - 1))).shl
  else x.shl

theorem Gf.add_self (x : Gf) : x + x = 0 := BitVec.xor_self

theorem Gf.shl_add (x y : Gf) : (x + y).shl = x.shl + y.shl :=
  BitVec.shiftLeft_xor_distrib x y 1

theorem Gf.next_eq (x : Gf) : x.next = x.shl + if BitVec.msb x then .ofNat 29 else 0 := by
  have hge : x.ge (.ofNat (2 ^ (GF_BITS - 1))) = BitVec.msb x :=
    (BitVec.msb_eq_decide (w := 8) x).symm
  have hshl : Gf.shl (.ofNat (2 ^ (GF_BITS - 1))) = 0 := rfl
  unfold Gf.next
  rw [hge, Gf.shl_add, hshl, add_zero]
  split
  · exact add_comm _ _
  · exact (add_zero _).symm

theorem Gf.next_add (x y : Gf) : (x + y).next = x.next + y.next := by
  have hmsb : BitVec.msb (x + y) = (BitVec.msb x ^^ BitVec.msb y) := BitVec.msb_xor
  rw [Gf.next_eq, Gf.next_eq x, Gf.next_eq y, hmsb, Gf.shl_add]
  cases BitVec.msb x <;> cases BitVec.msb y
  · simp
  · simp [add_assoc]
  · simp [add_right_comm]
  · rw [add_add_add_comm]
    simp [Gf.add_self]

/-- The entry of `gf_exp` for a power of the primitive element. -/
def Gf.pow (i : Nat) : Gf := Gf.next^[i] (.ofNat 1)

theorem Gf.pow_period : Gf.pow GF_SIZE = .ofNat 1 := by decide +kernel

/-- `GF_SIZE` is 3 * 5 * 17, and no factor can be left out. -/
theorem Gf.minimalPeriod_next : Function.minimalPeriod Gf.next (.ofNat 1) = GF_SIZE := by
  refine minimalPeriod_eq Gf.pow_period fun p hp hdvd => ?_
  have hfactors : p ∣ 3 * (5 * 17) := hdvd
  rw [hp.dvd_mul, hp.dvd_mul, Nat.prime_dvd_prime_iff_eq hp (by norm_num),
    Nat.prime_dvd_prime_iff_eq hp (by norm_num), Nat.prime_dvd_prime_iff_eq hp (by norm_num)]
    at hfactors
  rcases hfactors with rfl | rfl | rfl <;> decide +kernel

theorem Gf.pow_injective {i j : Nat} (hi : i < GF_SIZE) (hj : j < GF_SIZE)
    (h : Gf.pow i = Gf.pow j) : i = j := by
  rw [← Gf.minimalPeriod_next] at hi hj
  exact Function.iterate_injOn_Iio_minimalPeriod hi hj h

/-! ## The tables hold the powers -/

/-- The first `n` powers stand in both tables. -/
def Tables.Filled (n : Nat) (t : Tables) : Prop :=
  ∀ i < n, t.gf_exp i = Gf.pow i ∧ t.gf_log (Gf.pow i) = i

theorem firstPowers_filled : firstPowers.Filled (GF_BITS + 1) := by
  unfold Tables.Filled
  decide +kernel

theorem nextPower_filled {t : Tables} {i : Nat} (hi : GF_BITS + 1 ≤ i) (hlt : i < GF_SIZE)
    (h : t.Filled i) : (nextPower t i).Filled (i + 1) := by
  have hbits : t.gf_exp GF_BITS = .ofNat 29 := (h GF_BITS hi).1
  have hprev : t.gf_exp (i - 1) = Gf.pow (i - 1) := (h (i - 1) (by omega)).1
  have hpow : (Gf.pow (i - 1)).next = Gf.pow i := by
    have hsucc : i = i - 1 + 1 := by omega
    rw [hsucc]
    exact (Function.iterate_succ_apply' _ _ _).symm
  have hnew : (nextPower t i).gf_exp = Function.update t.gf_exp i (Gf.pow i) := by
    unfold nextPower
    simp only [hbits, hprev]
    rw [← hpow]
    rfl
  have hlog : (nextPower t i).gf_log = Function.update t.gf_log (Gf.pow i) i := by
    change Function.update t.gf_log ((nextPower t i).gf_exp i) i = _
    rw [hnew, Function.update_self]
  intro j hj
  rw [hnew, hlog]
  by_cases hji : j = i
  · subst hji
    simp
  · obtain ⟨hexp, hlogj⟩ := h j (by omega)
    have hne : Gf.pow j ≠ Gf.pow i := fun he => hji (Gf.pow_injective (by omega) hlt he)
    rw [Function.update_of_ne hji, Function.update_of_ne hne]
    exact ⟨hexp, hlogj⟩

theorem expPowers_filled : expPowers.Filled GF_SIZE := by
  have hcount : GF_BITS + 1 + (GF_SIZE - (GF_BITS + 1)) = GF_SIZE := by decide
  rw [← hcount]
  refine foldl_range'_rule Tables.Filled firstPowers_filled fun i t hi hlt h => ?_
  rw [hcount] at hlt
  exact nextPower_filled hi hlt h

theorem Gf.card : Fintype.card Gf = GF_SIZE + 1 :=
  (Fintype.ofEquiv_card _).trans (Fintype.card_fin _)

theorem Gf.next_zero : Gf.next 0 = 0 := rfl

theorem Gf.pow_ne_zero (i : Nat) : Gf.pow i ≠ 0 :=
  iterate_ne (by decide) Gf.pow_period Gf.next_zero (by decide) i

/-- Every element but zero is a power. -/
theorem Gf.exists_pow {x : Gf} (h : x ≠ 0) : ∃ i < GF_SIZE, x = Gf.pow i := by
  have hcard : Function.minimalPeriod Gf.next (.ofNat 1) + 1 = Fintype.card Gf := by
    rw [Gf.minimalPeriod_next, Gf.card]
  obtain ⟨i, hi, hx⟩ := exists_iterate_eq hcard Gf.pow_ne_zero h
  rw [Gf.minimalPeriod_next] at hi
  exact ⟨i, hi, hx.symm⟩

/-! ## The finished tables -/

/-- What the later loops of `generate_gf` keep: the powers of both tables. -/
def Tables.HasPowers (t : Tables) : Prop :=
  t.Filled GF_SIZE ∧ t.gf_log 0 = GF_SIZE

theorem expPowers_hasPowers : (zeroLog expPowers).HasPowers := by
  unfold zeroLog
  refine ⟨fun i hi => ?_, by simp⟩
  obtain ⟨hexp, hlog⟩ := expPowers_filled i hi
  simp [hexp, hlog, Gf.pow_ne_zero]

theorem Tables.HasPowers.copyPower {t : Tables} (h : t.HasPowers) (i : Nat) :
    (copyPower t i).HasPowers := by
  refine ⟨fun j hj => ?_, h.2⟩
  have hne : j ≠ i + GF_SIZE := by omega
  obtain ⟨hexp, hlog⟩ := h.1 j hj
  simp [fec.copyPower, hne, hexp, hlog]

/-- `inverse` is filled up to `n`. -/
structure Tables.Inverted (n : Nat) (t : Tables) : Prop where
  powers : t.HasPowers
  zero : t.inverse 0 = 0
  one : t.inverse (.ofNat 1) = .ofNat 1
  rest : ∀ j, 2 ≤ j → j < n → t.inverse (.ofNat j) = t.gf_exp (GF_SIZE - t.gf_log (.ofNat j))

theorem Gf.ofNat_ne {i j : Nat} (hi : i ≤ GF_SIZE) (hj : j ≤ GF_SIZE) (h : i ≠ j) :
    Gf.ofNat i ≠ .ofNat j := by
  intro he
  have htn := congrArg BitVec.toNat he
  simp only [Gf.ofNat, BitVec.toNat_ofNat] at htn
  simp only [GF_SIZE, GF_BITS] at hi hj
  omega

theorem Tables.Inverted.setInverse {t : Tables} {n : Nat} (hn : 2 ≤ n) (hlt : n ≤ GF_SIZE)
    (h : t.Inverted n) : (setInverse t n).Inverted (n + 1) := by
  have hsize : 1 ≤ GF_SIZE := by decide
  refine ⟨h.powers, ?_, ?_, fun j hj hjn => ?_⟩
  · exact (Function.update_of_ne (Gf.ofNat_ne (by omega) hlt (by omega)) _ _).trans h.zero
  · exact (Function.update_of_ne (Gf.ofNat_ne hsize hlt (by omega)) _ _).trans h.one
  · by_cases he : j = n
    · subst he
      exact Function.update_self _ _ _
    · refine (Function.update_of_ne (Gf.ofNat_ne (by omega) hlt he) _ _).trans ?_
      exact h.rest j hj (by omega)

theorem Tables.HasPowers.unitInverse {t : Tables} (h : t.HasPowers) :
    (unitInverse t).Inverted 2 := by
  have hne : (0 : Gf) ≠ .ofNat 1 := by decide
  refine ⟨h, ?_, ?_, fun j hj hlt => by omega⟩
  · simp [fec.unitInverse, hne]
  · simp [fec.unitInverse]

theorem generateGf_inverted : generateGf.Inverted (GF_SIZE + 1) := by
  have hcopied := foldl_range_rule (n := GF_SIZE) (fun _ t => Tables.HasPowers t)
    expPowers_hasPowers fun i t _ h => h.copyPower i
  have hcount : 2 + (GF_SIZE + 1 - 2) = GF_SIZE + 1 := by decide
  have h := foldl_range'_rule (n := GF_SIZE + 1 - 2) Tables.Inverted hcopied.unitInverse
    fun i t hi hlt h => h.setInverse hi (by omega)
  rw [hcount] at h
  exact h

-- From here on, only these facts speak of the tables.
attribute [irreducible] generateGf

theorem gf_exp_eq {i : Nat} (h : i < GF_SIZE) : generateGf.gf_exp i = Gf.pow i :=
  (generateGf_inverted.powers.1 i h).1

theorem gf_log_pow {i : Nat} (h : i < GF_SIZE) : generateGf.gf_log (Gf.pow i) = i :=
  (generateGf_inverted.powers.1 i h).2

theorem modnn_eq (x : Nat) : modnn x = x % GF_SIZE := by
  induction x using Nat.strong_induction_on with
  | _ x ih =>
    unfold modnn
    split
    · rename_i h
      rw [ih _ (modnn_lt h), Nat.shiftRight_eq_div_pow]
      have hmod : (x - GF_SIZE) &&& GF_SIZE = (x - GF_SIZE) % 2 ^ GF_BITS :=
        Nat.and_two_pow_sub_one_eq_mod _ _
      rw [hmod]
      simp only [GF_SIZE, GF_BITS] at h ⊢
      omega
    · rename_i h
      exact (Nat.mod_eq_of_lt (Nat.lt_of_not_le h)).symm

/-! ## The field -/

/-- The powers of the element 2, with the logarithms of the tables. -/
def gfPowers : Powers Gf where
  next := Gf.next
  one := .ofNat 1
  period := GF_SIZE
  log := generateGf.gf_log
  next_add := Gf.next_add
  one_ne_zero := by decide
  period_pos := by decide
  next_period := Gf.pow_period
  log_le x h := by
    obtain ⟨i, hi, rfl⟩ := Gf.exists_pow h
    rw [gf_log_pow hi]
    omega
  next_log x h := by
    obtain ⟨i, hi, rfl⟩ := Gf.exists_pow h
    rw [gf_log_pow hi]
    rfl

theorem gfPowers_pow (i : Nat) : gfPowers.pow i = Gf.pow i := rfl

theorem gfPowers_period : gfPowers.period = GF_SIZE := rfl

theorem gfPowers_log (x : Gf) : gfPowers.log x = generateGf.gf_log x := rfl

instance : Field Gf := gfPowers.field

theorem Gf.mul_def (x y : Gf) : x * y = gfPowers.mul x y := rfl

theorem Gf.inv_def (x : Gf) : x⁻¹ = gfPowers.inv x := rfl

/-- The exponent may be reduced first, as in every lookup of the tables. -/
theorem gf_exp_modnn (i : Nat) : generateGf.gf_exp (modnn i) = Gf.pow i := by
  have hlt : modnn i < GF_SIZE := by
    rw [modnn_eq]
    exact Nat.mod_lt _ (by decide)
  rw [gf_exp_eq hlt, modnn_eq, ← gfPowers_pow, ← gfPowers_period, gfPowers.pow_mod, gfPowers_pow]

theorem gfMul_eq (x y : Gf) : gfMul x y = x * y := by
  unfold gfMul
  rw [gf_exp_modnn, Gf.mul_def, Powers.mul, gfPowers_pow, gfPowers_log, gfPowers_log]

theorem inverse_eq (x : Gf) : generateGf.inverse x = x⁻¹ := by
  have h := generateGf_inverted
  rw [Gf.inv_def, Powers.inv]
  by_cases h0 : x = 0
  · rw [if_pos h0, h0, h.zero]
  · rw [if_neg h0, gfPowers_log, gfPowers_period, gfPowers_pow]
    by_cases hone : x = .ofNat 1
    · have hlog : generateGf.gf_log (.ofNat 1) = 0 := gf_log_pow (i := 0) (by decide)
      rw [hone, hlog, h.one]
      exact Gf.pow_period.symm
    · obtain ⟨i, hi, hx⟩ := Gf.exists_pow h0
      have hi0 : i ≠ 0 := by
        rintro rfl
        exact hone hx
      have hx2 : 2 ≤ BitVec.toNat x := by
        have hzero : BitVec.toNat x ≠ 0 := fun he => h0 (BitVec.eq_of_toNat_eq he)
        have hunit : BitVec.toNat x ≠ 1 := fun he => hone (BitVec.eq_of_toNat_eq he)
        omega
      have hrest := h.rest (BitVec.toNat x) hx2 (BitVec.isLt x)
      have hof : Gf.ofNat (BitVec.toNat x) = x := BitVec.ofNat_toNat 8 x
      rw [hof, hx, gf_log_pow hi] at hrest
      rw [hx, gf_log_pow hi, hrest, gf_exp_eq (by omega)]

theorem Gf.pow_mul_pow (i j : Nat) : Gf.pow i * Gf.pow j = Gf.pow (i + j) :=
  gfPowers.pow_mul_pow i j

theorem Gf.pow_pow (i j : Nat) : Gf.pow i ^ j = Gf.pow (i * j) := by
  induction j with
  | zero => rfl
  | succ j ih => rw [pow_succ, ih, Gf.pow_mul_pow, Nat.mul_succ]

end wspace_client.fec

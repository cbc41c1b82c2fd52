-- Fields whose multiplication goes through logarithms. Every element but zero
-- is a power of one element, and multiplying by that element is additive.
import Mathlib.Algebra.Field.Basic
import Mathlib.Data.Fintype.Card
import Mathlib.Data.Nat.Prime.Basic
import Mathlib.Dynamics.PeriodicPts.Defs

namespace wspace_client.galois

open Function

/-! ## Primitive elements -/

/-- A period is the least one, if no division by a prime leaves a period. -/
theorem minimalPeriod_eq {α : Type} {f : α → α} {x : α} {n : Nat}
    (h : f^[n] x = x) (hp : ∀ p, p.Prime → p ∣ n → f^[n / p] x ≠ x) :
    minimalPeriod f x = n := by
  have hdvd : minimalPeriod f x ∣ n := IsPeriodicPt.minimalPeriod_dvd h
  obtain ⟨c, hc⟩ := hdvd
  by_contra hne
  have hc1 : c ≠ 1 := by
    rintro rfl
    omega
  obtain ⟨p, hprime, d, rfl⟩ := Nat.exists_prime_and_dvd hc1
  -- The least period still divides what is left after one prime of the cofactor.
  have hdiv : n / p = minimalPeriod f x * d := by
    rw [hc, Nat.mul_left_comm, Nat.mul_div_cancel_left _ hprime.pos]
  apply hp p hprime
  · rw [hc, Nat.mul_left_comm]
    exact Nat.dvd_mul_right _ _
  · rw [hdiv]
    exact isPeriodicPt_iff_minimalPeriod_dvd.mpr (Nat.dvd_mul_right _ _)

/-- A periodic point never comes to a fixed point. -/
theorem iterate_ne {α : Type} {f : α → α} {x z : α} {n : Nat} (hn : 0 < n) (h : f^[n] x = x)
    (hz : f z = z) (hne : x ≠ z) (i : Nat) : f^[i] x ≠ z := by
  intro hi
  have hle : i ≤ i * n := Nat.le_mul_of_pos_right i hn
  have hfix : f^[i * n] x = z := by
    rw [← Nat.sub_add_cancel hle, iterate_add_apply, hi]
    exact iterate_fixed hz _
  have hper : f^[i * n] x = x := IsPeriodicPt.const_mul h i
  exact hne (hper.symm.trans hfix)

/-- When there are as many powers as elements but one, every other element is a power. -/
theorem exists_iterate_eq {α : Type} [Fintype α] [DecidableEq α] {f : α → α} {x z a : α}
    (hcard : minimalPeriod f x + 1 = Fintype.card α) (hz : ∀ i, f^[i] x ≠ z) (ha : a ≠ z) :
    ∃ i < minimalPeriod f x, f^[i] x = a := by
  let powers := (Finset.range (minimalPeriod f x)).image (f^[·] x)
  have hinj : Set.InjOn (f^[·] x) (Finset.range (minimalPeriod f x)) := by
    rw [Finset.coe_range]
    exact iterate_injOn_Iio_minimalPeriod
  have hsub : powers ⊆ Finset.univ.erase z := by
    intro b hb
    obtain ⟨i, -, rfl⟩ := Finset.mem_image.mp hb
    exact Finset.mem_erase.mpr ⟨hz i, Finset.mem_univ _⟩
  have hcount : (Finset.univ.erase z).card ≤ powers.card := by
    rw [Finset.card_image_of_injOn hinj, Finset.card_range,
      Finset.card_erase_of_mem (Finset.mem_univ z), Finset.card_univ]
    omega
  have hmem : a ∈ powers := by
    rw [Finset.eq_of_subset_of_card_le hsub hcount]
    exact Finset.mem_erase.mpr ⟨ha, Finset.mem_univ a⟩
  obtain ⟨i, hi, rfl⟩ := Finset.mem_image.mp hmem
  exact ⟨i, Finset.mem_range.mp hi, rfl⟩

/-! ## Powers -/

/-- The powers of a primitive element. `next` multiplies by it, and `log` is an
exponent of each element but zero. -/
structure Powers (F : Type) [AddCommGroup F] where
  next : F → F
  one : F
  period : Nat
  log : F → Nat
  next_add : ∀ a b, next (a + b) = next a + next b
  one_ne_zero : one ≠ 0
  period_pos : 0 < period
  next_period : next^[period] one = one
  log_le : ∀ a, a ≠ 0 → log a ≤ period
  next_log : ∀ a, a ≠ 0 → next^[log a] one = a

variable {F : Type} [AddCommGroup F]

/-- The power with exponent `i`. -/
def Powers.pow (P : Powers F) (i : Nat) : F := P.next^[i] P.one

section laws

variable (P : Powers F)

theorem Powers.next_zero : P.next 0 = 0 := by
  have h := P.next_add 0 0
  rw [add_zero] at h
  exact left_eq_add.mp h

theorem Powers.next_iterate_zero (i : Nat) : P.next^[i] 0 = 0 :=
  iterate_fixed P.next_zero i

theorem Powers.next_iterate_add (i : Nat) (a b : F) :
    P.next^[i] (a + b) = P.next^[i] a + P.next^[i] b := by
  induction i generalizing a b with
  | zero => rfl
  | succ i ih => rw [iterate_succ_apply, P.next_add, ih]; rfl

@[simp] theorem Powers.pow_zero : P.pow 0 = P.one := rfl

theorem Powers.pow_succ (i : Nat) : P.pow (i + 1) = P.next (P.pow i) :=
  iterate_succ_apply' _ _ _

theorem Powers.pow_log {a : F} (h : a ≠ 0) : P.pow (P.log a) = a := P.next_log a h

theorem Powers.next_iterate_pow (i j : Nat) : P.next^[i] (P.pow j) = P.pow (i + j) :=
  (iterate_add_apply _ _ _ _).symm

theorem Powers.pow_add_period (i : Nat) : P.pow (i + P.period) = P.pow i := by
  rw [← P.next_iterate_pow, Powers.pow, P.next_period]
  rfl

theorem Powers.pow_mod (i : Nat) : P.pow (i % P.period) = P.pow i := by
  have h : ∀ q r, P.pow (r + P.period * q) = P.pow r := by
    intro q
    induction q with
    | zero => simp
    | succ q ih =>
      intro r
      rw [Nat.mul_succ, ← Nat.add_assoc, P.pow_add_period, ih]
  rw [← h (i / P.period) (i % P.period), Nat.mod_add_div]

theorem Powers.pow_ne_zero (i : Nat) : P.pow i ≠ 0 :=
  iterate_ne P.period_pos P.next_period P.next_zero P.one_ne_zero i

end laws

/-! ## The product -/

section product

variable [DecidableEq F] (P : Powers F)

/-- The product through logarithms. -/
def Powers.mul (a b : F) : F := if a = 0 ∨ b = 0 then 0 else P.pow (P.log a + P.log b)

def Powers.inv (a : F) : F := if a = 0 then 0 else P.pow (P.period - P.log a)

theorem Powers.mul_comm (a b : F) : P.mul a b = P.mul b a := by
  simp only [Powers.mul, or_comm, Nat.add_comm]

theorem Powers.mul_zero (a : F) : P.mul a 0 = 0 := if_pos (.inr rfl)

/-- A product with a power multiplies by the primitive element again and again. -/
theorem Powers.pow_mul (i : Nat) (b : F) : P.mul (P.pow i) b = P.next^[i] b := by
  by_cases hb : b = 0
  · rw [hb, P.mul_zero, P.next_iterate_zero]
  · have hi := P.pow_ne_zero i
    have h : P.pow (P.log (P.pow i) + P.log b) = P.pow (i + P.log b) := by
      rw [Nat.add_comm, ← P.next_iterate_pow, P.pow_log hi, P.next_iterate_pow, Nat.add_comm]
    rw [Powers.mul, if_neg (not_or.mpr ⟨hi, hb⟩), h, ← P.next_iterate_pow, P.pow_log hb]

theorem Powers.zero_mul (b : F) : P.mul 0 b = 0 := if_pos (.inl rfl)

theorem Powers.pow_mul_pow (i j : Nat) : P.mul (P.pow i) (P.pow j) = P.pow (i + j) := by
  rw [P.pow_mul, P.next_iterate_pow]

theorem Powers.one_mul (b : F) : P.mul P.one b = b := P.pow_mul 0 b

/-- An element is zero or a power. -/
theorem Powers.zero_or_pow (a : F) : a = 0 ∨ ∃ i, a = P.pow i := by
  by_cases h : a = 0
  · exact .inl h
  · exact .inr ⟨P.log a, (P.pow_log h).symm⟩

theorem Powers.mul_assoc (a b c : F) : P.mul (P.mul a b) c = P.mul a (P.mul b c) := by
  rcases P.zero_or_pow a with rfl | ⟨i, rfl⟩
  · simp only [P.zero_mul]
  · rcases P.zero_or_pow b with rfl | ⟨j, rfl⟩
    · simp only [P.zero_mul, P.mul_zero]
    · rw [P.pow_mul_pow, P.pow_mul, P.pow_mul, P.pow_mul, iterate_add_apply]

theorem Powers.mul_add (a b c : F) : P.mul a (b + c) = P.mul a b + P.mul a c := by
  rcases P.zero_or_pow a with rfl | ⟨i, rfl⟩
  · simp only [P.zero_mul, add_zero]
  · rw [P.pow_mul, P.pow_mul, P.pow_mul, P.next_iterate_add]

theorem Powers.mul_inv {a : F} (h : a ≠ 0) : P.mul a (P.inv a) = P.one := by
  have hle := P.log_le a h
  have hinv : P.inv a = P.pow (P.period - P.log a) := if_neg h
  have hsum : P.log a + (P.period - P.log a) = 0 + P.period := by omega
  calc P.mul a (P.inv a)
      = P.mul (P.pow (P.log a)) (P.pow (P.period - P.log a)) := by rw [hinv, P.pow_log h]
    _ = P.pow 0 := by rw [P.pow_mul_pow, hsum, P.pow_add_period]

/-- The field of the powers and zero. -/
@[reducible]
def Powers.field : Field F where
  __ := (inferInstance : AddCommGroup F)
  mul := P.mul
  one := P.one
  inv := P.inv
  mul_comm := P.mul_comm
  mul_assoc := P.mul_assoc
  one_mul := P.one_mul
  mul_one a := (P.mul_comm a P.one).trans (P.one_mul a)
  zero_mul := P.zero_mul
  mul_zero := P.mul_zero
  left_distrib := P.mul_add
  right_distrib a b c := by
    change P.mul (a + b) c = P.mul a c + P.mul b c
    rw [P.mul_comm, P.mul_add, P.mul_comm c a, P.mul_comm c b]
  exists_pair_ne := ⟨0, P.one, P.one_ne_zero.symm⟩
  mul_inv_cancel _ h := P.mul_inv h
  inv_zero := if_pos rfl
  nnqsmul := _
  nnqsmul_def _ _ := rfl
  qsmul := _
  qsmul_def _ _ := rfl

end product

end wspace_client.galois

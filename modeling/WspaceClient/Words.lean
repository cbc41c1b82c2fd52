-- The machine words and the counted loops of the client. A `uint32` is a
-- natural number, and every operation that can overflow wraps it explicitly.
import Mathlib.Data.Nat.ModEq
import Mathlib.Logic.Function.Basic

namespace wspace_client

/-- An `unsigned char`. -/
abbrev Byte := BitVec 8

/-- The value that a `uint32` keeps of a result. -/
def u32 (x : Nat) : Nat := x % 2 ^ 32

/-- The `uint32` sum `a + b`. -/
def add32 (a b : Nat) : Nat := u32 (b + a)

/-- The `uint32` difference `a - b`. -/
def sub32 (a b : Nat) : Nat := u32 (2 ^ 32 - b + a)

theorem u32_lt (x : Nat) : u32 x < 2 ^ 32 := Nat.mod_lt _ (by decide)

theorem add32_lt (a b : Nat) : add32 a b < 2 ^ 32 := u32_lt _

theorem u32_of_lt {x : Nat} (h : x < 2 ^ 32) : u32 x = x := Nat.mod_eq_of_lt h

theorem u32_of_ge {x : Nat} (h : 2 ^ 32 ≤ x) (h2 : x < 2 * 2 ^ 32) : u32 x = x - 2 ^ 32 := by
  unfold u32
  rw [Nat.mod_eq_sub_mod h, Nat.mod_eq_of_lt (by omega)]

theorem add32_of_lt {a b : Nat} (h : a + b < 2 ^ 32) : add32 a b = a + b := by
  unfold add32
  rw [u32_of_lt (by omega), Nat.add_comm]

/-- A sum that overflows comes back below both of its terms. -/
theorem add32_of_ge {a b : Nat} (h : 2 ^ 32 ≤ a + b) (ha : a < 2 ^ 32) (hb : b < 2 ^ 32) :
    add32 a b = a + b - 2 ^ 32 := by
  unfold add32
  rw [u32_of_ge (by omega) (by omega), Nat.add_comm]

theorem sub32_of_le {a b : Nat} (h : b ≤ a) (ha : a < 2 ^ 32) : sub32 a b = a - b := by
  unfold sub32
  rw [u32_of_ge (by omega) (by omega)]
  omega

theorem sub32_zero_one : sub32 0 1 = 2 ^ 32 - 1 := by decide

/-! ## Counted loops -/

/-- The rule of a loop over `a`, `a + 1`, ..., `a + n - 1`. -/
theorem foldl_range'_rule {σ : Type} {f : σ → Nat → σ} {s : σ} {a n : Nat}
    (P : Nat → σ → Prop) (h0 : P a s)
    (hs : ∀ i s, a ≤ i → i < a + n → P i s → P (i + 1) (f s i)) :
    P (a + n) ((List.range' a n).foldl f s) := by
  induction n with
  | zero => exact h0
  | succ n ih =>
    rw [List.range'_1_concat, List.foldl_append]
    exact hs (a + n) _ (by omega) (by omega) (ih fun i s ha hi => hs i s ha (by omega))

/-- The rule of a loop over `0`, `1`, ..., `n - 1`. -/
theorem foldl_range_rule {σ : Type} {f : σ → Nat → σ} {s : σ} {n : Nat}
    (P : Nat → σ → Prop) (h0 : P 0 s) (hs : ∀ i s, i < n → P i s → P (i + 1) (f s i)) :
    P n ((List.range n).foldl f s) := by
  rw [List.range_eq_range']
  have h := foldl_range'_rule (a := 0) (n := n) P h0 fun i s _ hi => hs i s (by omega)
  rwa [Nat.zero_add] at h

/-- The rule of a loop over `n - 1`, ..., `1`, `0`. -/
theorem foldr_range_rule {σ : Type} {f : Nat → σ → σ} {s : σ} {n : Nat}
    (P : Nat → σ → Prop) (h0 : P n s) (hs : ∀ i s, i < n → P (i + 1) s → P i (f i s)) :
    P 0 ((List.range n).foldr f s) := by
  induction n generalizing s with
  | zero => exact h0
  | succ n ih =>
    rw [List.range_succ, List.foldr_append]
    exact ih (hs n s (Nat.lt_succ_self n) h0) fun i s hi => hs i s (by omega)

/-! ## Windows of a sequence space

A ring of `N` slots keeps the item with number `a` in slot `a % N`. Inside a
window of `N` numbers the slot determines the number. -/

theorem eq_of_mod_eq_of_window {N h a b : Nat} (ha : h ≤ a) (ha' : a < h + N) (hb : h ≤ b)
    (hb' : b < h + N) (hab : a % N = b % N) : a = b := by
  rcases Nat.le_total a b with hle | hle
  · have hd : N ∣ b - a := Nat.dvd_of_mod_eq_zero (Nat.sub_mod_eq_zero_of_mod_eq hab.symm)
    have h0 : b - a = 0 := Nat.eq_zero_of_dvd_of_lt hd (by omega)
    omega
  · have hd : N ∣ a - b := Nat.dvd_of_mod_eq_zero (Nat.sub_mod_eq_zero_of_mod_eq hab)
    have h0 : a - b = 0 := Nat.eq_zero_of_dvd_of_lt hd (by omega)
    omega

end wspace_client

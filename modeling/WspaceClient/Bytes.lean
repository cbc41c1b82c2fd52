-- Memory as bytes: copies of byte strings, and machine words with the least
-- significant byte first.
import WspaceClient.Words

namespace wspace_client.bytes

abbrev Mem := Nat → Byte

/-- `memcpy` of `len` bytes to an address. -/
def copy (m : Mem) (a len : Nat) (src : Nat → Byte) : Mem :=
  fun x => if a ≤ x ∧ x < a + len then src (x - a) else m x

/-- The word of `n` bytes at an address. -/
def read (m : Mem) (a : Nat) : Nat → Nat
  | 0 => 0
  | n + 1 => (m a).toNat + 256 * read m (a + 1) n

/-- The byte of a word with a weight of `256 ^ i`. -/
def byteOf (v i : Nat) : Byte := BitVec.ofNat 8 (v / 256 ^ i)

/-- Stores the low `n` bytes of a word. -/
def write (m : Mem) (a n v : Nat) : Mem := copy m a n (byteOf v)

/-- The bytes of an array of `uint16`. -/
def halves (arr : Nat → Nat) (i : Nat) : Byte := byteOf (arr (i / 2)) (i % 2)

theorem copy_inside {m : Mem} {a len : Nat} {src : Nat → Byte} {i : Nat} (h : i < len) :
    copy m a len src (a + i) = src i := by
  unfold copy
  rw [if_pos (by omega), Nat.add_sub_cancel_left]

theorem copy_outside {m : Mem} {a len : Nat} {src : Nat → Byte} {x : Nat}
    (h : x < a ∨ a + len ≤ x) : copy m a len src x = m x := by
  unfold copy
  exact if_neg (by omega)

theorem copy_congr {m : Mem} {a len : Nat} {src src' : Nat → Byte}
    (h : ∀ i < len, src i = src' i) : copy m a len src = copy m a len src' := by
  funext x
  unfold copy
  split
  · exact h _ (by omega)
  · rfl

theorem read_congr {m m' : Mem} {a n : Nat} (h : ∀ i < n, m (a + i) = m' (a + i)) :
    read m a n = read m' a n := by
  induction n generalizing a with
  | zero => rfl
  | succ n ih =>
    have h0 := h 0 (Nat.zero_lt_succ n)
    have hs : read m (a + 1) n = read m' (a + 1) n := ih fun i hi => by
      have hi' := h (i + 1) (Nat.succ_lt_succ hi)
      rwa [Nat.add_comm i 1, ← Nat.add_assoc] at hi'
    rw [read, read, hs, show m a = m' a from h0]

/-- A copy somewhere else keeps a word. -/
theorem read_copy {m : Mem} {a n c len : Nat} {src : Nat → Byte}
    (h : a + n ≤ c ∨ c + len ≤ a) : read (copy m c len src) a n = read m a n :=
  read_congr fun i hi => copy_outside (by omega)

theorem read_write {m : Mem} {a n c len v : Nat} (h : a + n ≤ c ∨ c + len ≤ a) :
    read (write m c len v) a n = read m a n := read_copy h

theorem read_lt (m : Mem) (a n : Nat) : read m a n < 256 ^ n := by
  induction n generalizing a with
  | zero => exact Nat.one_pos
  | succ n ih =>
    have hlt := ih (a + 1)
    have hb := (m a).isLt
    rw [read, Nat.pow_succ]
    omega

theorem toNat_byteOf (v i : Nat) : (byteOf v i).toNat = v / 256 ^ i % 256 := rfl

theorem byteOf_succ (v i : Nat) : byteOf v (i + 1) = byteOf (v / 256) i := by
  unfold byteOf
  rw [Nat.pow_succ', Nat.div_div_eq_div_mul]

/-- The bytes of a word, read as a word, are the word. -/
theorem read_bytes {m : Mem} {a n v : Nat} (hv : v < 256 ^ n)
    (h : ∀ i < n, m (a + i) = byteOf v i) : read m a n = v := by
  induction n generalizing a v with
  | zero =>
    rw [Nat.pow_zero] at hv
    rw [read]
    omega
  | succ n ih =>
    have h0 : (m a).toNat = v % 256 := by
      rw [show m a = byteOf v 0 from h 0 (Nat.zero_lt_succ n), toNat_byteOf, Nat.pow_zero,
        Nat.div_one]
    have hs : read m (a + 1) n = v / 256 := by
      apply ih
      · rw [Nat.pow_succ] at hv
        omega
      · intro i hi
        rw [Nat.add_assoc, Nat.add_comm 1 i, h (i + 1) (Nat.succ_lt_succ hi), byteOf_succ]
    rw [read, h0, hs]
    omega

theorem read_write_self {m : Mem} {a n v : Nat} (hv : v < 256 ^ n) :
    read (write m a n v) a n = v := read_bytes hv fun _ hi => copy_inside hi

/-- An entry of an array of `uint16` that was copied to an address. -/
theorem read_halves {m : Mem} {a k i : Nat} {arr : Nat → Nat} (hi : i < k)
    (harr : arr i < 2 ^ 16) : read (copy m a (2 * k) (halves arr)) (a + 2 * i) 2 = arr i := by
  apply read_bytes (by omega)
  intro j hj
  rw [Nat.add_assoc, copy_inside (by omega)]
  unfold halves
  rw [Nat.mul_add_div (by decide), Nat.mul_add_mod, Nat.div_eq_of_lt hj, Nat.mod_eq_of_lt hj,
    Nat.add_zero]

end wspace_client.bytes

-- `RxDataBuf`: the reorder buffer of one radio, as data, and what each
-- lock-protected section of its functions does to it.
import WspaceClient.Words

namespace wspace_client.rx_data_buf

def BUF_SIZE : Nat := 5000

/-- The `PKT_SIZE` in force where the buffer is declared. -/
def PKT_SIZE : Nat := 1472

theorem BUF_SIZE_pos : 0 < BUF_SIZE := by decide

theorem BUF_SIZE_lt : BUF_SIZE < 2 ^ 32 := by decide

inductive Status
  | kEmpty
  | kOccupiedNew
  | kBlock
  | kDrop
  | kRead
  deriving DecidableEq, Repr

/-- The bookkeeping of one slot. `timestamp` is the time the slot blocked, in
microseconds. -/
structure BookKeeping where
  seq_num : Nat
  status : Status
  len : Nat
  timestamp : Nat

/-- An index into the slots, so that no index check can fail. -/
abbrev Slot := Fin BUF_SIZE

/-- `pkt_buf` is the flat memory of the slots: slot `i` starts at byte
`i * PKT_SIZE`. -/
structure RxDataBuf where
  head_pt : Nat
  tail_pt : Nat
  book_keep_arr : Slot → BookKeeping
  pkt_buf : Nat → Byte

/-- The buffer as its constructor leaves it: every slot is empty. -/
def RxDataBuf.Fresh (b : RxDataBuf) : Prop :=
  b.head_pt = 0 ∧ b.tail_pt = 0 ∧ (∀ a, b.pkt_buf a = 0) ∧
    ∀ i, (b.book_keep_arr i).seq_num = 0 ∧ (b.book_keep_arr i).status = .kEmpty ∧
      (b.book_keep_arr i).len = 0

def indMod (x : Nat) : Slot := ⟨x % BUF_SIZE, Nat.mod_lt _ BUF_SIZE_pos⟩

def seq2Ind (seq : Nat) : Slot := indMod (sub32 seq 1)

/-! ## `BasicBuf` -/

def isFull (b : RxDataBuf) : Bool := decide (add32 b.head_pt BUF_SIZE = b.tail_pt)

def isEmpty (b : RxDataBuf) : Bool := decide (b.tail_pt = b.head_pt)

def headPtMod (b : RxDataBuf) : Slot := indMod b.head_pt

def incrementHeadPt (b : RxDataBuf) : RxDataBuf := { b with head_pt := add32 b.head_pt 1 }

/-- The buffer with the bookkeeping of one slot replaced. -/
def setSlot (b : RxDataBuf) (index : Slot) (k : BookKeeping) : RxDataBuf :=
  { b with book_keep_arr := Function.update b.book_keep_arr index k }

def updateBookKeeping (b : RxDataBuf) (index : Slot) (seq_num : Nat) (status : Status)
    (len : Nat) : RxDataBuf :=
  setSlot b index { b.book_keep_arr index with seq_num, status, len }

def setStatus (b : RxDataBuf) (index : Slot) (status : Status) : RxDataBuf :=
  setSlot b index { b.book_keep_arr index with status }

/-- `memcpy` of `len` bytes to the start of a slot. Nothing bounds `len`. -/
def storePkt (b : RxDataBuf) (index : Slot) (len : Nat) (pkt : Nat → Byte) : RxDataBuf :=
  { b with pkt_buf := fun a =>
      if index * PKT_SIZE ≤ a ∧ a < index * PKT_SIZE + len then pkt (a - index * PKT_SIZE)
      else b.pkt_buf a }

/-- `memcpy` of `len` bytes from the start of a slot. -/
def getPkt (b : RxDataBuf) (index : Slot) (len : Nat) : List Byte :=
  (List.range len).map fun j => b.pkt_buf (index * PKT_SIZE + j)

/-- What a read of the slot gives: the bytes that its bookkeeping counts. -/
def slotBytes (b : RxDataBuf) (index : Slot) : List Byte :=
  getPkt b index (b.book_keep_arr index).len

/-! ## `EnqueuePkt` -/

/-- The arguments of an `EnqueuePkt` call: a `uint32`, a `uint16` and a
pointer to the packet. -/
structure EnqueueArgs where
  seq_num : Nat
  pkt_len : Nat
  pkt : Nat → Byte
  seq_lt : seq_num < 2 ^ 32
  len_lt : pkt_len < 2 ^ 16

def EnqueueArgs.bytes (c : EnqueueArgs) : List Byte := (List.range c.pkt_len).map c.pkt

/-- The body of `while (IsFull())`: a blocked head slot is given up. -/
def fullDrop (b : RxDataBuf) : RxDataBuf :=
  if (b.book_keep_arr (headPtMod b)).status = .kBlock then setStatus b (headPtMod b) .kDrop
  else b

def isWrap (b : RxDataBuf) (seq_num : Nat) : Bool :=
  decide (seq_num > add32 b.head_pt BUF_SIZE)

/-- The section of the packet's own slot: a slot that holds a packet keeps it. -/
def store (b : RxDataBuf) (c : EnqueueArgs) : RxDataBuf :=
  if (b.book_keep_arr (seq2Ind c.seq_num)).status ≠ .kOccupiedNew then
    updateBookKeeping (storePkt b (seq2Ind c.seq_num) c.pkt_len c.pkt) (seq2Ind c.seq_num)
      c.seq_num .kOccupiedNew c.pkt_len
  else b

/-- The wrap-around: the pointers jump, and every other slot is cleared. -/
def wrapAround (b : RxDataBuf) (c : EnqueueArgs) : RxDataBuf :=
  { b with
    head_pt := sub32 c.seq_num 1
    tail_pt := c.seq_num
    book_keep_arr := fun i =>
      if i ≠ seq2Ind c.seq_num then
        { b.book_keep_arr i with seq_num := 0, status := .kEmpty, len := 0 }
      else b.book_keep_arr i }

/-- One turn of the loop that moves the tail: a slot that was read is cleared. -/
def clearRead (b : RxDataBuf) (index : Slot) : RxDataBuf :=
  if (b.book_keep_arr index).status = .kRead then updateBookKeeping b index 0 .kEmpty 0 else b

/-! ## `DequeuePkt` -/

/-- The case `kEmpty`: the slot blocks, and the time is noted. -/
def block (b : RxDataBuf) (index : Slot) (now : Nat) : RxDataBuf :=
  setSlot b index { b.book_keep_arr index with status := .kBlock, timestamp := now }

/-- The case `kOccupiedNew`: the packet is copied out, and its sequence
number stays in the slot. -/
def deliver (b : RxDataBuf) (index : Slot) : RxDataBuf :=
  incrementHeadPt (setStatus b index .kRead)

/-- The cases `kRead` and `kDrop`: the packet is given up. -/
def giveUp (b : RxDataBuf) (index : Slot) : RxDataBuf :=
  incrementHeadPt (updateBookKeeping b index 0 .kEmpty 0)

/-- After a wake-up `DequeuePkt` looks at the head slot again. It keeps its
index when the slot there has the number it waits for. -/
def relockIndex (b : RxDataBuf) (index : Slot) : Slot :=
  if (b.book_keep_arr index).seq_num ≠ add32 b.head_pt 1 then headPtMod b else index

/-! ## `FindNackSeqNum` -/

/-- A slot that the acknowledgement thread gives up. -/
def nackDrop (b : RxDataBuf) (index : Slot) (seq_num : Nat) : RxDataBuf :=
  setSlot b index { b.book_keep_arr index with status := .kDrop, seq_num }

/-- A hole of the scan: the slot is empty or blocked. -/
def isHole (k : BookKeeping) : Bool := k.status = .kEmpty || k.status = .kBlock

/-- A blocked slot whose block time is over. `block_time` is in milliseconds. -/
def isOverdue (k : BookKeeping) (block_time : Int) (end_time : Nat) : Bool :=
  k.status = .kBlock && decide ((end_time : Int) - k.timestamp > 1000 * block_time)

/-! ## What each section keeps -/

section frame

variable (b : RxDataBuf) (i : Slot) (c : EnqueueArgs)

@[simp] theorem setSlot_head (k : BookKeeping) : (setSlot b i k).head_pt = b.head_pt := rfl

@[simp] theorem setSlot_tail (k : BookKeeping) : (setSlot b i k).tail_pt = b.tail_pt := rfl

@[simp] theorem setSlot_pkt_buf (k : BookKeeping) : (setSlot b i k).pkt_buf = b.pkt_buf := rfl

@[simp] theorem setSlot_self (k : BookKeeping) : (setSlot b i k).book_keep_arr i = k := by
  simp [setSlot]

theorem setSlot_ne (k : BookKeeping) {j : Slot} (h : j ≠ i) :
    (setSlot b i k).book_keep_arr j = b.book_keep_arr j := by
  simp [setSlot, h]

@[simp] theorem updateBookKeeping_head (q len : Nat) (st : Status) :
    (updateBookKeeping b i q st len).head_pt = b.head_pt := by simp [updateBookKeeping]

@[simp] theorem updateBookKeeping_tail (q len : Nat) (st : Status) :
    (updateBookKeeping b i q st len).tail_pt = b.tail_pt := by simp [updateBookKeeping]

@[simp] theorem updateBookKeeping_pkt_buf (q len : Nat) (st : Status) :
    (updateBookKeeping b i q st len).pkt_buf = b.pkt_buf := by simp [updateBookKeeping]

@[simp] theorem setStatus_head (st : Status) : (setStatus b i st).head_pt = b.head_pt := by
  simp [setStatus]

@[simp] theorem setStatus_tail (st : Status) : (setStatus b i st).tail_pt = b.tail_pt := by
  simp [setStatus]

@[simp] theorem setStatus_pkt_buf (st : Status) : (setStatus b i st).pkt_buf = b.pkt_buf := by
  simp [setStatus]

@[simp] theorem storePkt_head (len : Nat) (pkt : Nat → Byte) :
    (storePkt b i len pkt).head_pt = b.head_pt := rfl

@[simp] theorem storePkt_tail (len : Nat) (pkt : Nat → Byte) :
    (storePkt b i len pkt).tail_pt = b.tail_pt := rfl

@[simp] theorem storePkt_slots (len : Nat) (pkt : Nat → Byte) :
    (storePkt b i len pkt).book_keep_arr = b.book_keep_arr := rfl

@[simp] theorem store_head : (store b c).head_pt = b.head_pt := by
  unfold store
  split <;> simp

@[simp] theorem store_tail : (store b c).tail_pt = b.tail_pt := by
  unfold store
  split <;> simp

theorem store_ne {j : Slot} (h : j ≠ seq2Ind c.seq_num) :
    (store b c).book_keep_arr j = b.book_keep_arr j := by
  unfold store
  split
  · exact setSlot_ne _ _ _ h
  · rfl

/-- After the store, the packet's slot holds a packet: this one, unless one
was there before. -/
theorem store_self :
    (store b c).book_keep_arr (seq2Ind c.seq_num) =
      if (b.book_keep_arr (seq2Ind c.seq_num)).status = .kOccupiedNew then
        b.book_keep_arr (seq2Ind c.seq_num)
      else
        { b.book_keep_arr (seq2Ind c.seq_num) with
          seq_num := c.seq_num, status := .kOccupiedNew, len := c.pkt_len } := by
  unfold store
  by_cases h : (b.book_keep_arr (seq2Ind c.seq_num)).status = .kOccupiedNew
  · simp [h]
  · simp [h, updateBookKeeping]

theorem store_status :
    ((store b c).book_keep_arr (seq2Ind c.seq_num)).status = .kOccupiedNew := by
  rw [store_self]
  split
  · assumption
  · rfl

@[simp] theorem fullDrop_head : (fullDrop b).head_pt = b.head_pt := by
  unfold fullDrop
  split <;> simp

@[simp] theorem fullDrop_tail : (fullDrop b).tail_pt = b.tail_pt := by
  unfold fullDrop
  split <;> simp

@[simp] theorem fullDrop_pkt_buf : (fullDrop b).pkt_buf = b.pkt_buf := by
  unfold fullDrop
  split <;> simp

@[simp] theorem clearRead_head : (clearRead b i).head_pt = b.head_pt := by
  unfold clearRead
  split <;> simp

@[simp] theorem clearRead_tail : (clearRead b i).tail_pt = b.tail_pt := by
  unfold clearRead
  split <;> simp

@[simp] theorem clearRead_pkt_buf : (clearRead b i).pkt_buf = b.pkt_buf := by
  unfold clearRead
  split <;> simp

end frame

/-! ## Full, empty and past the window -/

theorem isEmpty_iff_tail (b : RxDataBuf) : isEmpty b ↔ b.tail_pt = b.head_pt := by simp [isEmpty]

/-- With the tail in the window, the buffer is full when the tail is at its end. -/
theorem isFull_iff {b : RxDataBuf} (h : b.head_pt ≤ b.tail_pt) (ht : b.tail_pt < 2 ^ 32) :
    isFull b ↔ b.tail_pt = b.head_pt + BUF_SIZE := by
  have hN := BUF_SIZE_lt
  simp only [isFull, decide_eq_true_eq]
  by_cases hlt : b.head_pt + BUF_SIZE < 2 ^ 32
  · rw [add32_of_lt hlt]
    omega
  · rw [add32_of_ge (by omega) (by omega) (by omega)]
    omega

/-- A number past the head that takes no wrap-around is inside the window. -/
theorem le_of_not_isWrap {b : RxDataBuf} {q : Nat} (hw : ¬isWrap b q)
    (hh : b.head_pt < 2 ^ 32) : q ≤ b.head_pt + BUF_SIZE := by
  have hN := BUF_SIZE_lt
  simp only [isWrap, decide_eq_true_eq, Nat.not_lt] at hw
  by_cases hlt : b.head_pt + BUF_SIZE < 2 ^ 32
  · rwa [add32_of_lt hlt] at hw
  · rw [add32_of_ge (by omega) hh hN] at hw
    omega

theorem lt_of_isWrap {b : RxDataBuf} {q : Nat} (hw : isWrap b q)
    (hh : b.head_pt + BUF_SIZE < 2 ^ 32) : b.head_pt + BUF_SIZE < q := by
  simpa [isWrap, add32_of_lt hh] using hw

/-! ## Slots and numbers -/

theorem seq2Ind_succ {x : Nat} (h : x + 1 < 2 ^ 32) : seq2Ind (x + 1) = indMod x := by
  unfold seq2Ind
  rw [sub32_of_le (by omega) h]
  rfl

theorem seq2Ind_add32_one {x : Nat} (h : x < 2 ^ 32) : seq2Ind (add32 x 1) = indMod x := by
  by_cases hx : x + 1 < 2 ^ 32
  · rw [add32_of_lt hx, seq2Ind_succ hx]
  · have hx : x = 2 ^ 32 - 1 := by omega
    have h0 : add32 x 1 = 0 := by rw [hx]; decide
    rw [h0, hx, seq2Ind, sub32_zero_one]

/-- In a window of the sequence space the slot determines the number. -/
theorem eq_of_seq2Ind_eq {h q r : Nat} (hq : h < q) (hq' : q ≤ h + BUF_SIZE) (hr : h < r)
    (hr' : r ≤ h + BUF_SIZE) (hql : q < 2 ^ 32) (hrl : r < 2 ^ 32)
    (he : seq2Ind q = seq2Ind r) : q = r := by
  obtain ⟨x, rfl⟩ : ∃ x, q = x + 1 := ⟨q - 1, by omega⟩
  obtain ⟨y, rfl⟩ : ∃ y, r = y + 1 := ⟨r - 1, by omega⟩
  rw [seq2Ind_succ hql, seq2Ind_succ hrl] at he
  have hxy : x = y := eq_of_mod_eq_of_window (h := h) (N := BUF_SIZE) (by omega) (by omega)
    (by omega) (by omega) (congrArg Fin.val he)
  omega

/-- Every slot records no number, or a number of its own. -/
def Aligned (b : RxDataBuf) : Prop :=
  ∀ i, (b.book_keep_arr i).seq_num = 0 ∨
    ((b.book_keep_arr i).seq_num < 2 ^ 32 ∧ seq2Ind (b.book_keep_arr i).seq_num = i)

theorem Aligned.setSlot {b : RxDataBuf} (h : Aligned b) (i : Slot) (k : BookKeeping)
    (hk : k.seq_num = 0 ∨ (k.seq_num < 2 ^ 32 ∧ seq2Ind k.seq_num = i)) :
    Aligned (setSlot b i k) := by
  intro j
  by_cases hj : j = i
  · subst hj
    simpa using hk
  · rw [setSlot_ne _ _ _ hj]
    exact h j

/-- A change of the status alone keeps the numbers. -/
theorem Aligned.setStatus {b : RxDataBuf} (h : Aligned b) (i : Slot) (st : Status) :
    Aligned (setStatus b i st) := h.setSlot i _ (h i)

theorem Aligned.clear {b : RxDataBuf} (h : Aligned b) (i : Slot) :
    Aligned (updateBookKeeping b i 0 .kEmpty 0) := h.setSlot i _ (.inl rfl)

theorem Aligned.fullDrop {b : RxDataBuf} (h : Aligned b) : Aligned (fullDrop b) := by
  unfold rx_data_buf.fullDrop
  split
  · exact h.setStatus _ _
  · exact h

theorem Aligned.store {b : RxDataBuf} (h : Aligned b) (c : EnqueueArgs) :
    Aligned (store b c) := by
  unfold rx_data_buf.store
  split
  · exact Aligned.setSlot (b := storePkt b _ _ _) h _ _ (.inr ⟨c.seq_lt, rfl⟩)
  · exact h

theorem Aligned.wrapAround {b : RxDataBuf} (h : Aligned b) (c : EnqueueArgs) :
    Aligned (wrapAround b c) := by
  intro i
  by_cases hi : i = seq2Ind c.seq_num
  · simpa [rx_data_buf.wrapAround, hi] using h (seq2Ind c.seq_num)
  · left
    simp [rx_data_buf.wrapAround, hi]

theorem Aligned.clearRead {b : RxDataBuf} (h : Aligned b) (i : Slot) :
    Aligned (clearRead b i) := by
  unfold rx_data_buf.clearRead
  split
  · exact h.clear i
  · exact h

/-- After a wake-up the consumer looks at the head slot: either it takes the
index of the head, or the number in its slot is the one past the head. -/
theorem relockIndex_eq {b : RxDataBuf} (ha : Aligned b) (hh : b.head_pt + 1 < 2 ^ 32)
    (i : Slot) : relockIndex b i = headPtMod b := by
  unfold relockIndex
  split
  · rfl
  · rename_i hs
    simp only [add32_of_lt hh, ne_eq, Decidable.not_not] at hs
    rcases ha i with h0 | ⟨_, h1⟩
    · omega
    · rw [← h1, hs, seq2Ind_succ hh]
      rfl

end wspace_client.rx_data_buf

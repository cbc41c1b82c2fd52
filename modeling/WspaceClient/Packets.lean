-- The packets of the buffer, as a reorder queue: what is stored under each
-- number of the window, and what each section of the code does to it.
import WspaceClient.Reorder
import WspaceClient.RxDataBuf

namespace wspace_client.rx_data_buf

open reorder machine

/-- The slot of the number holds a packet, and the number is in the window. -/
def Stored (b : RxDataBuf) (q : Nat) : Prop :=
  b.head_pt < q ∧ q ≤ b.head_pt + BUF_SIZE ∧ q < 2 ^ 32 ∧
    (b.book_keep_arr (seq2Ind q)).status = .kOccupiedNew

instance (b : RxDataBuf) (q : Nat) : Decidable (Stored b q) := inferInstanceAs (Decidable (_ ∧ _))

/-- The packets past the head, by number. -/
def packets (b : RxDataBuf) : Queue (List Byte) where
  head := b.head_pt
  store q := if Stored b q then some (slotBytes b (seq2Ind q)) else none

theorem packets_of_stored {b : RxDataBuf} {q : Nat} (h : Stored b q) :
    (packets b).store q = some (slotBytes b (seq2Ind q)) := if_pos h

theorem packets_of_not_stored {b : RxDataBuf} {q : Nat} (h : ¬Stored b q) :
    (packets b).store q = none := if_neg h

theorem stored_of_packets {b : RxDataBuf} {q : Nat} {bs : List Byte}
    (h : (packets b).store q = some bs) : Stored b q ∧ slotBytes b (seq2Ind q) = bs := by
  simp only [packets] at h
  split at h
  · cases h
    exact ⟨‹_›, rfl⟩
  · cases h

/-- A queue with the same head and the same packets. -/
theorem packets_eq {b : RxDataBuf} {s : Queue (List Byte)} (hh : s.head = b.head_pt)
    (hst : ∀ q, Stored b q → s.store q = some (slotBytes b (seq2Ind q)))
    (hno : ∀ q, ¬Stored b q → s.store q = none) : packets b = s := by
  obtain ⟨hd, st⟩ := s
  simp only at hh hst hno
  subst hh
  simp only [packets, Queue.mk.injEq, true_and]
  funext q
  split
  · exact (hst q ‹_›).symm
  · exact (hno q ‹_›).symm

/-- Every slot that holds a packet has the property. -/
def EachPacket (b : RxDataBuf) (P : BookKeeping → Prop) : Prop :=
  ∀ i, (b.book_keep_arr i).status = .kOccupiedNew → P (b.book_keep_arr i)

/-- Every packet fits its slot. -/
def Fits (b : RxDataBuf) : Prop := EachPacket b fun k => k.len ≤ PKT_SIZE

/-- Every packet was stored for a number of the window. -/
def Placed (b : RxDataBuf) : Prop :=
  EachPacket b fun k => b.head_pt < k.seq_num ∧ k.seq_num ≤ b.head_pt + BUF_SIZE

/-- No packet was stored for a number past the window. -/
def Below (b : RxDataBuf) : Prop := EachPacket b fun k => k.seq_num ≤ b.head_pt + BUF_SIZE

theorem Placed.below {b : RxDataBuf} (h : Placed b) : Below b := fun i hi => (h i hi).2

/-- The number in a slot that holds a packet is the number of its place. -/
theorem Placed.seq_num {b : RxDataBuf} (h : Placed b) (ha : Aligned b) {q : Nat}
    (hs : Stored b q) : (b.book_keep_arr (seq2Ind q)).seq_num = q := by
  obtain ⟨hq, hqw, hql, hocc⟩ := hs
  obtain ⟨hr, hrw⟩ := h _ hocc
  rcases ha (seq2Ind q) with h0 | ⟨hrl, hslot⟩
  · omega
  · exact eq_of_seq2Ind_eq hr hrw hq hqw hrl hql hslot

/-! ## Bytes -/

theorem getPkt_storePkt_self (b : RxDataBuf) (i : Slot) (len : Nat) (pkt : Nat → Byte) :
    getPkt (storePkt b i len pkt) i len = (List.range len).map pkt := by
  refine List.map_congr_left fun j hj => ?_
  rw [List.mem_range] at hj
  simp only [storePkt]
  rw [if_pos (by omega), Nat.add_sub_cancel_left]

/-- A packet that fits its slot leaves the bytes of the other slots alone. -/
theorem getPkt_storePkt_ne (b : RxDataBuf) {i j : Slot} (hij : i ≠ j) {len n : Nat}
    (hlen : len ≤ PKT_SIZE) (hn : n ≤ PKT_SIZE) (pkt : Nat → Byte) :
    getPkt (storePkt b j len pkt) i n = getPkt b i n := by
  refine List.map_congr_left fun k hk => ?_
  rw [List.mem_range] at hk
  simp only [storePkt]
  apply if_neg
  have hne : i.val ≠ j.val := fun h => hij (Fin.ext h)
  rcases Nat.lt_or_gt_of_ne hne with hlt | hlt
  · have := Nat.mul_le_mul_right PKT_SIZE (Nat.succ_le_of_lt hlt)
    rw [Nat.succ_mul] at this
    omega
  · have := Nat.mul_le_mul_right PKT_SIZE (Nat.succ_le_of_lt hlt)
    rw [Nat.succ_mul] at this
    omega

theorem slotBytes_store_self {b : RxDataBuf} {c : EnqueueArgs}
    (h : (b.book_keep_arr (seq2Ind c.seq_num)).status ≠ .kOccupiedNew) :
    slotBytes (store b c) (seq2Ind c.seq_num) = c.bytes := by
  have hlen : ((store b c).book_keep_arr (seq2Ind c.seq_num)).len = c.pkt_len := by
    rw [store_self, if_neg h]
  rw [slotBytes, hlen]
  simp only [store, ne_eq, h, not_false_eq_true, if_true]
  exact getPkt_storePkt_self b _ _ _

theorem slotBytes_store_ne {b : RxDataBuf} {c : EnqueueArgs} {i : Slot} (hf : Fits b)
    (hlen : c.pkt_len ≤ PKT_SIZE) (hi : i ≠ seq2Ind c.seq_num)
    (hocc : (b.book_keep_arr i).status = .kOccupiedNew) :
    slotBytes (store b c) i = slotBytes b i := by
  rw [slotBytes, slotBytes, store_ne _ _ hi]
  unfold store
  split
  · exact getPkt_storePkt_ne b hi hlen (hf i hocc) _
  · rfl

/-! ## Sections that move no packet -/

/-- A change of a slot that neither held a packet nor holds one. -/
theorem packets_setSlot {b : RxDataBuf} {i : Slot} {k : BookKeeping}
    (h : (b.book_keep_arr i).status ≠ .kOccupiedNew) (hk : k.status ≠ .kOccupiedNew) :
    packets (setSlot b i k) = packets b := by
  have hst : ∀ q, Stored (setSlot b i k) q ↔ Stored b q := by
    intro q
    by_cases hq : seq2Ind q = i
    · simp [Stored, hq, h, hk]
    · simp only [Stored, setSlot_head, setSlot_ne _ _ _ hq]
  refine packets_eq rfl (fun q hq => ?_) (fun q hq => ?_)
  · have hne : seq2Ind q ≠ i := by
      rintro rfl
      exact h ((hst q).mp hq).2.2.2
    rw [packets_of_stored ((hst q).mp hq), slotBytes, slotBytes, setSlot_ne _ _ _ hne]
    rfl
  · exact packets_of_not_stored (fun h' => hq ((hst q).mpr h'))

theorem EachPacket.setSlot {b : RxDataBuf} {P : BookKeeping → Prop} (h : EachPacket b P)
    {i : Slot} {k : BookKeeping} (hk : k.status ≠ .kOccupiedNew) :
    EachPacket (setSlot b i k) P := by
  intro j hj
  by_cases hji : j = i
  · subst hji
    rw [setSlot_self] at hj
    exact absurd hj hk
  · rw [setSlot_ne _ _ _ hji] at hj ⊢
    exact h j hj

/-! ## The store -/

theorem window_slot_ne {b : RxDataBuf} {q r : Nat} (hq : b.head_pt < q)
    (hqw : q ≤ b.head_pt + BUF_SIZE) (hql : q < 2 ^ 32) (hr : b.head_pt < r)
    (hrw : r ≤ b.head_pt + BUF_SIZE) (hrl : r < 2 ^ 32) (hne : r ≠ q) : seq2Ind r ≠ seq2Ind q :=
  fun he => hne (eq_of_seq2Ind_eq hr hrw hq hqw hrl hql he)

/-- Beside its own number, the store leaves the window alone. -/
theorem stored_store_ne {b : RxDataBuf} {c : EnqueueArgs} {r : Nat} (hs : b.head_pt < c.seq_num)
    (hw : c.seq_num ≤ b.head_pt + BUF_SIZE) (hr : r ≠ c.seq_num) :
    Stored (store b c) r ↔ Stored b r := by
  simp only [Stored, store_head]
  refine and_congr_right fun h1 => and_congr_right fun h2 => and_congr_right fun h3 => ?_
  rw [store_ne _ _ (window_slot_ne hs hw c.seq_lt h1 h2 h3 hr)]

/-- The store puts the packet under its number, where the first one stands. -/
theorem packets_store {b : RxDataBuf} {c : EnqueueArgs} (hf : Fits b)
    (hlen : c.pkt_len ≤ PKT_SIZE) (hs : b.head_pt < c.seq_num)
    (hw : c.seq_num ≤ b.head_pt + BUF_SIZE) :
    packets (store b c) = ⟨b.head_pt, Function.update (packets b).store c.seq_num
      (some (((packets b).store c.seq_num).getD c.bytes))⟩ := by
  have hnew : Stored (store b c) c.seq_num := by
    refine ⟨?_, ?_, c.seq_lt, store_status b c⟩
    · rwa [store_head]
    · rwa [store_head]
  refine packets_eq (store_head b c).symm (fun r hr => ?_) (fun r hr => ?_)
  · by_cases hrq : r = c.seq_num
    · subst hrq
      simp only [Function.update_self]
      by_cases hocc : (b.book_keep_arr (seq2Ind c.seq_num)).status = .kOccupiedNew
      · have hsame : store b c = b := if_neg (not_not.mpr hocc)
        rw [packets_of_stored ⟨hs, hw, c.seq_lt, hocc⟩, hsame]
        rfl
      · rw [packets_of_not_stored (fun h => hocc h.2.2.2), slotBytes_store_self hocc]
        rfl
    · have hst := (stored_store_ne hs hw hrq).mp hr
      simp only [Function.update_of_ne hrq]
      rw [packets_of_stored hst, slotBytes_store_ne hf hlen _ hst.2.2.2]
      exact window_slot_ne hs hw c.seq_lt hst.1 hst.2.1 hst.2.2.1 hrq
  · have hrq : r ≠ c.seq_num := by
      rintro rfl
      exact hr hnew
    simp only [Function.update_of_ne hrq]
    exact packets_of_not_stored (fun h => hr ((stored_store_ne hs hw hrq).mpr h))

theorem EachPacket.store {b : RxDataBuf} {P : BookKeeping → Prop} (h : EachPacket b P)
    {c : EnqueueArgs} (hc : ∀ k : BookKeeping, k.seq_num = c.seq_num → k.len = c.pkt_len → P k) :
    EachPacket (store b c) P := by
  intro i hi
  by_cases hic : i = seq2Ind c.seq_num
  · subst hic
    rw [store_self]
    split
    · exact h _ ‹_›
    · exact hc _ rfl rfl
  · rw [store_ne _ _ hic] at hi ⊢
    exact h i hi

theorem Fits.store {b : RxDataBuf} (h : Fits b) {c : EnqueueArgs} (hlen : c.pkt_len ≤ PKT_SIZE) :
    Fits (store b c) :=
  EachPacket.store h fun k _ hk => by rwa [hk]

theorem Placed.store {b : RxDataBuf} (h : Placed b) {c : EnqueueArgs}
    (hs : b.head_pt < c.seq_num) (hw : c.seq_num ≤ b.head_pt + BUF_SIZE) :
    Placed (store b c) := by
  rw [Placed, store_head]
  exact EachPacket.store h fun k hk _ => by rw [hk]; exact ⟨hs, hw⟩

theorem Below.store {b : RxDataBuf} (h : Below b) {c : EnqueueArgs}
    (hw : c.seq_num ≤ b.head_pt + BUF_SIZE) : Below (store b c) := by
  rw [Below, store_head]
  exact EachPacket.store h fun k hk _ => by rwa [hk]

/-! ## The wrap-around -/

/-- The buffer holds the packet of the call, and nothing else. -/
structure HoldsOnly (b : RxDataBuf) (c : EnqueueArgs) : Prop where
  head_pt : b.head_pt = c.seq_num - 1
  tail_pt : b.tail_pt = c.seq_num
  status : (b.book_keep_arr (seq2Ind c.seq_num)).status = .kOccupiedNew
  seq_num : (b.book_keep_arr (seq2Ind c.seq_num)).seq_num = c.seq_num
  len : (b.book_keep_arr (seq2Ind c.seq_num)).len = c.pkt_len
  bytes : slotBytes b (seq2Ind c.seq_num) = c.bytes
  others : ∀ i, i ≠ seq2Ind c.seq_num → (b.book_keep_arr i).status = .kEmpty

@[simp] theorem wrapAround_self (b : RxDataBuf) (c : EnqueueArgs) :
    (wrapAround b c).book_keep_arr (seq2Ind c.seq_num) = b.book_keep_arr (seq2Ind c.seq_num) := by
  simp [wrapAround]

theorem wrapAround_ne (b : RxDataBuf) (c : EnqueueArgs) {i : Slot} (hi : i ≠ seq2Ind c.seq_num) :
    ((wrapAround b c).book_keep_arr i).status = .kEmpty := by
  simp [wrapAround, hi]

theorem slotBytes_wrapAround (b : RxDataBuf) (c : EnqueueArgs) :
    slotBytes (wrapAround b c) (seq2Ind c.seq_num) = slotBytes b (seq2Ind c.seq_num) := by
  rw [slotBytes, wrapAround_self]
  rfl

/-- A wrap-around leaves exactly the new packet, unless another packet held
its slot. -/
theorem holdsOnly_wrapAround {b : RxDataBuf} {c : EnqueueArgs} (hb : Below b)
    (hs : b.head_pt + BUF_SIZE < c.seq_num) :
    HoldsOnly (wrapAround (store b c) c) c ↔
      (b.book_keep_arr (seq2Ind c.seq_num)).status ≠ .kOccupiedNew := by
  constructor
  · intro h hocc
    have hseq := h.seq_num
    rw [wrapAround_self, store_self, if_pos hocc] at hseq
    have := hb _ hocc
    omega
  · intro hocc
    have hhead : (wrapAround (store b c) c).head_pt = c.seq_num - 1 :=
      sub32_of_le (by omega) c.seq_lt
    refine ⟨hhead, rfl, ?_, ?_, ?_, ?_, fun i hi => wrapAround_ne _ _ hi⟩
    · rw [wrapAround_self]
      exact store_status b c
    · rw [wrapAround_self, store_self, if_neg hocc]
    · rw [wrapAround_self, store_self, if_neg hocc]
    · rw [slotBytes_wrapAround, slotBytes_store_self hocc]

/-- A buffer that holds one packet alone is the queue after a jump. -/
theorem HoldsOnly.packets {b : RxDataBuf} {c : EnqueueArgs} (h : HoldsOnly b c)
    (hs : 0 < c.seq_num) :
    packets b = ⟨c.seq_num - 1, Function.update (fun _ => none) c.seq_num (some c.bytes)⟩ := by
  have hN := BUF_SIZE_pos
  have hlt := c.seq_lt
  have hst : ∀ r, Stored b r ↔ r = c.seq_num := by
    intro r
    rw [Stored, h.head_pt]
    constructor
    · rintro ⟨h1, h2, h3, hocc⟩
      by_contra hr
      have hne : seq2Ind r ≠ seq2Ind c.seq_num := fun he =>
        hr (eq_of_seq2Ind_eq h1 h2 (by omega) (by omega) h3 hlt he)
      rw [h.others _ hne] at hocc
      cases hocc
    · rintro rfl
      exact ⟨by omega, by omega, hlt, h.status⟩
  refine packets_eq h.head_pt.symm (fun r hr => ?_) (fun r hr => ?_)
  · rw [hst] at hr
    subst hr
    simp only [Function.update_self, h.bytes]
  · have hrq : r ≠ c.seq_num := fun he => hr ((hst r).mpr he)
    simp only [Function.update_of_ne hrq]

theorem HoldsOnly.each {b : RxDataBuf} {c : EnqueueArgs} {P : BookKeeping → Prop}
    (h : HoldsOnly b c)
    (hc : ∀ k : BookKeeping, k.seq_num = c.seq_num → k.len = c.pkt_len → P k) :
    EachPacket b P := by
  intro i hi
  by_cases hic : i = seq2Ind c.seq_num
  · subst hic
    exact hc _ h.seq_num h.len
  · rw [h.others i hic] at hi
    cases hi

theorem HoldsOnly.placed {b : RxDataBuf} {c : EnqueueArgs} (h : HoldsOnly b c)
    (hs : 0 < c.seq_num) : Placed b := by
  have hN := BUF_SIZE_pos
  refine h.each fun k hk _ => ?_
  rw [hk, h.head_pt]
  omega

theorem HoldsOnly.fits {b : RxDataBuf} {c : EnqueueArgs} (h : HoldsOnly b c)
    (hlen : c.pkt_len ≤ PKT_SIZE) : Fits b :=
  h.each fun k _ hk => by rwa [hk]

theorem Below.wrapAround {b : RxDataBuf} {c : EnqueueArgs} (h : Below b)
    (hs : b.head_pt + BUF_SIZE < c.seq_num) :
    Below (rx_data_buf.wrapAround (rx_data_buf.store b c) c) := by
  have hN := BUF_SIZE_pos
  have hhead : (rx_data_buf.wrapAround (rx_data_buf.store b c) c).head_pt = c.seq_num - 1 :=
    sub32_of_le (by omega) c.seq_lt
  rw [Below, hhead]
  intro i hi
  by_cases hic : i = seq2Ind c.seq_num
  · subst hic
    rw [wrapAround_self, store_self]
    split
    · have := h _ ‹_›
      simp only at this ⊢
      omega
    · simp only
      omega
  · rw [wrapAround_ne _ _ hic] at hi
    cases hi

/-! ## The head moves -/

theorem headPtMod_eq {b : RxDataBuf} (h : b.head_pt + 1 < 2 ^ 32) :
    headPtMod b = seq2Ind (b.head_pt + 1) := (seq2Ind_succ h).symm

/-- The slot of the head is the one that enters the window when the head moves. -/
theorem seq2Ind_add_BUF_SIZE {q : Nat} (h0 : 0 < q) (h : q + BUF_SIZE < 2 ^ 32) :
    seq2Ind (q + BUF_SIZE) = seq2Ind q := by
  obtain ⟨x, rfl⟩ : ∃ x, q = x + 1 := ⟨q - 1, by omega⟩
  have he : x + 1 + BUF_SIZE = x + BUF_SIZE + 1 := by omega
  rw [he] at h ⊢
  rw [seq2Ind_succ h, seq2Ind_succ (by omega)]
  exact Fin.ext (Nat.add_mod_right x BUF_SIZE)

/-- The head moves by one, and the slot that it passes holds no packet after. -/
theorem stored_advance {b b' : RxDataBuf} {q : Nat} (hlt : b.head_pt + 1 < 2 ^ 32)
    (hh : b'.head_pt = b.head_pt + 1)
    (hself : (b'.book_keep_arr (headPtMod b)).status ≠ .kOccupiedNew)
    (hne : ∀ i, i ≠ headPtMod b → b'.book_keep_arr i = b.book_keep_arr i) :
    Stored b' q ↔ Stored b q ∧ q ≠ b.head_pt + 1 := by
  rw [headPtMod_eq hlt] at hself hne
  by_cases hslot : seq2Ind q = seq2Ind (b.head_pt + 1)
  · constructor
    · rintro ⟨-, -, -, hocc⟩
      rw [hslot] at hocc
      exact absurd hocc hself
    · rintro ⟨⟨h1, h2, h3, -⟩, hq⟩
      have hN := BUF_SIZE_pos
      exact absurd (eq_of_seq2Ind_eq h1 h2 (by omega) (by omega) h3 hlt hslot) hq
  · have hq : q ≠ b.head_pt + 1 := fun he => hslot (he ▸ rfl)
    have hout : q ≠ b.head_pt + 1 + BUF_SIZE ∨ ¬q < 2 ^ 32 := by
      by_contra hcon
      rw [not_or, not_not, not_not] at hcon
      obtain ⟨rfl, hl⟩ := hcon
      exact hslot (seq2Ind_add_BUF_SIZE (by omega) hl)
    rw [Stored, Stored, hh, hne _ hslot]
    constructor
    · rintro ⟨h1, h2, h3, h4⟩
      exact ⟨⟨by omega, by omega, h3, h4⟩, hq⟩
    · rintro ⟨⟨h1, h2, h3, h4⟩, -⟩
      exact ⟨by omega, by omega, h3, h4⟩

/-- The packets after the head moved by one. -/
theorem packets_advance {b b' : RxDataBuf} (hlt : b.head_pt + 1 < 2 ^ 32)
    (hh : b'.head_pt = b.head_pt + 1)
    (hself : (b'.book_keep_arr (headPtMod b)).status ≠ .kOccupiedNew)
    (hne : ∀ i, i ≠ headPtMod b → b'.book_keep_arr i = b.book_keep_arr i)
    (hb : b'.pkt_buf = b.pkt_buf) :
    packets b' = ⟨b.head_pt + 1, Function.update (packets b).store (b.head_pt + 1) none⟩ := by
  have hst : ∀ q, Stored b' q ↔ Stored b q ∧ q ≠ b.head_pt + 1 :=
    fun q => stored_advance hlt hh hself hne
  refine packets_eq hh.symm (fun q hq => ?_) (fun q hq => ?_)
  · obtain ⟨hq, hqh⟩ := (hst q).mp hq
    have hslot : seq2Ind q ≠ headPtMod b := by
      rw [headPtMod_eq hlt]
      have hN := BUF_SIZE_pos
      exact window_slot_ne (by omega) (by omega) hlt hq.1 hq.2.1 hq.2.2.1 hqh
    simp only [Function.update_of_ne hqh]
    rw [packets_of_stored hq, slotBytes, slotBytes, hne _ hslot]
    simp only [getPkt, hb]
  · by_cases hqh : q = b.head_pt + 1
    · subst hqh
      simp only [Function.update_self]
    · simp only [Function.update_of_ne hqh]
      exact packets_of_not_stored (fun h => hq ((hst q).mpr ⟨h, hqh⟩))

theorem EachPacket.advance {b b' : RxDataBuf} {P : BookKeeping → Prop} (h : EachPacket b P)
    (hself : (b'.book_keep_arr (headPtMod b)).status ≠ .kOccupiedNew)
    (hne : ∀ i, i ≠ headPtMod b → b'.book_keep_arr i = b.book_keep_arr i) : EachPacket b' P := by
  intro i hi
  by_cases hih : i = headPtMod b
  · subst hih
    exact absurd hi hself
  · rw [hne i hih] at hi ⊢
    exact h i hi

theorem Below.advance {b b' : RxDataBuf} (h : Below b) (hh : b.head_pt ≤ b'.head_pt)
    (hself : (b'.book_keep_arr (headPtMod b)).status ≠ .kOccupiedNew)
    (hne : ∀ i, i ≠ headPtMod b → b'.book_keep_arr i = b.book_keep_arr i) : Below b' := by
  intro i hi
  have := EachPacket.advance h hself hne i hi
  simp only at this ⊢
  omega

/-- The packet that the head passes was the only one with its number. -/
theorem Placed.advance {b b' : RxDataBuf} (h : Placed b) (ha : Aligned b)
    (hlt : b.head_pt + 1 < 2 ^ 32) (hh : b'.head_pt = b.head_pt + 1)
    (hself : (b'.book_keep_arr (headPtMod b)).status ≠ .kOccupiedNew)
    (hne : ∀ i, i ≠ headPtMod b → b'.book_keep_arr i = b.book_keep_arr i) : Placed b' := by
  intro i hi
  obtain ⟨h1, h2⟩ := EachPacket.advance h hself hne i hi
  have hih : i ≠ headPtMod b := by
    rintro rfl
    exact hself hi
  have hnot : (b'.book_keep_arr i).seq_num ≠ b.head_pt + 1 := by
    rw [hne i hih]
    intro he
    rcases ha i with h0 | ⟨-, hs⟩
    · omega
    · rw [he, ← headPtMod_eq hlt] at hs
      exact hih hs.symm
  omega

end wspace_client.rx_data_buf

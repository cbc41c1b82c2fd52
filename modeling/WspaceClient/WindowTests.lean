-- The window tests of `EnqueuePkt`, over whole calls: from the full check up to the
-- return, with the other threads in between. The end of the window is a `uint32`
-- sum, and the tests are exact unless it overflows.
import WspaceClient.Feed
import WspaceClient.Isolation
import WspaceClient.NackList
import WspaceClient.SlotMoves

namespace wspace_client.threads

open machine batch_info rx_data_buf

/-! ## One call -/

/-- A call of `EnqueuePkt` that passed its full check in `s`, and the steps of all
threads since, up to its return. -/
inductive Enqueues (cfg : Config) (p : Producer) (c : EnqueueArgs) (s : Radio) :
    Radio → List Event → Prop
  | passes {t : Radio} {pick : Pick} {out : List Event} (hent : Entering s p c)
      (hf : ¬isFull s.buf) (hs : step cfg s (.prod p pick) = some (t, out)) :
      Enqueues cfg p c s t out
  | next {t u : Radio} {l : Label} {tr out : List Event} (h : Enqueues cfg p c s t tr)
      (hin : (t.prod p).holdsQueue = true) (hs : step cfg t l = some (u, out)) :
      Enqueues cfg p c s u (tr ++ out)

/-- The packets of the other slots are there, but for those that `FindNackSeqNum` gave
up, and their bytes are the same. -/
structure KeepsOthers (c : EnqueueArgs) (b b' : RxDataBuf) (tr : List Event) : Prop where
  slots : ∀ i, i ≠ seq2Ind c.seq_num → (b.book_keep_arr i).status = .kOccupiedNew →
    b'.book_keep_arr i = b.book_keep_arr i ∨
      ∃ hd q st, .nackDropped hd q st ∈ tr ∧ seq2Ind q = i
  bytes : ∀ i, i ≠ seq2Ind c.seq_num → (b.book_keep_arr i).status = .kOccupiedNew →
    getPkt b' i (b.book_keep_arr i).len = slotBytes b i

/-- What a call does with a number of the window. -/
structure StoresInWindow (c : EnqueueArgs) (s t : Radio) (tr : List Event) : Prop where
  head : t.buf.head_pt = s.buf.head_pt
  tail : t.buf.tail_pt = max s.buf.tail_pt c.seq_num
  others : KeepsOthers c s.buf t.buf tr

/-- The call treats its number as what it is in exact arithmetic. -/
structure TreatedExactly (c : EnqueueArgs) (s t : Radio) (tr : List Event) : Prop where
  stale : c.seq_num ≤ s.buf.head_pt → t.buf = s.buf
  window : s.buf.head_pt < c.seq_num → c.seq_num ≤ s.buf.head_pt + BUF_SIZE →
    StoresInWindow c s t tr

/-- The packet changes no byte of another one: its slot keeps the packet that it has, or
the bytes that it shares with another packet are the same. -/
def Spares (c : EnqueueArgs) (b : RxDataBuf) : Prop :=
  (b.book_keep_arr (seq2Ind c.seq_num)).status = .kOccupiedNew ∨
    ∀ i, i ≠ seq2Ind c.seq_num → (b.book_keep_arr i).status = .kOccupiedNew →
      ∀ j < (b.book_keep_arr i).len, ∀ k < c.pkt_len,
        i * PKT_SIZE + j = seq2Ind c.seq_num * PKT_SIZE + k →
          c.pkt k = b.pkt_buf (i * PKT_SIZE + j)

/-- The end of the window is a `uint32`, or the number is the next one and no packet
waits past it. Moreover the packet spares the others. -/
def WindowFits (c : EnqueueArgs) (b : RxDataBuf) : Prop :=
  b.head_pt < c.seq_num → c.seq_num ≤ b.head_pt + BUF_SIZE →
    (b.head_pt + BUF_SIZE < 2 ^ 32 ∨
      (c.seq_num = b.head_pt + 1 ∧ b.tail_pt ≤ c.seq_num)) ∧ Spares c b

instance (c : EnqueueArgs) (b : RxDataBuf) : Decidable (Spares c b) :=
  inferInstanceAs (Decidable (_ ∨ ∀ i, i ≠ seq2Ind c.seq_num → _ → ∀ j < _, ∀ k < _, _ → _ = _))

instance (c : EnqueueArgs) (b : RxDataBuf) : Decidable (WindowFits c b) :=
  inferInstanceAs (Decidable (_ → _ → (_ ∨ _) ∧ _))

theorem Enqueues.core {cfg : Config} {p : Producer} {c : EnqueueArgs} {s t : Radio}
    {tr : List Event} (hcore : Core s) (h : Enqueues cfg p c s t tr) : Core t := by
  induction h with
  | passes _ _ hs => exact move_core hcore (step_move hs)
  | next _ _ hs ih => exact move_core ih (step_move hs)

/-! ## The first section of the call -/

theorem Entering.not_clearing {s : Radio} {p : Producer} {c : EnqueueArgs} (h : Entering s p c)
    (q i : Nat) : s.prod p ≠ .clearing q i := by
  intro hp
  rcases h with he | ⟨b, he⟩ <;> rw [he] at hp <;> cases hp

/-- Past the full check there are four ways: stale with the tail in order, stale with
the tail behind, past the window, or inside it. -/
theorem passes_cases {cfg : Config} {p : Producer} {c : EnqueueArgs} {s t : Radio} {pick : Pick}
    {out : List Event} (hcore : Core s) (hent : Entering s p c) (hf : ¬isFull s.buf)
    (hs : step cfg s (.prod p pick) = some (t, out)) :
    queueFree s ∧
    ((c.seq_num ≤ s.buf.head_pt ∧ t.buf = s.buf ∧ t.prod p = .idle) ∨
    (s.buf.head_pt < c.seq_num ∧ isWrap s.buf c.seq_num ∧
      t.buf = wrapAround (store s.buf c) c ∧ t.prod p = .idle) ∨
    (s.buf.head_pt < c.seq_num ∧ ¬isWrap s.buf c.seq_num ∧ t.buf = store s.buf c ∧
      t.prod p = if s.buf.tail_pt < c.seq_num then .clearing c.seq_num s.buf.tail_pt
        else .idle)) := by
  have hne : ∀ q i, s.prod p ≠ .clearing q i := hent.not_clearing
  have hord := hcore.order
  cases step_move hs with
  | full _ _ hfull => exact absurd hfull hf
  | wrap hent' hq _ hhd _ hw =>
    obtain rfl := hent.unique hent'
    exact ⟨hq, .inr (.inl ⟨hhd, hw, by simp, setProd_self _ _ _⟩)⟩
  | store hent' hq _ hhd _ hw =>
    obtain rfl := hent.unique hent'
    refine ⟨hq, .inr (.inr ⟨hhd, hw, enqueueStore_buf _ _ _, ?_⟩)⟩
    rw [enqueueStore_eq, setProd_self]
  | stale hent' hq _ hhd =>
    obtain rfl := hent.unique hent'
    exact ⟨hq, .inl ⟨hhd, rfl, setProd_self _ _ _⟩⟩
  | staleTail hent' hq _ hhd htl =>
    obtain rfl := hent.unique hent'
    omega
  | clear hp => exact absurd hp (hne _ _)
  | finish hp => exact absurd hp (hne _ _)

/-! ## What the steps of the call keep -/

/-- A step that keeps every packet, but for one that `FindNackSeqNum` gives up. -/
structure KeepsPackets (b b' : RxDataBuf) (out : List Event) : Prop where
  head : b'.head_pt = b.head_pt
  slots : ∀ i, (b.book_keep_arr i).status = .kOccupiedNew →
    b'.book_keep_arr i = b.book_keep_arr i ∨
      ∃ hd q st, .nackDropped hd q st ∈ out ∧ seq2Ind q = i
  bytes : b'.pkt_buf = b.pkt_buf

theorem KeepsPackets.same {b b' : RxDataBuf} {out : List Event} (hh : b'.head_pt = b.head_pt)
    (hs : b'.book_keep_arr = b.book_keep_arr) (hb : b'.pkt_buf = b.pkt_buf) :
    KeepsPackets b b' out :=
  ⟨hh, fun i _ => .inl (by rw [hs]), hb⟩

theorem KeepsPackets.clearRead (b : RxDataBuf) (i : Slot) (out : List Event) :
    KeepsPackets b (clearRead b i) out := by
  refine ⟨clearRead_head _ _, fun j hj => .inl ?_, clearRead_pkt_buf _ _⟩
  unfold rx_data_buf.clearRead
  split
  · rename_i hread
    apply setSlot_ne
    rintro rfl
    rw [hj] at hread
    cases hread
  · rfl

theorem KeepsPackets.nackDrop (b : RxDataBuf) {i : Slot} {hd q : Nat} {st : Status}
    (hi : seq2Ind q = i) : KeepsPackets b (nackDrop b i q) [.nackDropped hd q st] := by
  refine ⟨rfl, fun j _ => ?_, rfl⟩
  by_cases hji : j = i
  · exact .inr ⟨hd, q, st, List.mem_cons_self, hi.trans hji.symm⟩
  · exact .inl (setSlot_ne _ _ _ hji)

theorem KeepsPackets.refl (b : RxDataBuf) (out : List Event) : KeepsPackets b b out :=
  .same rfl rfl rfl

theorem KeepsPackets.trans {b b1 b2 : RxDataBuf} {tr out : List Event}
    (h : KeepsPackets b b1 tr) (hs : KeepsPackets b1 b2 out) : KeepsPackets b b2 (tr ++ out) := by
  refine ⟨hs.head.trans h.head, fun i hocc => ?_, hs.bytes.trans h.bytes⟩
  rcases h.slots i hocc with he | ⟨hd, q, st, hm, hq⟩
  · rcases hs.slots i (by rw [he]; exact hocc) with he' | ⟨hd, q, st, hm, hq⟩
    · exact .inl (he'.trans he)
    · exact .inr ⟨hd, q, st, List.mem_append_right _ hm, hq⟩
  · exact .inr ⟨hd, q, st, List.mem_append_left _ hm, hq⟩

/-- The store changes no packet of another slot just when it spares them. -/
theorem store_bytes_iff (b : RxDataBuf) (c : EnqueueArgs) :
    (∀ i, i ≠ seq2Ind c.seq_num → (b.book_keep_arr i).status = .kOccupiedNew →
      getPkt (store b c) i (b.book_keep_arr i).len = slotBytes b i) ↔ Spares c b := by
  unfold Spares
  by_cases hocc : (b.book_keep_arr (seq2Ind c.seq_num)).status = .kOccupiedNew
  · have hb : store b c = b := by
      unfold rx_data_buf.store
      rw [if_neg (not_not_intro hocc)]
    rw [hb]
    exact iff_of_true (fun _ _ _ => rfl) (.inl hocc)
  · have hb : (store b c).pkt_buf =
        (storePkt b (seq2Ind c.seq_num) c.pkt_len c.pkt).pkt_buf := by
      unfold rx_data_buf.store
      rw [if_pos hocc, updateBookKeeping_pkt_buf]
    rw [or_iff_right hocc]
    refine forall_congr' fun i => forall_congr' fun hi => forall_congr' fun hst => ?_
    unfold slotBytes getPkt
    rw [List.map_inj_left, hb]
    simp only [List.mem_range, storePkt]
    refine forall_congr' fun j => forall_congr' fun hj => ⟨fun h k hk he => ?_, fun h => ?_⟩
    · rw [if_pos ⟨by omega, by omega⟩] at h
      rw [← h, he, Nat.add_sub_cancel_left]
    · split
      · rename_i hin
        exact h _ (by omega) (by omega)
      · rfl

/-- A call that keeps what it stored keeps the other packets just when it spares them. -/
theorem KeepsPackets.others_iff {b b' : RxDataBuf} {c : EnqueueArgs} {tr : List Event}
    (h : KeepsPackets (store b c) b' tr) : KeepsOthers c b b' tr ↔ Spares c b := by
  rw [← store_bytes_iff]
  have hbytes : ∀ i len, getPkt b' i len = getPkt (store b c) i len := by
    intro i len
    unfold getPkt
    rw [h.bytes]
  constructor
  · intro hk i hi hocc
    rw [← hbytes]
    exact hk.bytes i hi hocc
  · intro hs
    refine ⟨fun i hi hocc => ?_, fun i hi hocc => (hbytes _ _).trans (hs i hi hocc)⟩
    rw [← store_ne b c hi] at hocc ⊢
    exact h.slots i hocc

/-- Packets that fit their slots are spared. -/
theorem Spares.of_fits {b : RxDataBuf} {c : EnqueueArgs} (hf : Fits b)
    (hlen : c.pkt_len ≤ PKT_SIZE) : Spares c b := by
  rw [← store_bytes_iff]
  intro i hi hocc
  have h := slotBytes_store_ne hf hlen hi hocc
  rwa [slotBytes, store_ne _ _ hi] at h

/-- While a call moves the tail, every step keeps the head and the packets, and the tail
moves only as the call returns. -/
theorem clearing_step {cfg : Config} {p : Producer} {t u : Radio} {l : Label} {q i : Nat}
    {out : List Event} (hcore : Core t) (hp : t.prod p = .clearing q i) (m : Move cfg t l u out) :
    KeepsPackets t.buf u.buf out ∧
      ((u.buf.tail_pt = t.buf.tail_pt ∧ ∃ j, u.prod p = .clearing q j) ∨
        (u.buf.tail_pt = q ∧ u.prod p = .idle)) := by
  have hbusy : ¬queueFree t := fun hq => free_prod hq p q i hp
  obtain ⟨hcons, hprod⟩ := hcore.owner p q i hp
  have hlock : ∀ j, t.cons ≠ .lockElement j := by
    intro j hc
    rw [hc] at hcons
    cases hcons
  -- Only this call is in the loop over the tail.
  have hmine : ∀ r x y, t.prod r = .clearing x y → r = p := by
    intro r x y hr
    by_contra hrp
    have hno := hprod r hrp
    rw [hr] at hno
    cases hno
  have hrest : u.buf = t.buf → u.prod p = t.prod p → KeepsPackets t.buf u.buf out ∧
      ((u.buf.tail_pt = t.buf.tail_pt ∧ ∃ j, u.prod p = .clearing q j) ∨
        (u.buf.tail_pt = q ∧ u.prod p = .idle)) := fun hb hu =>
    ⟨.same (by rw [hb]) (by rw [hb]) (by rw [hb]), .inl ⟨by rw [hb], i, hu.trans hp⟩⟩
  cases m with
  | @call r c hr =>
    refine hrest rfl (setProd_ne _ _ _ ?_)
    rintro rfl
    rw [hp] at hr
    cases hr
  | clear hr hi =>
    obtain rfl := hmine _ _ _ hr
    rw [hp] at hr
    cases hr
    exact ⟨.clearRead _ _ _, .inl ⟨clearRead_tail _ _, _, setProd_self _ _ _⟩⟩
  | finish hr hi =>
    obtain rfl := hmine _ _ _ hr
    rw [hp] at hr
    cases hr
    refine ⟨?_, .inr ⟨?_, setProd_self _ _ _⟩⟩
    · rw [setProd_buf, signalFill_buf]
      exact .same rfl rfl rfl
    · rw [setProd_buf, signalFill_buf]
  | scanDrop ha hi =>
    have hw := hcore.words
    rw [ha] at hw
    refine ⟨?_, .inl ⟨?_, i, ?_⟩⟩
    · rw [signalElementAvail_buf]
      exact .nackDrop _ (seq2Ind_add32_one (hw _ List.mem_cons_self))
    · rw [signalElementAvail_buf]
      rfl
    · rw [signalElementAvail_prod]
      exact hp
  | overflowDrop ha =>
    refine ⟨?_, .inl ⟨?_, i, ?_⟩⟩
    · rw [signalElementAvail_buf]
      exact .nackDrop _ rfl
    · rw [signalElementAvail_buf]
      rfl
    · rw [signalElementAvail_prod]
      exact hp
  | full _ hq | wrap _ hq | store _ hq | stale _ hq | staleTail _ hq | sleepFill _ hq
  | top _ hq | relock _ hq | ackSleep _ hq | pointers _ hq | ackWoken _ hq =>
    exact absurd hq hbusy
  | block hc | blocked hc | deliver hc | giveUp hc => exact absurd hc (hlock _)
  | _ => exact hrest rfl rfl

/-! ## Whole calls -/

/-- A call with a number of the window keeps what it stored, and as it returns the tail is
at the number, or past it. -/
theorem Enqueues.stores {cfg : Config} {p : Producer} {c : EnqueueArgs} {s t : Radio}
    {tr : List Event} (hcore : Core s) (hhd : s.buf.head_pt < c.seq_num)
    (hw : ¬isWrap s.buf c.seq_num) (h : Enqueues cfg p c s t tr) :
    KeepsPackets (store s.buf c) t.buf tr ∧
      ((t.buf.tail_pt = s.buf.tail_pt ∧ ∃ i, t.prod p = .clearing c.seq_num i) ∨
        (t.buf.tail_pt = max s.buf.tail_pt c.seq_num ∧ t.prod p = .idle)) := by
  induction h with
  | passes hent hf hs =>
    obtain ⟨-, ⟨hle, -⟩ | ⟨-, hwrap, -⟩ | ⟨-, -, hbuf, hp⟩⟩ := passes_cases hcore hent hf hs
    · omega
    · exact absurd hwrap hw
    · rw [hbuf, store_tail]
      refine ⟨.refl _ _, ?_⟩
      by_cases htl : s.buf.tail_pt < c.seq_num
      · rw [if_pos htl] at hp
        exact .inl ⟨rfl, _, hp⟩
      · rw [if_neg htl] at hp
        exact .inr ⟨by omega, hp⟩
  | @next t u l tr out h hin hs ih =>
    obtain ⟨hkeep, ⟨htl, i, hp⟩ | ⟨-, hp⟩⟩ := ih
    · have ht := h.core hcore
      obtain ⟨hkeep', hend⟩ := clearing_step ht hp (step_move hs)
      refine ⟨hkeep.trans hkeep', ?_⟩
      rcases hend with ⟨htl', hp'⟩ | ⟨htl', hp'⟩
      · exact .inl ⟨htl'.trans htl, hp'⟩
      · obtain ⟨-, -, hlt, -⟩ := ht.clearing p _ _ hp
        exact .inr ⟨by omega, hp'⟩
    · rw [hp] at hin
      cases hin

/-- A call with another number returns at once. -/
theorem Enqueues.atOnce {cfg : Config} {p : Producer} {c : EnqueueArgs} {s t : Radio}
    {tr : List Event} (hcore : Core s)
    (hno : ¬(s.buf.head_pt < c.seq_num ∧ ¬isWrap s.buf c.seq_num)) (h : Enqueues cfg p c s t tr) :
    t.prod p = .idle ∧ t.buf = if c.seq_num ≤ s.buf.head_pt then s.buf
      else wrapAround (store s.buf c) c := by
  induction h with
  | passes hent hf hs =>
    obtain ⟨-, ⟨hle, hbuf, hp⟩ | ⟨hhd, -, hbuf, hp⟩ | ⟨hhd, hw, -⟩⟩ := passes_cases hcore hent hf hs
    · rw [if_pos hle]
      exact ⟨hp, hbuf⟩
    · rw [if_neg (Nat.not_le_of_lt hhd)]
      exact ⟨hp, hbuf⟩
    · exact absurd ⟨hhd, hw⟩ hno
  | next _ hin _ ih =>
    rw [ih.1] at hin
    cases hin

theorem Enqueues.free {cfg : Config} {p : Producer} {c : EnqueueArgs} {s t : Radio}
    {tr : List Event} (hcore : Core s) (h : Enqueues cfg p c s t tr) : queueFree s := by
  induction h with
  | passes hent hf hs => exact (passes_cases hcore hent hf hs).1
  | next _ _ _ ih => exact ih

/-- When the next number is past every other packet, the other slots hold none. -/
theorem no_other_packet {cfg : Config} {ok : List Event → Radio → Label → Prop} {s : Radio}
    {tr : List Event} {q : Nat} (r : Run (radio cfg) ok s tr) (hfree : queueFree s)
    (hq : q = s.buf.head_pt + 1) (htl : s.buf.tail_pt ≤ q) (i : Slot) (hi : i ≠ seq2Ind q) :
    (s.buf.book_keep_arr i).status ≠ .kOccupiedNew := by
  intro hocc
  obtain ⟨x, hst, rfl⟩ := run_stored r hocc
  have hle := stored_le_tail (run_tailFree r) hfree hst
  have hhd := hst.1
  obtain rfl : x = q := by omega
  exact hi rfl

/-- A call that wraps around treats its number as the exact one just when the number is
past the window, or the next one and past every packet. -/
theorem wrapAround_exact_iff {cfg : Config} {ok : List Event → Radio → Label → Prop} {p : Producer}
    {c : EnqueueArgs} {s t : Radio} {tr0 tr : List Event} (r : Run (radio cfg) ok s tr0)
    (h : Enqueues cfg p c s t tr) (hhd : s.buf.head_pt < c.seq_num)
    (hw : isWrap s.buf c.seq_num) : TreatedExactly c s t tr ↔ WindowFits c s.buf := by
  have hcore := the_tail_stays_in_the_window r
  obtain ⟨-, hbuf⟩ := h.atOnce hcore (fun hn => hn.2 hw)
  rw [if_neg (Nat.not_le_of_lt hhd)] at hbuf
  have hother := fun hq htl => no_other_packet (q := c.seq_num) r (h.free hcore) hq htl
  have hsub := sub32_of_le (a := c.seq_num) (b := 1) (by omega) c.seq_lt
  have hhead : t.buf.head_pt = c.seq_num - 1 := by
    rw [hbuf]
    exact hsub
  have htail : t.buf.tail_pt = c.seq_num := by rw [hbuf]; rfl
  constructor
  · intro he _ hin
    obtain ⟨hkeep, hmax, -⟩ := he.window hhd hin
    have hq : c.seq_num = s.buf.head_pt + 1 := by omega
    have htl : s.buf.tail_pt ≤ c.seq_num := by omega
    exact ⟨.inr ⟨hq, htl⟩, .inr fun i hi hocc => absurd hocc (hother hq htl i hi)⟩
  · intro hfits
    refine ⟨fun hle => by omega, fun _ hin => ?_⟩
    obtain ⟨hlt | ⟨hq, htl⟩, -⟩ := hfits hhd hin
    · exact absurd (lt_of_isWrap hw hlt) (by omega)
    · exact ⟨by omega, by omega, fun i hi hocc => absurd hocc (hother hq htl i hi),
        fun i hi hocc => absurd hocc (hother hq htl i hi)⟩

/-- A number past the head that takes no wrap-around is tested against the exact end of
the window. -/
theorem fits_of_not_isWrap {b : RxDataBuf} {q : Nat} (hhd : b.head_pt < q) (hw : ¬isWrap b q)
    (hh : b.head_pt < 2 ^ 32) : b.head_pt + BUF_SIZE < 2 ^ 32 := by
  have hN := BUF_SIZE_lt
  by_contra hge
  apply hw
  simp only [isWrap, decide_eq_true_eq]
  rw [add32_of_ge (by omega) hh hN]
  omega

/-- A full buffer keeps its packets and its pointers while a call waits. -/
theorem full_keeps {cfg : Config} {p : Producer} {c : EnqueueArgs} {s t : Radio} {pick : Pick}
    {out : List Event} (hent : Entering s p c) (hf : isFull s.buf)
    (hs : step cfg s (.prod p pick) = some (t, out)) :
    KeepsPackets s.buf t.buf [] ∧ t.buf.tail_pt = s.buf.tail_pt := by
  have hne : ∀ q i, s.prod p ≠ .clearing q i := hent.not_clearing
  cases step_move hs with
  | full =>
    rw [setProd_buf, signalElementAvail_buf]
    refine ⟨⟨fullDrop_head _, fun i hocc => .inl ?_, fullDrop_pkt_buf _⟩, fullDrop_tail _⟩
    unfold fullDrop
    split
    · rename_i hblock
      apply setSlot_ne
      rintro rfl
      rw [hocc] at hblock
      cases hblock
    · rfl
  | wrap _ _ hno | store _ _ hno | stale _ _ hno | staleTail _ _ hno => exact absurd hf hno
  | clear hp => exact absurd hp (hne _ _)
  | finish hp => exact absurd hp (hne _ _)

/-- The loop over the tail comes to its end. -/
theorem clearing_returns {cfg : Config} {p : Producer} {c : EnqueueArgs} {s t : Radio}
    {tr : List Event} {q i : Nat} (h : Enqueues cfg p c s t tr) (hp : t.prod p = .clearing q i)
    (hi : i ≤ q) (hq : q < 2 ^ 32) (hfree : ElementsFree t) (halive : t.ack ≠ .aborted) :
    ∃ u tr', Enqueues cfg p c s u tr' ∧ u.prod p = .idle := by
  have hin : (t.prod p).holdsQueue = true := by rw [hp]; rfl
  -- The induction is on the slots that are left.
  induction hn : q - i generalizing t tr i with
  | zero =>
    have hstep : step cfg t (.prod p .ath) = some (setProd
        (signalFill { t with buf := { t.buf with tail_pt := q } } .ath) p .idle, []) := by
      simp only [step, halive, if_false, stepProducer, hp]
      rw [if_neg (by omega)]
    exact ⟨_, _, h.next hin hstep, setProd_self _ _ _⟩
  | succ n ih =>
    have hstep : step cfg t (.prod p .ath) = some (setProd
        { t with buf := clearRead t.buf (indMod i) } p (.clearing q (i + 1)), []) := by
      simp only [step, halive, if_false, stepProducer, hp]
      rw [if_pos (by omega), if_pos (hfree.free _), add32_of_lt (by omega)]
    refine ih (h.next hin hstep) (setProd_self _ _ _) (by omega) hfree halive ?_ (by omega)
    rw [setProd_self]
    rfl

/-- When no other thread is in its way, a call that passed the full check returns. -/
theorem enqueue_returns {cfg : Config} {p : Producer} {c : EnqueueArgs} {s : Radio}
    (hcore : Core s) (hent : Entering s p c) (hq : queueFree s) (hf : ¬isFull s.buf)
    (hfree : ElementsFree s) (halive : s.ack ≠ .aborted) :
    ∃ t tr, Enqueues cfg p c s t tr ∧ t.prod p = .idle := by
  have hstep : step cfg s (.prod p .ath) = enqueue s p c .ath := by
    simp only [step, halive, if_false]
    unfold stepProducer
    rcases hent with he | ⟨b, he⟩ <;> rw [he] <;> exact if_pos hq
  have htl := hcore.tail_lt
  unfold enqueue at hstep
  rw [if_neg hf] at hstep
  by_cases hhd : s.buf.head_pt < c.seq_num
  · rw [if_pos hhd, if_pos (hfree.free _)] at hstep
    by_cases hw : isWrap s.buf c.seq_num
    · rw [if_pos hw] at hstep
      exact ⟨_, _, .passes hent hf hstep, setProd_self _ _ _⟩
    · rw [if_neg hw] at hstep
      have h : Enqueues cfg p c s (enqueueStore s p c).1 (enqueueStore s p c).2 :=
        .passes hent hf hstep
      by_cases hlt : s.buf.tail_pt < c.seq_num
      · refine clearing_returns h (q := c.seq_num) (i := s.buf.tail_pt) ?_ (by omega) c.seq_lt ?_ ?_
        · rw [enqueueStore_of_lt hlt, setProd_self]
        · rw [enqueueStore_of_lt hlt]
          unfold signalIf
          split
          · exact ElementsFree.signal hfree
          · exact hfree
        · rw [enqueueStore_of_lt hlt, setProd_ack, signalIf_ack]
          exact halive
      · refine ⟨_, _, h, ?_⟩
        rw [enqueueStore_of_le (Nat.le_of_not_lt hlt), setProd_self]
  · have hord := hcore.order
    rw [if_neg hhd, if_neg (by omega)] at hstep
    exact ⟨_, _, .passes hent hf hstep, setProd_self _ _ _⟩

/-- In every run the full check is exact, and a call treats its number exactly just when
the end of its window is a `uint32`, or the number is the next one and past every packet,
and the packet spares the others. -/
theorem the_window_tests_are_exact_iff {cfg : Config} {ok : List Event → Radio → Label → Prop}
    {s : Radio} {tr0 : List Event} (r : Run (radio cfg) ok s tr0) :
    (isFull s.buf ↔ s.buf.tail_pt - s.buf.head_pt = (BUF_SIZE : Int)) ∧
    (∀ p c pick t out, Entering s p c → isFull s.buf →
      step cfg s (.prod p pick) = some (t, out) →
        KeepsPackets s.buf t.buf [] ∧ t.buf.tail_pt = s.buf.tail_pt) ∧
    (∀ p c, Entering s p c → queueFree s → ¬isFull s.buf → ElementsFree s → s.ack ≠ .aborted →
      ∃ t tr, Enqueues cfg p c s t tr ∧ t.prod p = .idle) ∧
    ∀ p c t tr, Enqueues cfg p c s t tr → t.prod p = .idle →
      (TreatedExactly c s t tr ↔ WindowFits c s.buf) := by
  have hcore := the_tail_stays_in_the_window r
  refine ⟨?_, fun p c pick t out hent hf hs => full_keeps hent hf hs,
    fun p c hent hq hf hfree ha => enqueue_returns hcore hent hq hf hfree ha,
    fun p c t tr h hidle => ?_⟩
  · rw [hcore.isFull_iff]
    omega
  · by_cases hstale : c.seq_num ≤ s.buf.head_pt
    · obtain ⟨-, hbuf⟩ := h.atOnce hcore (fun hn => by omega)
      rw [if_pos hstale] at hbuf
      exact iff_of_true ⟨fun _ => hbuf, fun hhd => by omega⟩ (fun hhd => by omega)
    · have hhd := Nat.lt_of_not_le hstale
      by_cases hw : isWrap s.buf c.seq_num
      · exact wrapAround_exact_iff r h hhd hw
      · obtain ⟨hkeep, ⟨-, i, hp⟩ | ⟨htl, -⟩⟩ := h.stores hcore hhd hw
        · rw [hp] at hidle
          cases hidle
        · have hin := le_of_not_isWrap hw hcore.head_lt
          have hend := fits_of_not_isWrap hhd hw hcore.head_lt
          constructor
          · intro he _ _
            exact ⟨.inl hend, hkeep.others_iff.mp (he.window hhd hin).others⟩
          · intro hfits
            have hothers := hkeep.others_iff.mpr (hfits hhd hin).2
            exact ⟨fun hle => absurd hle hstale, fun _ _ =>
              ⟨hkeep.head.trans (store_head _ _), htl, hothers⟩⟩

/-- Packet 1 is stored. -/
def storedFirst : List Label := .call .rcvAth (onePkt 1 7) :: List.replicate 3 (.prod .rcvAth .ath)

def rcvCellIdle (s : Radio) : Bool :=
  match s.prod .rcvCell with
  | .idle => true
  | _ => false

theorem prod_of_rcvCellIdle {s : Radio} (h : rcvCellIdle s) : s.prod .rcvCell = .idle := by
  unfold rcvCellIdle at h
  split at h
  · assumption
  · cases h

/-- Packet 2 comes while packet 1 is in the buffer. -/
theorem the_second_packet_is_treated_exactly : ∃ s t tr0 tr,
    Run (radio ⟨25, 500⟩) StoreFits s tr0 ∧
    (s.buf.book_keep_arr (seq2Ind 1)).status = .kOccupiedNew ∧
    Enqueues ⟨25, 500⟩ .rcvCell (onePkt 2 8) s t tr ∧ t.prod .rcvCell = .idle ∧
    TreatedExactly (onePkt 2 8) s t tr := by
  obtain ⟨s, tr0, r, hs⟩ := run_of_check (radio ⟨25, 500⟩) StoreFits storedFirst
    (fun x => queueFree x.1 && rcvCellIdle x.1 && decide (x.1.cons = .idle ∧ x.1.ack = .idle ∧
      x.1.buf.head_pt = 0 ∧ x.1.buf.tail_pt = 1 ∧
      (x.1.buf.book_keep_arr (seq2Ind 1)).status = .kOccupiedNew)) atStart_fresh
    (by decide +kernel) (by decide +kernel)
  rw [Bool.and_eq_true, Bool.and_eq_true, decide_eq_true_eq] at hs
  obtain ⟨⟨hfree, hidle⟩, hcons, hack, hhead, htail, hocc⟩ := hs
  have hidle := prod_of_rcvCellIdle hidle
  have halive : s.ack ≠ .aborted := by
    rw [hack]
    nofun
  have hcall : (radio ⟨25, 500⟩).step s (.call .rcvCell (onePkt 2 8)) =
      some (setProd s .rcvCell (.start (onePkt 2 8)), []) :=
    (step_iff_move halive).mpr (@Move.call ⟨25, 500⟩ _ _ _ hidle)
  have r1 : Run (radio ⟨25, 500⟩) StoreFits _ _ :=
    r.next (by intro c hc; cases hc) hcall
  obtain ⟨-, -, hreturns, hexact⟩ := the_window_tests_are_exact_iff r1
  have hfree : queueFree (setProd s .rcvCell (.start (onePkt 2 8))) := by
    rw [queueFree_iff] at hfree ⊢
    refine ⟨hfree.1, fun p => ?_⟩
    cases p with
    | rcvAth => exact hfree.2 .rcvAth
    | rcvCell => rfl
  have hfull : ¬isFull s.buf := by
    rw [(the_tail_stays_in_the_window r).isFull_iff, hhead, htail]
    decide
  obtain ⟨t, tr, h, hidle'⟩ := hreturns .rcvCell (onePkt 2 8) (.inl (setProd_self _ _ _))
    hfree hfull (fun i hi => nomatch hcons.symm.trans hi) halive
  refine ⟨_, t, _, tr, r1, hocc, h, hidle', (hexact _ _ t tr h hidle').mpr fun _ _ => ⟨.inl ?_, ?_⟩⟩
  · show s.buf.head_pt + BUF_SIZE < 2 ^ 32
    rw [hhead]
    decide
  · exact .of_fits (run_cells r).2 (by decide)

end wspace_client.threads

namespace wspace_client.feed

open machine bytes code_header rcv_ath rx_data_buf
open threads (Radio Enqueues TreatedExactly)

/-- The first packet of a batch of two is near the end of the numbers, and is stored. The
second one is about to be. -/
def nearTheEnd : List FeedLabel :=
  packet (header 1 4294967286 0 2 2) ::
    (List.replicate 4 .next ++ [.other (.prod .rcvAth .ath)]) ++
  packet (header 1 4294967286 1 2 2) ::
    List.replicate 4 .next

/-- The second packet is inside the window of the first one, and takes the wrap-around. -/
theorem a_packet_of_the_window_wraps_around : ¬∀ (cfg : threads.Config) (acfg : Config)
    (s : Feed) (tr0 : List threads.Event), Run (downlink cfg acfg) anyStep s tr0 →
      ∀ p c t tr, Enqueues cfg p c s.radio t tr → t.prod p = .idle →
        TreatedExactly c s.radio t tr := by
  intro hall
  obtain ⟨s, tr0, r, hb⟩ := run_of_check (downlink ⟨25, 500⟩ ⟨1, 1, 36⟩) anyStep nearTheEnd
    (fun x => match x.1.radio.prod .rcvAth with
      | .start c => decide (x.1.radio.buf.head_pt < c.seq_num) &&
          decide (c.seq_num ≤ x.1.radio.buf.head_pt + BUF_SIZE) && !isFull x.1.radio.buf &&
          (threads.step ⟨25, 500⟩ x.1.radio (.prod .rcvAth .ath)).any fun y =>
            isIdle y.1 && decide (y.1.buf.head_pt ≠ x.1.radio.buf.head_pt)
      | _ => false)
    atStart_fresh (execOk_any _ _ _) (by decide +kernel)
  split at hb
  · rename_i c hc
    simp only [Bool.and_eq_true, decide_eq_true_eq, Option.any_eq_true, Bool.not_eq_true'] at hb
    obtain ⟨⟨⟨hhd, hin⟩, hf⟩, ⟨t, tr⟩, hstep, hidle, hne⟩ := hb
    have hprod : t.prod .rcvAth = .idle := by
      unfold isIdle at hidle
      split at hidle
      · assumption
      · cases hidle
    have hexact := hall _ _ s tr0 r .rcvAth c t tr
      (.passes (.inl hc) (by rw [hf]; nofun) hstep) hprod
    exact hne (hexact.window hhd hin).head
  · cases hb

end wspace_client.feed

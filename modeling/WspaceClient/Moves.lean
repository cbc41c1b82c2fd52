-- The moves of the radio: one constructor for each way a step can go, with
-- the tests that it passed. Every later proof about a step is a case split
-- on its move and never unfolds the step functions again.
import WspaceClient.Threads

namespace wspace_client.threads

open machine batch_info rx_data_buf

/-- The producer is about to take `qlock_` for the call `c`: at its start, or
woken in `WaitEmpty`. -/
def Entering (s : Radio) (p : Producer) (c : EnqueueArgs) : Prop :=
  s.prod p = .start c ∨ ∃ b, s.prod p = .waitEmpty c b

theorem Entering.unique {s : Radio} {p : Producer} {c c' : EnqueueArgs} (h : Entering s p c)
    (h' : Entering s p c') : c' = c := by
  rcases h with h | ⟨b, h⟩ <;> rcases h' with h' | ⟨b', h'⟩ <;> rw [h] at h' <;> cases h' <;> rfl

/-- The consumer is about to take `qlock_` at the top of `DequeuePkt`. -/
def AtTop (s : Radio) : Prop := s.cons = .idle ∨ ∃ b, s.cons = .waitFill b

/-- What `GetBatchInfo` gives now: the batch is done, or its time ran out. -/
def doneNow (s : Radio) : Bool := (decodingDone s.batch_info s.now).decoding_done

inductive Move (cfg : Config) (s : Radio) : Label → Radio → List Event → Prop
  | call {p c} (h : s.prod p = .idle) : Move cfg s (.call p c) (setProd s p (.start c)) []
  | full {p c pick} (h : Entering s p c) (hq : queueFree s) (hf : isFull s.buf)
      (he : elementFree s (headPtMod s.buf)) :
      Move cfg s (.prod p pick)
        (setProd (signalElementAvail { s with buf := fullDrop s.buf }) p (.waitEmpty c false))
        (if (s.buf.book_keep_arr (headPtMod s.buf)).status = .kBlock then
          [.fullDropped s.buf.head_pt] else [])
  | wrap {p c pick} (h : Entering s p c) (hq : queueFree s) (hf : ¬isFull s.buf)
      (hs : s.buf.head_pt < c.seq_num) (he : elementFree s (seq2Ind c.seq_num))
      (hw : isWrap s.buf c.seq_num) :
      Move cfg s (.prod p pick)
        (setProd (signalEmpty (signalFill (signalElementAvail
          { s with buf := wrapAround (store s.buf c) c }) pick) pick) p .idle)
        [.wrapped c.seq_num c.bytes]
  | store {p c pick} (h : Entering s p c) (hq : queueFree s) (hf : ¬isFull s.buf)
      (hs : s.buf.head_pt < c.seq_num) (he : elementFree s (seq2Ind c.seq_num))
      (hw : ¬isWrap s.buf c.seq_num) :
      Move cfg s (.prod p pick) (enqueueStore s p c).1 [.enqueued c.seq_num c.bytes]
  | stale {p c pick} (h : Entering s p c) (hq : queueFree s) (hf : ¬isFull s.buf)
      (hs : c.seq_num ≤ s.buf.head_pt) (ht : c.seq_num ≤ s.buf.tail_pt) :
      Move cfg s (.prod p pick) (setProd s p .idle) []
  | staleTail {p c pick} (h : Entering s p c) (hq : queueFree s) (hf : ¬isFull s.buf)
      (hs : c.seq_num ≤ s.buf.head_pt) (ht : s.buf.tail_pt < c.seq_num) :
      Move cfg s (.prod p pick) (setProd s p (.clearing c.seq_num s.buf.tail_pt)) []
  | clear {p q i pick} (h : s.prod p = .clearing q i) (hi : i < q)
      (he : elementFree s (indMod i)) :
      Move cfg s (.prod p pick)
        (setProd { s with buf := clearRead s.buf (indMod i) } p (.clearing q (add32 i 1))) []
  | finish {p q i pick} (h : s.prod p = .clearing q i) (hi : q ≤ i) :
      Move cfg s (.prod p pick)
        (setProd (signalFill { s with buf := { s.buf with tail_pt := q } } pick) p .idle) []
  | sleepFill {pick} (h : AtTop s) (hq : queueFree s) (he : isEmpty s.buf) :
      Move cfg s (.cons pick) { s with cons := .waitFill false } []
  | top {pick} (h : AtTop s) (hq : queueFree s) (he : ¬isEmpty s.buf) :
      Move cfg s (.cons pick)
        (signalFill { s with cons := .lockElement (headPtMod s.buf) } pick) []
  | block {i pick} (h : s.cons = .lockElement i)
      (hk : (s.buf.book_keep_arr i).status = .kEmpty) :
      Move cfg s (.cons pick)
        { s with buf := block s.buf i s.now, cons := .beforeWait i } []
  | blocked {i pick} (h : s.cons = .lockElement i)
      (hk : (s.buf.book_keep_arr i).status = .kBlock) :
      Move cfg s (.cons pick) { s with cons := .beforeWait i } []
  | deliver {i pick} (h : s.cons = .lockElement i)
      (hk : (s.buf.book_keep_arr i).status = .kOccupiedNew) :
      Move cfg s (.cons pick) (signalEmpty { s with buf := deliver s.buf i, cons := .idle } pick)
        [.delivered s.buf.head_pt (s.buf.book_keep_arr i).seq_num (slotBytes s.buf i)]
  | giveUp {i pick} (h : s.cons = .lockElement i)
      (hk : (s.buf.book_keep_arr i).status = .kRead ∨
        (s.buf.book_keep_arr i).status = .kDrop) :
      Move cfg s (.cons pick) (signalEmpty { s with buf := giveUp s.buf i, cons := .idle } pick)
        [.gaveUp s.buf.head_pt (s.buf.book_keep_arr i).seq_num (s.buf.book_keep_arr i).status]
  | sleep {i pick} (h : s.cons = .beforeWait i) :
      Move cfg s (.cons pick) { s with cons := .waitElement i false } []
  | wake {i b pick} (h : s.cons = .waitElement i b) :
      Move cfg s (.cons pick) { s with cons := .woken i } []
  | relock {i pick} (h : s.cons = .woken i) (hq : queueFree s) :
      Move cfg s (.cons pick) { s with cons := .lockElement (relockIndex s.buf i) } []
  | getBatchID (h : s.ack = .idle) :
      Move cfg s .ack { s with ack := .gotBatchID s.batch_info.batch_id } []
  | ackSleep {b} (h : s.ack = .gotBatchID b) (hq : queueFree s) (hb : b ≤ s.batch_id_prev)
      (he : isEmpty s.buf) : Move cfg s .ack { s with ack := .waitFill false } []
  | pointers {b} (h : s.ack = .gotBatchID b) (hq : queueFree s)
      (hb : ¬(b ≤ s.batch_id_prev ∧ isEmpty s.buf)) :
      Move cfg s .ack { s with ack := .gotPointers s.buf.head_pt s.buf.tail_pt }
        [.pointers s.buf.head_pt s.buf.tail_pt]
  | ackWoken {b} (h : s.ack = .waitFill b) (hq : queueFree s) :
      Move cfg s .ack
        (signalFill { s with ack := .gotPointers s.buf.head_pt s.buf.tail_pt } ⟨false, .rcvAth⟩)
        [.pointers s.buf.head_pt s.buf.tail_pt]
  | batchFirst {hd tl} (h : s.ack = .gotPointers hd tl) (hd' : ¬doneNow s)
      (hz : s.batch_info.highest_decoded_seq = 0) :
      Move cfg s .ack { s with batch_info := decodingDone s.batch_info s.now, ack := .idle }
        [.acked 0 []]
  | batchRead {hd tl} (h : s.ack = .gotPointers hd tl) (hd' : ¬doneNow s)
      (hz : s.batch_info.highest_decoded_seq ≠ 0)
      (ht : s.batch_info.highest_decoded_seq < tl)
      (hh : sub32 s.batch_info.highest_decoded_seq 1 < hd) :
      Move cfg s .ack { s with batch_info := decodingDone s.batch_info s.now, ack := .idle }
        [.acked s.batch_info.highest_decoded_seq []]
  | batchOld {hd tl} (h : s.ack = .gotPointers hd tl) (hd' : ¬doneNow s)
      (hz : s.batch_info.highest_decoded_seq ≠ 0)
      (ht : s.batch_info.highest_decoded_seq < tl)
      (hh : hd ≤ sub32 s.batch_info.highest_decoded_seq 1) :
      Move cfg s .ack { s with
        batch_info := decodingDone s.batch_info s.now
        ack := .atAssert hd tl (sub32 s.batch_info.highest_decoded_seq 1)
          s.batch_info.highest_decoded_seq } []
  | batchPast {hd tl} (h : s.ack = .gotPointers hd tl) (hd' : ¬doneNow s)
      (hz : s.batch_info.highest_decoded_seq ≠ 0)
      (ht : tl ≤ s.batch_info.highest_decoded_seq) :
      Move cfg s .ack { s with
        batch_info := decodingDone s.batch_info s.now
        ack := .atAssert hd tl (sub32 tl 1) s.batch_info.highest_decoded_seq } []
  | batchDone {hd tl} (h : s.ack = .gotPointers hd tl) (hd' : doneNow s) :
      Move cfg s .ack { s with
        batch_info := decodingDone s.batch_info s.now
        ack := .gotBatchInfo hd tl (max s.batch_info.highest_decoded_seq tl) } []
  | ackBatchID {hd tl e} (h : s.ack = .gotBatchInfo hd tl e) :
      Move cfg s .ack { s with
        batch_id_prev := max s.batch_id_prev s.batch_info.batch_id
        ack := .atAssert hd tl (sub32 tl 1) e } []
  | assertHolds {hd tl ep e} (h : s.ack = .atAssert hd tl ep e) (ha : ep < tl) :
      Move cfg s .ack { s with ack := .scan hd ep tl e s.now [] } []
  | assertFails {hd tl ep e} (h : s.ack = .atAssert hd tl ep e) (ha : ¬ep < tl) :
      Move cfg s .ack { s with ack := .aborted } []
  | scanDrop {i ep tl e et ns} (h : s.ack = .scan i ep tl e et ns) (hi : i ≤ ep)
      (he : elementFree s (indMod i)) (hh : isHole (s.buf.book_keep_arr (indMod i)))
      (ho : isOverdue (s.buf.book_keep_arr (indMod i)) cfg.block_time et) :
      Move cfg s .ack (signalElementAvail { s with
        buf := nackDrop s.buf (indMod i) (add32 i 1)
        ack := .scan (add32 i 1) ep tl e et ns })
        [.nackDropped s.buf.head_pt (add32 i 1) (s.buf.book_keep_arr (indMod i)).status]
  | scanList {i ep tl e et ns} (h : s.ack = .scan i ep tl e et ns) (hi : i ≤ ep)
      (he : elementFree s (indMod i)) (hh : isHole (s.buf.book_keep_arr (indMod i)))
      (ho : ¬isOverdue (s.buf.book_keep_arr (indMod i)) cfg.block_time et) :
      Move cfg s .ack { s with ack := .scan (add32 i 1) ep tl e et (ns ++ [add32 i 1]) } []
  | scanSkip {i ep tl e et ns} (h : s.ack = .scan i ep tl e et ns) (hi : i ≤ ep)
      (he : elementFree s (indMod i)) (hh : ¬isHole (s.buf.book_keep_arr (indMod i))) :
      Move cfg s .ack { s with ack := .scan (add32 i 1) ep tl e et ns } []
  | scanEnd {i ep tl e et ns} (h : s.ack = .scan i ep tl e et ns) (hi : ep < i) :
      Move cfg s .ack { s with ack := .extra (add32 tl 1) e ns } []
  | extra {i e ns} (h : s.ack = .extra i e ns) (hi : i ≤ e) :
      Move cfg s .ack { s with ack := .extra (add32 i 1) e (ns ++ [i]) } []
  | tooMany {i e ns} (h : s.ack = .extra i e ns) (hi : e < i)
      (hn : cfg.max_num_nacks ≤ ns.length) :
      Move cfg s .ack { s with ack := .overflow ns e } []
  | extraEnd {i e ns} (h : s.ack = .extra i e ns) (hi : e < i)
      (hn : ns.length < cfg.max_num_nacks) :
      Move cfg s .ack { s with ack := .idle } [.acked e ns]
  | overflowEnd {e} (h : s.ack = .overflow [] e) :
      Move cfg s .ack { s with ack := .idle } [.acked e []]
  | overflowDrop {q rest e} (h : s.ack = .overflow (q :: rest) e)
      (he : elementFree s (seq2Ind q)) :
      Move cfg s .ack (signalElementAvail { s with
        buf := nackDrop s.buf (seq2Ind q) q
        ack := .overflow rest e })
        [.nackDropped s.buf.head_pt q (s.buf.book_keep_arr (seq2Ind q)).status]
  | setBatchInfo {batch_id seq done ind n us} :
      Move cfg s (.setBatchInfo batch_id seq done ind n us)
        { s with batch_info := setBatchInfo s.batch_info s.now batch_id seq done ind n us } []
  | updateTimeLeft {ind n us} :
      Move cfg s (.updateTimeLeft ind n us)
        { s with batch_info := updateTimeLeft s.batch_info s.now ind n us } []
  | setDecodingDone {done} :
      Move cfg s (.setDecodingDone done)
        { s with batch_info := setDecodingDone s.batch_info done } []
  | tick {us} : Move cfg s (.tick us) { s with now := s.now + us } []

theorem stepProducer_move {cfg : Config} {s t : Radio} {p : Producer} {pick : Pick}
    {out : List Event} (h : stepProducer s p pick = some (t, out)) :
    Move cfg s (.prod p pick) t out := by
  have enter : ∀ c, Entering s p c → (if queueFree s then enqueue s p c pick else none) =
      some (t, out) → Move cfg s (.prod p pick) t out := by
    intro c hent h
    split at h
    · rename_i hq
      unfold enqueue at h
      split at h
      · rename_i hf
        unfold enqueueFull at h
        split at h
        · cases h
          exact .full hent hq hf ‹_›
        · cases h
      · rename_i hf
        split at h
        · rename_i hs
          split at h
          · rename_i he
            split at h
            · cases h
              exact .wrap hent hq hf hs he ‹_›
            · cases h
              exact .store hent hq hf hs he ‹_›
          · cases h
        · rename_i hs
          split at h
          · cases h
            exact .staleTail hent hq hf (by omega) ‹_›
          · cases h
            exact .stale hent hq hf (by omega) (by omega)
    · cases h
  unfold stepProducer at h
  split at h
  · cases h
  · exact enter _ (.inl ‹_›) h
  · exact enter _ (.inr ⟨_, ‹_›⟩) h
  · rename_i hc
    split at h
    · split at h
      · cases h
        exact .clear hc ‹_› ‹_›
      · cases h
    · cases h
      exact .finish hc (by omega)

theorem stepConsumer_move {cfg : Config} {s t : Radio} {pick : Pick} {out : List Event}
    (h : stepConsumer s pick = some (t, out)) : Move cfg s (.cons pick) t out := by
  have top : AtTop s → (if queueFree s then
      if isEmpty s.buf then some ({ s with cons := .waitFill false }, [])
      else some (signalFill { s with cons := .lockElement (headPtMod s.buf) } pick, [])
    else none) = some (t, out) → Move cfg s (.cons pick) t out := by
    intro ht h
    split at h
    · split at h
      · cases h
        exact .sleepFill ht ‹_› ‹_›
      · cases h
        exact .top ht ‹_› ‹_›
    · cases h
  unfold stepConsumer at h
  split at h
  · exact top (.inl ‹_›) h
  · exact top (.inr ⟨_, ‹_›⟩) h
  · rename_i hc
    unfold dequeue at h
    simp only at h
    split at h
    · cases h
      exact .block hc ‹_›
    · cases h
      exact .blocked hc ‹_›
    · cases h
      exact .deliver hc ‹_›
    · cases h
      exact .giveUp hc (.inl ‹_›)
    · cases h
      exact .giveUp hc (.inr ‹_›)
  · cases h
    exact .sleep ‹_›
  · cases h
    exact .wake ‹_›
  · split at h
    · cases h
      exact .relock ‹_› ‹_›
    · cases h

theorem ackBatchInfo_move {cfg : Config} {s t : Radio} {hd tl : Nat} {out : List Event}
    (hp : s.ack = .gotPointers hd tl) (h : some (ackBatchInfo s hd tl) = some (t, out)) :
    Move cfg s .ack t out := by
  unfold ackBatchInfo getBatchInfo ackReturn at h
  simp only [Bool.not_eq_eq_eq_not, Bool.not_true] at h
  split at h
  · rename_i hnot
    have hnot : ¬doneNow s := by simp [doneNow, hnot]
    split at h
    · rename_i hz
      cases h
      rw [hz]
      exact .batchFirst hp hnot hz
    · rename_i hz
      split at h
      · rename_i ht
        split at h
        · rename_i hh
          cases h
          exact .batchRead hp hnot hz ht hh
        · rename_i hh
          cases h
          exact .batchOld hp hnot hz ht (Nat.le_of_not_lt hh)
      · rename_i ht
        cases h
        exact .batchPast hp hnot hz (Nat.le_of_not_lt ht)
  · rename_i hdone
    cases h
    exact .batchDone hp (by simpa [doneNow] using hdone)

theorem stepAck_move {cfg : Config} {s t : Radio} {out : List Event}
    (h : stepAck cfg s = some (t, out)) : Move cfg s .ack t out := by
  unfold stepAck at h
  split at h
  · cases h
    exact .getBatchID ‹_›
  · split at h
    · split at h
      · rename_i hb
        cases h
        exact .ackSleep ‹_› ‹_› hb.1 hb.2
      · cases h
        exact .pointers ‹_› ‹_› ‹_›
    · cases h
  · split at h
    · cases h
      exact .ackWoken ‹_› ‹_›
    · cases h
  · exact ackBatchInfo_move ‹_› h
  · cases h
    exact .ackBatchID ‹_›
  · split at h
    · cases h
      exact .assertHolds ‹_› ‹_›
    · cases h
      exact .assertFails ‹_› ‹_›
  · cases h
  · split at h
    · split at h
      · unfold ackScan at h
        simp only at h
        split at h
        · split at h
          · cases h
            exact .scanDrop ‹_› ‹_› ‹_› ‹_› ‹_›
          · cases h
            exact .scanList ‹_› ‹_› ‹_› ‹_› ‹_›
        · cases h
          exact .scanSkip ‹_› ‹_› ‹_› ‹_›
      · cases h
    · cases h
      exact .scanEnd ‹_› (by omega)
  · split at h
    · cases h
      exact .extra ‹_› ‹_›
    · split at h
      · cases h
        exact .tooMany ‹_› (by omega) ‹_›
      · cases h
        exact .extraEnd ‹_› (by omega) (by omega)
  · cases h
    exact .overflowEnd ‹_›
  · split at h
    · cases h
      exact .overflowDrop ‹_› ‹_›
    · cases h

/-- Every step is a move, and the process has not ended before it. -/
theorem step_move {cfg : Config} {s t : Radio} {l : Label} {out : List Event}
    (h : step cfg s l = some (t, out)) : Move cfg s l t out := by
  unfold step at h
  split at h
  · cases h
  · split at h
    · split at h
      · cases h
        exact .call ‹_›
      · cases h
    · exact stepProducer_move h
    · exact stepConsumer_move h
    · exact stepAck_move h
    · cases h
      exact .setBatchInfo
    · cases h
      exact .updateTimeLeft
    · cases h
      exact .setDecodingDone
    · cases h
      exact .tick

/-! ## The moves are the steps -/

theorem Entering.step {s : Radio} {p : Producer} {c : EnqueueArgs} {pick : Pick}
    (h : Entering s p c) (hq : queueFree s) : stepProducer s p pick = enqueue s p c pick := by
  unfold stepProducer
  rcases h with h | ⟨b, h⟩ <;> rw [h] <;> exact if_pos hq

theorem prod_step {cfg : Config} {s t : Radio} {p : Producer} {pick : Pick} {out : List Event}
    (m : Move cfg s (.prod p pick) t out) : stepProducer s p pick = some (t, out) := by
  cases m with
  | full h hq hf he =>
    rw [h.step hq]
    unfold enqueue enqueueFull
    rw [if_pos hf, if_pos he]
  | wrap h hq hf hs he hw =>
    rw [h.step hq]
    unfold enqueue
    rw [if_neg hf, if_pos hs, if_pos he, if_pos hw]
    rfl
  | store h hq hf hs he hw =>
    rw [h.step hq]
    unfold enqueue
    rw [if_neg hf, if_pos hs, if_pos he, if_neg hw]
    rfl
  | stale h hq hf hs ht =>
    rw [h.step hq]
    unfold enqueue
    rw [if_neg hf, if_neg (Nat.not_lt.mpr hs), if_neg (Nat.not_lt.mpr ht)]
  | staleTail h hq hf hs ht =>
    rw [h.step hq]
    unfold enqueue
    rw [if_neg hf, if_neg (Nat.not_lt.mpr hs), if_pos ht]
  | clear h hi he =>
    unfold stepProducer
    simp only [h, hi, he, if_true]
  | finish h hi =>
    unfold stepProducer
    simp only [h, Nat.not_lt.mpr hi, if_false]

theorem AtTop.step {s : Radio} {pick : Pick} (h : AtTop s) (hq : queueFree s) :
    stepConsumer s pick = if isEmpty s.buf then some ({ s with cons := .waitFill false }, [])
      else some (signalFill { s with cons := .lockElement (headPtMod s.buf) } pick, []) := by
  unfold stepConsumer
  rcases h with h | ⟨b, h⟩ <;> rw [h] <;> exact if_pos hq

theorem cons_step {cfg : Config} {s t : Radio} {pick : Pick} {out : List Event}
    (m : Move cfg s (.cons pick) t out) : stepConsumer s pick = some (t, out) := by
  cases m with
  | sleepFill h hq he => rw [h.step hq, if_pos he]
  | top h hq he => rw [h.step hq, if_neg he]
  | block h hk | blocked h hk | deliver h hk =>
    unfold stepConsumer dequeue
    simp only [h, hk]
  | giveUp h hk =>
    unfold stepConsumer dequeue
    rcases hk with hk | hk <;> simp only [h, hk]
  | sleep h | wake h =>
    unfold stepConsumer
    simp only [h]
  | relock h hq =>
    unfold stepConsumer
    simp only [h, hq, if_true]

theorem ackBatchInfo_of_not_done {s : Radio} {hd tl : Nat} (h : ¬doneNow s) :
    ackBatchInfo s hd tl =
      if s.batch_info.highest_decoded_seq = 0 then
        ackReturn { s with batch_info := decodingDone s.batch_info s.now }
          s.batch_info.highest_decoded_seq []
      else if s.batch_info.highest_decoded_seq < tl then
        if hd > sub32 s.batch_info.highest_decoded_seq 1 then
          ackReturn { s with batch_info := decodingDone s.batch_info s.now }
            s.batch_info.highest_decoded_seq []
        else ({ s with
          batch_info := decodingDone s.batch_info s.now
          ack := .atAssert hd tl (sub32 s.batch_info.highest_decoded_seq 1)
            s.batch_info.highest_decoded_seq }, [])
      else ({ s with
        batch_info := decodingDone s.batch_info s.now
        ack := .atAssert hd tl (sub32 tl 1) s.batch_info.highest_decoded_seq }, []) := by
  have hd' : (decodingDone s.batch_info s.now).decoding_done = false := Bool.not_eq_true _ ▸ h
  unfold ackBatchInfo getBatchInfo
  simp only [hd', Bool.not_false, if_true]

theorem ack_step {cfg : Config} {s t : Radio} {out : List Event}
    (m : Move cfg s .ack t out) : stepAck cfg s = some (t, out) := by
  unfold stepAck
  cases m with
  | getBatchID h | ackBatchID h | overflowEnd h =>
    rw [h]
    try rfl
  | ackSleep h hq hb he =>
    rw [h]
    simp only [hq, hb, he, and_self, if_true]
  | pointers h hq hb =>
    rw [h]
    simp only [hq, if_true, if_neg hb]
  | ackWoken h hq =>
    rw [h]
    simp only [hq, if_true]
  | batchFirst h hd hz =>
    rw [h]
    simp only [ackBatchInfo_of_not_done hd, if_pos hz]
    rw [hz]
    rfl
  | batchRead h hd hz ht hh =>
    rw [h]
    simp only [ackBatchInfo_of_not_done hd, if_neg hz, if_pos ht, gt_iff_lt, if_pos hh]
    rfl
  | batchOld h hd hz ht hh =>
    rw [h]
    simp only [ackBatchInfo_of_not_done hd, if_neg hz, if_pos ht, gt_iff_lt,
      if_neg (Nat.not_lt.mpr hh)]
  | batchPast h hd hz ht =>
    rw [h]
    simp only [ackBatchInfo_of_not_done hd, if_neg hz, if_neg (Nat.not_lt.mpr ht)]
  | batchDone h hd =>
    have hd' : (decodingDone s.batch_info s.now).decoding_done = true := hd
    rw [h]
    unfold ackBatchInfo getBatchInfo
    simp only [hd', Bool.not_true, Bool.false_eq_true, if_false]
  | assertHolds h ha =>
    rw [h]
    simp only [ha, if_true]
  | assertFails h ha =>
    rw [h]
    simp only [ha, if_false]
  | scanDrop h hi he hh ho =>
    rw [h]
    unfold ackScan
    simp only [hi, he, hh, ho, if_true]
  | scanList h hi he hh ho =>
    rw [h]
    unfold ackScan
    simp only [hi, he, hh, if_true, if_neg ho]
  | scanSkip h hi he hh =>
    rw [h]
    unfold ackScan
    simp only [hi, he, if_true, if_neg hh]
  | scanEnd h hi =>
    rw [h]
    simp only [Nat.not_le.mpr hi, if_false]
  | extra h hi =>
    rw [h]
    simp only [hi, if_true]
  | tooMany h hi hn =>
    rw [h]
    simp only [Nat.not_le.mpr hi, if_false, ge_iff_le, hn, if_true]
  | extraEnd h hi hn =>
    rw [h]
    simp only [Nat.not_le.mpr hi, if_false, ge_iff_le, Nat.not_le.mpr hn]
    rfl
  | overflowDrop h he =>
    rw [h]
    simp only [he, if_true]

/-- The moves are all the steps of a process that was not aborted, and only those. -/
theorem step_iff_move {cfg : Config} {s t : Radio} {l : Label} {out : List Event}
    (halive : s.ack ≠ .aborted) : step cfg s l = some (t, out) ↔ Move cfg s l t out := by
  refine ⟨step_move, fun m => ?_⟩
  unfold step
  rw [if_neg halive]
  cases l with
  | call p c =>
    cases m with
    | call h => simp only [h]
  | prod p pick => exact prod_step m
  | cons pick => exact cons_step m
  | ack => exact ack_step m
  | setBatchInfo | updateTimeLeft | setDecodingDone | tick =>
    cases m
    rfl

end wspace_client.threads

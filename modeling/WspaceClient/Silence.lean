-- What the silence of an acknowledgement says: a number up to its end that it
-- does not list came before, was jumped over, or was marked as given up. The
-- threads run in any order, and the call reads the slots one by one.
import WspaceClient.AckAssert
import WspaceClient.Ledger

namespace wspace_client.threads

open machine batch_info rx_data_buf

/-! ## What settles a number -/

/-- The event marks the slot of the number as given up, with the number in the window. -/
def givesUp (q : Nat) : Event → Bool
  | .fullDropped head_pt => decide (head_pt + 1 = q)
  | .nackDropped head_pt seq_num _ =>
    decide (seq2Ind seq_num = seq2Ind q ∧ head_pt < q ∧ q ≤ head_pt + BUF_SIZE)
  | .enqueued _ _ | .wrapped _ _ | .delivered _ _ _ | .gaveUp _ _ _ | .pointers _ _
  | .acked _ _ => false

/-- A packet of the number comes, or the event jumps over the number or gives it up. -/
def settles (q : Nat) : Event → Bool
  | .enqueued seq_num _ => decide (seq_num = q)
  | .wrapped seq_num _ => decide (q ≤ seq_num)
  | .fullDropped head_pt => givesUp q (.fullDropped head_pt)
  | .nackDropped head_pt seq_num status =>
    decide (seq_num = q) || givesUp q (.nackDropped head_pt seq_num status)
  | .delivered _ _ _ | .gaveUp _ _ _ | .pointers _ _ | .acked _ _ => false

def Settled (q : Nat) (tr : List Event) : Prop := ∃ e ∈ tr, settles q e = true

theorem Settled.append {q : Nat} {tr : List Event} (h : Settled q tr) (out : List Event) :
    Settled q (tr ++ out) := by
  obtain ⟨e, he, hq⟩ := h
  exact ⟨e, List.mem_append_left out he, hq⟩

theorem settled_last {q : Nat} {e : Event} (tr : List Event) (h : settles q e = true) :
    Settled q (tr ++ [e]) := ⟨e, List.mem_append_right tr (List.mem_singleton_self e), h⟩

theorem settled_rules : Rules Settled fun q _ => Settled q where
  append := Settled.append
  appendHeld := Settled.append
  enqueued := fun _ _ tr => settled_last tr (decide_eq_true rfl)
  wrapped := fun _ tr h => settled_last tr (decide_eq_true h)
  wrappedHeld := fun _ _ _ tr => settled_last tr (decide_eq_true (Nat.le_refl _))
  fullDropped := fun _ tr => settled_last tr (decide_eq_true rfl)
  nackDropped := fun _ tr h hq hw =>
    settled_last tr (Bool.or_eq_true_iff.mpr (.inr (decide_eq_true ⟨h, hq, hw⟩)))
  delivered := fun _ h => h.append _

/-- Each number that the buffer is through with was settled. -/
abbrev Accounts (b : RxDataBuf) (tr : List Event) : Prop :=
  Ledger Settled (fun q _ => Settled q) b tr

/-! ## The call -/

/-- What the call can count on, by the snapshot `p` of the pointers that it read. -/
structure Reads (p : Snapshot) (s : Radio) : Prop where
  head : p.head_pt ≤ s.buf.head_pt
  /-- A slot of the snapshot is read only as the head passes its number. -/
  read : ∀ q, p.head_pt < q → q ≤ p.tail_pt →
    (s.buf.book_keep_arr (seq2Ind q)).status = .kRead → q ≤ s.buf.head_pt

theorem SlotMove.reads {s : Radio} {b : RxDataBuf} {out : List Event} {p : Snapshot}
    (hw : p.InWindow) (h : Reads p s) (m : SlotMove s b out) :
    Reads p { s with buf := b } := by
  have hle := m.head_le
  refine ⟨Nat.le_trans h.head hle, fun q hq htl hread => ?_⟩
  dsimp only at hread ⊢
  have hold : (s.buf.book_keep_arr (seq2Ind q)).status = .kRead → q ≤ b.head_pt :=
    fun hr => Nat.le_trans (h.read q hq htl hr) hle
  cases m with
  | same hh ha =>
    rw [ha] at hread
    exact hold hread
  | fullDrop => exact hold (setSlot_read hread nofun)
  | store => exact hold (store_read hread)
  | @wrap c =>
    by_cases hi : seq2Ind q = seq2Ind c.seq_num
    · rw [hi, wrapAround_self, store_status] at hread
      cases hread
    · rw [wrapAround_ne _ _ hi] at hread
      cases hread
  | clear => exact hold (setSlot_read hread nofun)
  | block => exact hold (setSlot_read hread nofun)
  | deliver hlt =>
    have hwin := hw.window
    have htl32 := hw.tail_lt
    have hhd := h.head
    rw [deliver_head hlt]
    by_cases hi : seq2Ind q = headPtMod s.buf
    · -- The numbers of one slot are a lap apart.
      rw [headPtMod_eq hlt] at hi
      by_contra hno
      have heq := eq_of_seq2Ind_eq (h := s.buf.head_pt) (by omega) (by omega)
        (Nat.lt_succ_self _) (by omega) (by omega) hlt hi
      omega
    · rw [deliver_ne _ hi] at hread
      have := h.read q hq htl hread
      omega
  | giveUp hlt => exact hold (setSlot_read hread nofun)

/-- What the call read so far is on its list or settled. -/
def Answers (p : Snapshot) (tr : List Event) : AckPc → Prop
  | .scan index _ _ _ _ nacks =>
    ∀ q, p.head_pt < q → q ≤ index → q ∈ nacks ∨ Settled q tr
  | .extra i end_seq nacks =>
    ∀ q, p.head_pt < q → q ≤ end_seq → q ≤ p.tail_pt ∨ q < i → q ∈ nacks ∨ Settled q tr
  | .overflow rest end_seq => ∀ q, p.head_pt < q → q ≤ end_seq → q ∈ rest ∨ Settled q tr
  | .idle | .gotBatchID _ | .waitFill _ | .gotPointers _ _ | .gotBatchInfo _ _ _
  | .atAssert _ _ _ _ | .aborted => True

theorem Answers.append {p : Snapshot} {tr : List Event} {pc : AckPc} (h : Answers p tr pc)
    (out : List Event) : Answers p (tr ++ out) pc := by
  cases pc with
  | scan => exact fun q hq hi => (h q hq hi).imp_right fun hs => hs.append out
  | extra => exact fun q hq he hi => (h q hq he hi).imp_right fun hs => hs.append out
  | overflow => exact fun q hq he => (h q hq he).imp_right fun hs => hs.append out
  | _ => trivial

/-- A number of the snapshot whose slot is no hole. -/
theorem settled_of_no_hole {s : Radio} {tr : List Event} {p : Snapshot} {q : Nat}
    (hw : p.InWindow) (h : Reads p s) (ha : Accounts s.buf tr) (hq : p.head_pt < q)
    (htl : q ≤ p.tail_pt) (hh : ¬isHole (s.buf.book_keep_arr (seq2Ind q))) : Settled q tr := by
  have hwin := hw.window
  have htl32 := hw.tail_lt
  have hhd := h.head
  by_cases hpass : q ≤ s.buf.head_pt
  · exact ha.passed q (by omega) hpass
  · have hin : s.buf.head_pt < q ∧ q ≤ s.buf.head_pt + BUF_SIZE ∧ q < 2 ^ 32 := by omega
    cases hk : (s.buf.book_keep_arr (seq2Ind q)).status with
    | kEmpty => exact absurd (by simp [isHole, hk]) hh
    | kBlock => exact absurd (by simp [isHole, hk]) hh
    | kOccupiedNew => exact ha.stored q ⟨hin.1, hin.2.1, hin.2.2, hk⟩
    | kRead => exact absurd (h.read q hq htl hk) hpass
    | kDrop => exact ha.marked q hin.1 hin.2.1 hin.2.2 hk

/-- One turn of the scan answers for the next number, and keeps the other answers. -/
theorem answers_next {p : Snapshot} {tr out : List Event} {i : Nat} {ns ns' : List Nat}
    (h : ∀ q, p.head_pt < q → q ≤ i → q ∈ ns ∨ Settled q tr) (hi : i + 1 < 2 ^ 32)
    (hsub : ns ⊆ ns')
    (hnew : p.head_pt < i + 1 → i + 1 ∈ ns' ∨ Settled (i + 1) (tr ++ out)) :
    ∀ q, p.head_pt < q → q ≤ add32 i 1 → q ∈ ns' ∨ Settled q (tr ++ out) := by
  intro q hq hqi
  rw [add32_of_lt hi] at hqi
  by_cases hqe : q = i + 1
  · subst hqe
    exact hnew hq
  · exact (h q hq (by omega)).imp (fun hm => hsub hm) fun hs => hs.append out

/-- A step of the call, whose snapshot is the last one of the trace. -/
theorem ack_answers {cfg : Config} {s t : Radio} {tr out : List Event} {p : Snapshot}
    (hloc : AckLocal p s.ack) (hreads : Reads p s) (hacc : Accounts s.buf tr)
    (h : Answers p tr s.ack) (m : Move cfg s .ack t out) (hp : out.foldl Snapshot.after p = p) :
    Answers p (tr ++ out) t.ack := by
  cases m with
  | ackWoken ha hq =>
    rw [signalFill_gotPointers]
    trivial
  | @assertHolds hd tl ep e ha hep =>
    rw [ha] at hloc
    obtain ⟨-, rfl, -⟩ := hloc
    intro q hq hle
    dsimp only at hq
    omega
  | @scanDrop i ep tl e et ns ha hi he hh ho =>
    rw [ha] at hloc h
    obtain ⟨hw, rfl, hlt, hep, hhd, hle, hns⟩ := hloc
    have htl := hw.tail_lt
    rw [signalElementAvail_ack]
    refine answers_next h (by omega) (fun _ hm => hm) fun _ => .inr ?_
    rw [add32_of_lt (by omega)]
    exact settled_last tr (Bool.or_eq_true_iff.mpr (.inl (decide_eq_true rfl)))
  | @scanList i ep tl e et ns ha hi he hh ho =>
    rw [ha] at hloc h
    obtain ⟨hw, rfl, hlt, hep, hhd, hle, hns⟩ := hloc
    have htl := hw.tail_lt
    refine answers_next h (by omega) (List.subset_append_left ns _) fun _ => .inl ?_
    rw [add32_of_lt (by omega)]
    exact List.mem_append_right ns (List.mem_singleton_self _)
  | @scanSkip i ep tl e et ns ha hi he hh =>
    rw [ha] at hloc h
    obtain ⟨hw, rfl, hlt, hep, hhd, hle, hns⟩ := hloc
    have htl := hw.tail_lt
    refine answers_next h (by omega) (fun _ hm => hm) fun hq => .inr ?_
    rw [← seq2Ind_succ (by omega)] at hh
    exact (settled_of_no_hole hw hreads hacc hq (by omega) hh).append []
  | @scanEnd i ep tl e et ns ha hi =>
    rw [ha] at hloc h
    obtain ⟨hw, rfl, hlt, hep, hhd, hle, hns⟩ := hloc
    have htl := hw.tail_lt
    intro q hq hqe hqi
    rw [List.append_nil]
    have hqt : q ≤ p.tail_pt := by
      rcases hqi with hqi | hqi
      · exact hqi
      · have hadd : add32 p.tail_pt 1 ≤ p.tail_pt + 1 := Nat.le_trans (Nat.mod_le _ _) (by omega)
        omega
    exact h q hq (by omega)
  | @extra i e ns ha hi =>
    rw [ha] at h
    intro q hq hqe hqi
    rw [List.append_nil]
    have hadd : add32 i 1 ≤ i + 1 := Nat.le_trans (Nat.mod_le _ _) (by omega)
    by_cases hqn : q = i
    · exact .inl (List.mem_append_right ns (List.mem_singleton.mpr hqn))
    · exact (h q hq hqe (by omega)).imp_left fun hm => List.mem_append_left _ hm
  | @tooMany i e ns ha hi hn =>
    rw [ha] at h
    intro q hq hqe
    rw [List.append_nil]
    exact h q hq hqe (.inr (by omega))
  | @overflowDrop r rest e ha he =>
    rw [ha] at h
    rw [signalElementAvail_ack]
    intro q hq hqe
    rcases h q hq hqe with hm | hs
    · rcases List.mem_cons.mp hm with rfl | hm
      · exact .inr (settled_last tr (Bool.or_eq_true_iff.mpr (.inl (decide_eq_true rfl))))
      · exact .inl hm
    · exact .inr (hs.append _)
  | _ => trivial

/-- When the call returns, every number up to the end is on its list or settled. -/
theorem acked_settled {cfg : Config} {s t : Radio} {tr out : List Event} {p : Snapshot}
    (hloc : AckLocal p s.ack) (hreads : Reads p s) (hacc : Accounts s.buf tr)
    (h : Answers p tr s.ack) (m : Move cfg s .ack t out) {e : Nat} {ns : List Nat}
    (he : .acked e ns ∈ out) {q : Nat} (hq : 0 < q) (hle : q ≤ e) : q ∈ ns ∨ Settled q tr := by
  have hpass : q ≤ p.head_pt → q ∈ ns ∨ Settled q tr := fun hqp =>
    .inr (hacc.passed q hq (Nat.le_trans hqp hreads.head))
  cases m with
  | batchFirst =>
    obtain ⟨rfl, -⟩ := Event.acked.inj (List.mem_singleton.mp he)
    omega
  | batchRead ha hd' hz ht hh =>
    obtain ⟨rfl, -⟩ := Event.acked.inj (List.mem_singleton.mp he)
    rw [ha] at hloc
    obtain ⟨hw, rfl⟩ := hloc
    have htl := hw.tail_lt
    dsimp only at htl hpass
    have hsub := sub32_of_le (a := s.batch_info.highest_decoded_seq) (b := 1) (by omega) (by omega)
    exact hpass (by omega)
  | extraEnd ha hi hn =>
    obtain ⟨rfl, rfl⟩ := Event.acked.inj (List.mem_singleton.mp he)
    rw [ha] at h
    by_cases hqp : q ≤ p.head_pt
    · exact hpass hqp
    · exact h q (by omega) hle (.inr (by omega))
  | overflowEnd ha =>
    obtain ⟨rfl, rfl⟩ := Event.acked.inj (List.mem_singleton.mp he)
    rw [ha] at h
    by_cases hqp : q ≤ p.head_pt
    · exact hpass hqp
    · exact h q (by omega) hle
  | pointers | ackWoken | scanDrop | overflowDrop => simp at he
  | _ => cases he

/-! ## Every run -/

/-- What every run keeps. -/
structure Sound (s : Radio) (tr : List Event) : Prop where
  readFree : ReadFree s
  accounts : Accounts s.buf tr
  window : (snapshot tr).InWindow
  reads : Reads (snapshot tr) s
  answers : Answers (snapshot tr) tr s.ack

theorem fresh_sound {s : Radio} (h : s.Fresh) : Sound s [] := by
  refine ⟨fresh_readFree h, fresh_ledger h,
    ⟨Nat.le_refl 0, Nat.zero_le _, (by decide : 0 < 2 ^ 32)⟩, ⟨Nat.zero_le _, ?_⟩, ?_⟩
  · intro q hq hle
    exact absurd (Nat.lt_of_lt_of_le hq hle) (Nat.lt_irrefl 0)
  · rw [h.2.2.2.2.2]
    trivial

/-- A call that reads the pointers. -/
theorem reads_now {s t : Radio} (hread : ReadFree s) (hbuf : t.buf = s.buf) :
    Reads ⟨s.buf.head_pt, s.buf.tail_pt⟩ t := by
  refine ⟨by rw [hbuf], fun q hq hle hr => ?_⟩
  rw [hbuf] at hr
  exact absurd hr (hread q hq (.inl hle))

theorem move_sound {cfg : Config} {s t : Radio} {l : Label} {tr out : List Event}
    (hcore : Core s) (hloc : AckLocal (snapshot tr) s.ack) (h : Sound s tr)
    (m : Move cfg s l t out) : Sound t (tr ++ out) := by
  have hread := move_readFree hcore h.readFree m
  have hacc := move_ledger settled_rules hcore h.readFree h.accounts m
  have hnow : Snapshot.InWindow ⟨s.buf.head_pt, s.buf.tail_pt⟩ :=
    ⟨hcore.order, hcore.window, hcore.tail_lt⟩
  by_cases hl : l = .ack
  · subst hl
    by_cases hp : out.foldl Snapshot.after (snapshot tr) = snapshot tr
    · have hsnap : snapshot (tr ++ out) = snapshot tr := by rw [snapshot_append, hp]
      have hans := ack_answers hloc h.reads h.accounts h.answers m hp
      refine ⟨hread, hacc, by rw [hsnap]; exact h.window, ?_, by rw [hsnap]; exact hans⟩
      rw [hsnap]
      rcases ack_slots hcore m with ⟨hbuf, -⟩ | ⟨q, -, -, hbuf, -⟩
      · refine ⟨by rw [hbuf]; exact h.reads.head, ?_⟩
        rw [hbuf]
        exact h.reads.read
      · refine ⟨by rw [hbuf]; exact h.reads.head, fun r hr hle hrd => ?_⟩
        rw [hbuf] at hrd ⊢
        exact h.reads.read r hr hle (setSlot_read hrd nofun)
    · -- The step that reads the pointers.
      have hread' : out.foldl Snapshot.after (snapshot tr) = ⟨s.buf.head_pt, s.buf.tail_pt⟩ ∧
          t.buf = s.buf ∧ t.ack = .gotPointers s.buf.head_pt s.buf.tail_pt := by
        cases m with
        | pointers => exact ⟨rfl, rfl, rfl⟩
        | ackWoken => exact ⟨rfl, signalFill_buf _ _, signalFill_gotPointers _ _ _ _⟩
        | _ => exact absurd rfl hp
      obtain ⟨hsnap, hbuf, hack⟩ := hread'
      rw [← snapshot_append] at hsnap
      refine ⟨hread, hacc, by rw [hsnap]; exact hnow, ?_, ?_⟩
      · rw [hsnap]
        exact reads_now h.readFree hbuf
      · rw [hack]
        trivial
  · have hsnap : snapshot (tr ++ out) = snapshot tr := by
      rw [snapshot_append, m.snapshot_eq hl]
    refine ⟨hread, hacc, by rw [hsnap]; exact h.window, ?_, ?_⟩
    · rw [hsnap]
      have hreads := (others_slots hcore m hl).reads h.window h.reads
      exact ⟨hreads.head, hreads.read⟩
    · rw [hsnap]
      rcases m.ack_eq hl with he | ⟨-, he⟩
      · rw [he]
        exact h.answers.append out
      · rw [he]
        trivial

theorem run_sound {cfg : Config} {s : Radio} {tr : List Event}
    (r : Run (radio cfg) SeqFits s tr) : Sound s tr :=
  r.invariant Sound (fun _ h => fresh_sound h) fun _ _ _ _ _ r ih _ hs =>
    move_sound (the_tail_stays_in_the_window r) (run_ackLocal r).2 ih (step_move hs)

/-- A number that an acknowledgement does not list was settled before it. -/
theorem run_silence {cfg : Config} {s : Radio} {tr pre post : List Event} {e : Nat}
    {ns : List Nat} (r : Run (radio cfg) SeqFits s tr) (htr : tr = pre ++ .acked e ns :: post)
    {q : Nat} (hq : 0 < q) (hle : q ≤ e) (hno : q ∉ ns) : Settled q pre := by
  obtain ⟨s', tr', l, t, xs, ys, r', -, hs, rfl⟩ := r.split htr
  have m := step_move hs
  have h := run_sound r'
  have hl : l = .ack := by
    by_contra hl
    exact m.not_acked hl (List.mem_append_right xs List.mem_cons_self)
  subst hl
  have hset := acked_settled (run_ackLocal r').2 h.reads h.accounts h.answers m
    (List.mem_append_right xs List.mem_cons_self) hq hle
  exact (hset.resolve_left hno).append xs

end wspace_client.threads

namespace wspace_client.feed

open machine bytes code_header rcv_ath
open threads (Settled)

/-- The radio of a downlink makes a run of its own, with numbers that fit. -/
theorem run_radio {cfg : threads.Config} {acfg : Config}
    {ok : FeedLog → Feed → FeedLabel → Prop} {s : Feed} {log : FeedLog}
    (r : Run (logged (downlink cfg acfg)) ok s log) :
    Run (threads.radio cfg) threads.SeqFits s.radio (eventsOf log) := by
  have hany : Run (logged (downlink cfg acfg)) (lift fun _ _ _ => True) s log :=
    r.mono fun _ _ _ _ _ _ => trivial
  obtain ⟨-, hrun, hev⟩ := run_feed hany
  have hradio := hrun.forget fun _ _ _ h => feed.seqFits_of_rcvCalls h.1
  rwa [hev] at hradio

/-- Whatever comes over both links, and however the threads run: a number up to the
end of an acknowledgement that is not on its list was settled before it. -/
theorem silence_acknowledges {cfg : threads.Config} {acfg : Config} {s : Feed}
    {tr pre post : List threads.Event} {e : Nat} {ns : List Nat}
    (r : Run (downlink cfg acfg) anyStep s tr) (htr : tr = pre ++ .acked e ns :: post) :
    ∀ q, 0 < q → q ≤ e → q ∉ ns → Settled q pre := by
  obtain ⟨log, rlog, rfl⟩ := r.log
  exact fun q hq hle hno => threads.run_silence (run_radio rlog) htr hq hle hno

/-- Batch 1 is the packet 1. Of the packets 2 and 3 of the next batch only 3 comes,
until the time of the batch is over. -/
def secondLost : List FeedLabel :=
  packet (header 1 1 0 1 1) ::
    (List.replicate 4 .next ++ List.replicate 3 (.other (.prod .rcvAth .ath)) ++ [.next]) ++
  packet (header 2 2 1 2 2) ::
    (List.replicate 4 .next ++ List.replicate 4 (.other (.prod .rcvAth .ath)) ++
      .other (.tick 1000000) :: List.replicate 11 (.other .ack))

theorem one_and_three_are_acknowledged : ∃ s pre,
    Run (downlink ⟨25, 500⟩ ⟨1, 1, 36⟩) anyStep s (pre ++ [.acked 3 [2]]) ∧
      Settled 1 pre ∧ Settled 3 pre := by
  obtain ⟨s, tr, r, hs⟩ := run_of_check (downlink ⟨25, 500⟩ ⟨1, 1, 36⟩) anyStep secondLost
    (fun x => decide (x.2.getLast? = some (.acked 3 [2]))) atStart_fresh (execOk_any _ _ _)
    (by decide +kernel)
  obtain ⟨pre, rfl⟩ := List.getLast?_eq_some_iff.mp (of_decide_eq_true hs)
  have h := silence_acknowledges r rfl
  exact ⟨s, pre, r, h 1 (by decide) (by decide) (by decide),
    h 3 (by decide) (by decide) (by decide)⟩

end wspace_client.feed

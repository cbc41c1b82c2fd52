-- The radio at rest: its calls have returned, and the consumer is asleep. As long as
-- no wrap-around came, each number up to the first one that did not come is out by
-- then: it was delivered in its order, or its slot was marked as given up.
import WspaceClient.Arrival
import WspaceClient.InOrder
import WspaceClient.WakeUps

namespace wspace_client.threads

open machine batch_info rx_data_buf

/-! ## The consumer at rest -/

/-- No producer is in a call, and the consumer is asleep. -/
structure Rests (s : Radio) : Prop where
  prod : ∀ p, s.prod p = .idle
  cons : AsleepUnsignalled s

theorem Rests.queueFree {s : Radio} (h : Rests s) : queueFree s := by
  rw [queueFree_iff]
  refine ⟨?_, fun p => by rw [h.prod p]; rfl⟩
  rcases h.cons with ⟨hc, -⟩ | ⟨i, hc⟩ <;> rw [hc] <;> rfl

theorem noWrapInGap_of_noWrap {cfg : Config} {tr : List Event} {s t : Radio} {l : Label}
    {out : List Event} (hs : step cfg s l = some (t, out)) (hw : NoWrap out) :
    NoWrapInGap tr s l := by
  intro hwraps
  cases l with
  | prod p pick =>
    obtain ⟨c, -, -, -, rfl⟩ := move_of_wrapsAt hwraps (step_move hs)
    exact absurd (List.mem_singleton_self _) (hw c.seq_num c.bytes)
  | _ => cases hwraps

/-- At rest, the packet of the next number did not come, as long as no wrap-around
did. -/
theorem Rests.next_is_missing {cfg : Config} {ok : List Event → Radio → Label → Prop} {s : Radio}
    {tr : List Event} (r : Run (radio cfg) ok s tr) (hw : NoWrap tr) (h : Rests s)
    (bs : List Byte) : .enqueued (s.buf.head_pt + 1) bs ∉ tr := by
  intro he
  obtain ⟨hhere, hgoal⟩ := (run_here r he).resolve_left hw.not_lost
  have hcore := the_tail_stays_in_the_window r
  have hatt := run_attended (r.of_events (fun e => ∀ c bs, e ≠ .wrapped c bs)
    (fun _ _ _ _ _ _ hs hout => noWrapInGap_of_noWrap hs fun c bs hm => hout _ hm c bs rfl)
    fun e hm c bs heq => hw c bs (heq ▸ hm))
  have htail : s.buf.head_pt < s.buf.tail_pt := by
    by_contra hle
    exact hgoal (.of_free (by omega) h.queueFree)
  rcases h.cons with ⟨hc, hack⟩ | ⟨i, hc⟩
  · exact hack (hatt.filled hc htail)
  · obtain ⟨rfl, hblock⟩ := hatt.asleep i hc
    have hslot := (hhere.resolve_left (by omega)).slot
    have htl := hcore.tail_lt
    rw [← headPtMod_eq (by omega), hblock] at hslot
    exact hslot.elim nofun nofun

/-! ## The order of delivery -/

theorem deliveredSeqs_append (tr out : List Event) :
    deliveredSeqs (tr ++ out) = deliveredSeqs tr ++ deliveredSeqs out := by
  induction tr with
  | nil => rfl
  | cons e es ih => cases e <;> simp [deliveredSeqs, ih]

/-- Without a wrap-around, the slot of the head has the number past the head. -/
theorem Ledger.head_seq {b : RxDataBuf} {tr : List Event} (h : Ledger Out Bears b tr)
    (hw : NoWrap tr) (hlt : b.head_pt + 1 < 2 ^ 32)
    (hk : (b.book_keep_arr (headPtMod b)).status = .kOccupiedNew) :
    (b.book_keep_arr (headPtMod b)).seq_num = b.head_pt + 1 := by
  have hN := BUF_SIZE_pos
  rw [headPtMod_eq hlt] at hk ⊢
  rcases h.stored _ ⟨Nat.lt_succ_self _, by omega, hlt, hk⟩ with heq | ⟨c, bs, hm, -⟩
  · exact heq
  · exact absurd hm (hw c bs)

/-- The numbers go out in order, each of them once, and none is past the head. -/
theorem run_ordered {cfg : Config} {ok : List Event → Radio → Label → Prop} {s : Radio}
    {tr : List Event} (r : Run (radio cfg) ok s tr) (hw : NoWrap tr) :
    (deliveredSeqs tr).Pairwise (· < ·) ∧ ∀ q ∈ deliveredSeqs tr, q ≤ s.buf.head_pt := by
  refine r.invariant (fun s tr => NoWrap tr → (deliveredSeqs tr).Pairwise (· < ·) ∧
    ∀ q ∈ deliveredSeqs tr, q ≤ s.buf.head_pt) (fun _ _ _ => ⟨.nil, nofun⟩)
    (fun s tr l t out r ih _ hs hw => ?_) hw
  obtain ⟨hord, hle⟩ := ih hw.left
  have hcore := the_tail_stays_in_the_window r
  have m := step_move hs
  have hhead := m.head_le hcore
  rw [deliveredSeqs_append]
  have hquiet : deliveredSeqs out = [] → (deliveredSeqs tr ++ deliveredSeqs out).Pairwise (· < ·) ∧
      ∀ q ∈ deliveredSeqs tr ++ deliveredSeqs out, q ≤ t.buf.head_pt := by
    intro hout
    rw [hout, List.append_nil]
    exact ⟨hord, fun q hq => Nat.le_trans (hle q hq) hhead⟩
  cases m with
  | @deliver i _ hc hk =>
    obtain rfl := hcore.atHead i hc
    have hbusy := hcore.busy (by rw [hc]; rfl)
    have htl := hcore.tail_lt
    have hlt : s.buf.head_pt + 1 < 2 ^ 32 := by omega
    have hseq := (run_ledger out_rules r).head_seq hw.left hlt hk
    rw [signalEmpty_buf, deliver_head hlt, hseq]
    refine ⟨List.pairwise_append.mpr ⟨hord, List.pairwise_singleton _ _, ?_⟩, ?_⟩
    · intro q hq q' hq'
      rw [List.mem_singleton.mp hq']
      exact Nat.lt_succ_of_le (hle q hq)
    · intro q hq
      rcases List.mem_append.mp hq with hq | hq
      · exact Nat.le_succ_of_le (hle q hq)
      · exact Nat.le_of_eq (List.mem_singleton.mp hq)
  | full => exact hquiet (by split <;> rfl)
  | _ => exact hquiet rfl

end wspace_client.threads

namespace wspace_client.feed

open machine bytes code_header rcv_ath sender
open process (FromSender)
open threads (Radio NoWrap Rests Handled TakenIn handled_call givesUp deliveredSeqs)

variable {pkt : Nat → List Byte} {acfg : Config} {S : Sender pkt acfg}

/-! ## The calls of `RxRcvCell` -/

/-- `RxRcvCell` called for a packet. -/
def CellCalled (log : FeedLog) (c : rx_data_buf.EnqueueArgs) : Prop :=
  ∃ e ∈ log, e.label = .other (.call .rcvCell c)

theorem FeedMove.handledCell {cfg : threads.Config} {s t : Feed} {l : FeedLabel}
    {tr out : List threads.Event} {c : rx_data_buf.EnqueueArgs} (hcore : threads.Core s.radio)
    (h : Handled s.radio tr .rcvCell c ∨ l = .other (.call .rcvCell c))
    (m : FeedMove cfg acfg s l t out) : Handled t.radio (tr ++ out) .rcvCell c := by
  rcases h with h | rfl
  · rcases m.onRadio with ⟨-, hradio, rfl⟩ | ⟨k, -, hs⟩
    · rwa [hradio, List.append_nil]
    · exact h.step hcore (threads.step_move hs)
  · cases m with
    | other hl hs => exact handled_call (threads.step_move hs)

/-- Each call of `RxRcvCell` waits, or its packet was taken in. -/
theorem run_handledCell {cfg : threads.Config} {ok : FeedLog → Feed → FeedLabel → Prop}
    {s : Feed} {log : FeedLog} (r : Run (logged (downlink cfg acfg)) ok s log)
    {c : rx_data_buf.EnqueueArgs} (hc : CellCalled log c) :
    Handled s.radio (eventsOf log) .rcvCell c := by
  refine r.invariant (fun s log => ∀ c, CellCalled log c →
    Handled s.radio (eventsOf log) .rcvCell c) (fun _ _ _ ⟨_, he, _⟩ => by cases he)
    (fun s log l t es r ih _ hs c hc => ?_) c hc
  obtain ⟨out, hstep, rfl⟩ := logged_step hs
  rw [eventsOf_snoc]
  refine (feed_move hstep).handledCell (threads.the_tail_stays_in_the_window (run_radio r)) ?_
  obtain ⟨e, he, hl⟩ := hc
  rcases List.mem_append.mp he with he | he
  · exact .inl (ih c ⟨e, he, hl⟩)
  · rw [List.mem_singleton.mp he] at hl
    exact .inr hl

/-! ## The radio at rest -/

/-- The packet of a number came whole: `k` different datagrams of its batch came over
the radio, or `RxRcvCell` brought it. -/
def CameWhole (S : Sender pkt acfg) (log : FeedLog) (q : Nat) : Prop :=
  (∃ b, S.batches b ∧ b.start_seq ≤ q ∧ q < b.start_seq + b.k ∧
    b.k ≤ (arrived acfg b (received log)).dedup.length) ∨
  ∃ c, CellCalled log c ∧ c.seq_num = q

theorem CameWhole.takenIn {cfg : threads.Config}
    (hacfg : acfg.ATH_CODE_HEADER_SIZE = ATH_CODE_HEADER_SIZE) {s : Feed} {log : FeedLog}
    (r : Run (logged (downlink cfg acfg)) (fun _ _ l => FromSender S l) s log)
    (htodo : s.todo = []) (hidle : ∀ p, s.radio.prod p = .idle) {q : Nat}
    (h : CameWhole S log q) : TakenIn s.radio (eventsOf log) q := by
  rcases h with ⟨b, hb, hq, hlt, hk⟩ | ⟨c, hc, rfl⟩
  · exact run_takenIn hacfg r htodo (hidle .rcvAth) hb hk hq hlt
  · exact (run_handledCell r hc).takenIn (hidle .rcvCell)

/-- When the calls for the packets that came have returned and the consumer is
asleep, the head is past each number up to the first one that did not come. -/
theorem head_past_what_came {cfg : threads.Config}
    (hacfg : acfg.ATH_CODE_HEADER_SIZE = ATH_CODE_HEADER_SIZE) {s : Feed} {log : FeedLog}
    (r : Run (logged (downlink cfg acfg)) (fun _ _ l => FromSender S l) s log)
    (hw : NoWrap (eventsOf log)) (htodo : s.todo = []) (hrests : Rests s.radio) {m : Nat}
    (hall : ∀ q, 0 < q → q ≤ m → CameWhole S log q) : m ≤ s.radio.buf.head_pt := by
  by_contra hlt
  rcases (hall (s.radio.buf.head_pt + 1) (by omega) (by omega)).takenIn hacfg r htodo
    hrests.prod with hle | ⟨e, he, bs, hbs⟩
  · omega
  · cases e with
    | enqueued q x =>
      cases List.mem_singleton.mp hbs
      exact hrests.next_is_missing (run_radio r) hw _ he
    | wrapped q x => exact hw _ _ he
    | _ => cases hbs

/-- The packet of a number that the head passed went out with the bytes of the
sender, or its slot was given up. -/
theorem passed_is_out {cfg : threads.Config}
    (hacfg : acfg.ATH_CODE_HEADER_SIZE = ATH_CODE_HEADER_SIZE) {s : Feed} {log : FeedLog}
    (r : Run (logged (downlink cfg acfg)) (fun _ _ l => FromSender S l) s log)
    (hw : NoWrap (eventsOf log)) {q : Nat} (hq : 0 < q) (hle : q ≤ s.radio.buf.head_pt) :
    .delivered (q - 1) q (pkt q) ∈ eventsOf log ∨ ∃ e ∈ eventsOf log, givesUp q e = true := by
  obtain ⟨-, hshows, -⟩ := run_follows hacfg r
  have hledger := threads.run_ledger threads.out_rules (run_radio r)
  rcases hledger.passed q hq hle with ⟨bs, hm⟩ | hgiven | ⟨c, bs, hm, -⟩
  · rw [(hshows _ _ _ hm).2] at hm
    exact .inl hm
  · exact .inr hgiven
  · exact absurd hm (hw c bs)

/-- As long as no wrap-around came, the threads may run in any order and anything
may come besides: when the radio is at rest, the packets up to the first one that
did not come whole went to `RxWriteTun` in order, each of them once and with the
bytes of the sender, but for those whose slots were given up. -/
theorem what_came_whole_is_delivered {cfg : threads.Config}
    (hacfg : acfg.ATH_CODE_HEADER_SIZE = ATH_CODE_HEADER_SIZE) {s : Feed} {log : FeedLog}
    (r : Run (logged (downlink cfg acfg)) (fun _ _ l => FromSender S l) s log)
    (hw : NoWrap (eventsOf log)) (htodo : s.todo = []) (hrests : Rests s.radio) {m : Nat}
    (hall : ∀ q, 0 < q → q ≤ m → CameWhole S log q) :
    (deliveredSeqs (eventsOf log)).Pairwise (· < ·) ∧
      ∀ q, 0 < q → q ≤ m → .delivered (q - 1) q (pkt q) ∈ eventsOf log ∨
        ∃ e ∈ eventsOf log, givesUp q e = true := by
  have hhead := head_past_what_came hacfg r hw htodo hrests hall
  exact ⟨(threads.run_ordered (run_radio r) hw).1,
    fun q hq hle => passed_is_out hacfg r hw hq (Nat.le_trans hle hhead)⟩

/-- Both packets came, and the consumer takes them and falls asleep. -/
def pairTaken : List FeedLabel := pairRun ++ List.replicate 5 (.other (.cons .ath))

def allIdle (s : Radio) : Bool :=
  match s.prod .rcvAth, s.prod .rcvCell with
  | .idle, .idle => true
  | _, _ => false

theorem prod_of_allIdle {s : Radio} (h : allIdle s) (p : threads.Producer) : s.prod p = .idle := by
  unfold allIdle at h
  split at h
  · cases p <;> assumption
  · cases h

theorem pairTaken_fromSender (l : FeedLabel) (hl : l ∈ pairTaken) :
    FromSender (oneBatch pairBatch) l := by
  rcases List.mem_append.mp hl with hl | hl
  · exact pairRun_fromSender l hl
  · rw [List.eq_of_mem_replicate hl]
    trivial

theorem cameWhole_pair {log : FeedLog}
    (hk : 2 ≤ (arrived ⟨1, 1, 36⟩ pairBatch (received log)).dedup.length) :
    ∀ q, 0 < q → q ≤ 2 → CameWhole (oneBatch pairBatch) log q :=
  fun _ hq hle => .inl ⟨pairBatch, rfl, hq, Nat.lt_succ_of_le hle, hk⟩

theorem the_pair_is_delivered : ∃ s log,
    Run (logged (downlink ⟨25, 500⟩ ⟨1, 1, 36⟩)) (fun _ _ l => FromSender (oneBatch pairBatch) l)
      s log ∧
    (deliveredSeqs (eventsOf log)).Pairwise (· < ·) ∧
      ∀ q, 0 < q → q ≤ 2 → .delivered (q - 1) q (pairPkts q) ∈ eventsOf log ∨
        ∃ e ∈ eventsOf log, givesUp q e = true := by
  obtain ⟨s, log, r, hs⟩ := run_of_check (logged (downlink ⟨25, 500⟩ ⟨1, 1, 36⟩))
    (fun _ _ l => FromSender (oneBatch pairBatch) l) pairTaken
    (fun x => x.1.todo.isEmpty && allIdle x.1.radio &&
      decide (x.1.radio.cons = .waitFill false ∧ x.1.radio.ack ≠ .waitFill true) &&
      decide (eventsOf x.2 = [.enqueued 2 [8], .enqueued 1 [9], .delivered 0 1 [9],
        .delivered 1 2 [8]]) &&
      decide (2 ≤ (arrived ⟨1, 1, 36⟩ pairBatch (received x.2)).dedup.length)) atStart_fresh
    (execOk_of_labels (fun l hl _ _ => pairTaken_fromSender l hl) _ _) (by decide +kernel)
  simp only [Bool.and_eq_true, List.isEmpty_iff, decide_eq_true_eq] at hs
  obtain ⟨⟨⟨⟨htodo, hidle⟩, hcons⟩, hev⟩, hk⟩ := hs
  have hw : NoWrap (eventsOf log) := by
    intro c bs hm
    rw [hev] at hm
    simp at hm
  exact ⟨s, log, r, what_came_whole_is_delivered rfl r hw htodo
    ⟨prod_of_allIdle hidle, .inl hcons⟩ (cameWhole_pair hk)⟩

end wspace_client.feed

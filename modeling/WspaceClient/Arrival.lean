-- From the datagrams to the buffer: once `k` different datagrams of a batch came,
-- each of its packets waits in its slot with the bytes of the sender, or it is
-- out. The calls of `RxRcvAth` wait and run among the other threads in any order.
import WspaceClient.EndToEnd
import WspaceClient.Fate
import WspaceClient.WindowTests

namespace wspace_client.threads

open machine batch_info rx_data_buf

/-! ## A call until it returns -/

/-- The head passed the number, or a call for it passed the full check. -/
def TakenIn (s : Radio) (tr : List Event) (q : Nat) : Prop :=
  q ≤ s.buf.head_pt ∨ ∃ e ∈ tr, ∃ bs, (q, bs) ∈ admits e

theorem TakenIn.step {cfg : Config} {s t : Radio} {l : Label} {tr out : List Event} {q : Nat}
    (hcore : Core s) (h : TakenIn s tr q) (m : Move cfg s l t out) : TakenIn t (tr ++ out) q := by
  rcases h with h | ⟨e, he, hb⟩
  · exact .inl (Nat.le_trans h (m.head_le hcore))
  · exact .inr ⟨e, List.mem_append_left out he, hb⟩

/-- The call waits for `qlock_`, or it is through with its packet. -/
def Handled (s : Radio) (tr : List Event) (p : Producer) (c : EnqueueArgs) : Prop :=
  Entering s p c ∨ TakenIn s tr c.seq_num

theorem Handled.step {cfg : Config} {s t : Radio} {l : Label} {p : Producer} {c : EnqueueArgs}
    {tr out : List Event} (hcore : Core s) (h : Handled s tr p c) (m : Move cfg s l t out) :
    Handled t (tr ++ out) p c := by
  rcases h with h | h
  · by_cases hl : ∃ pick, l = .prod p pick
    · obtain ⟨pick, rfl⟩ := hl
      cases m with
      | full hent =>
        obtain rfl := h.unique hent
        exact .inl (.inr ⟨false, setProd_self _ _ _⟩)
      | wrap hent | store hent =>
        obtain rfl := h.unique hent
        exact .inr (.inr ⟨_, List.mem_append_right tr (List.mem_singleton_self _), _,
          List.mem_singleton_self _⟩)
      | stale hent hq hf hs | staleTail hent hq hf hs =>
        obtain rfl := h.unique hent
        exact .inr (.inl hs)
      | clear hc | finish hc => exact absurd hc (h.not_clearing _ _)
    · exact .inl (h.others (fun pick he => hl ⟨pick, he⟩) m)
  · exact .inr (h.step hcore m)

theorem handled_call {cfg : Config} {s t : Radio} {p : Producer} {c : EnqueueArgs}
    {tr out : List Event} (m : Move cfg s (.call p c) t out) : Handled t (tr ++ out) p c := by
  cases m
  exact .inl (.inl (setProd_self _ _ _))

/-- A number that was taken in waits in its slot or is out, unless a wrap-around
took it. -/
theorem fate_of_takenIn {cfg : Config} {ok : List Event → Radio → Label → Prop} {s : Radio}
    {tr : List Event} (r : Run (radio cfg) ok s tr) {q : Nat} (hq : 0 < q)
    (h : TakenIn s tr q) : (∃ bs, InSlot s.buf q bs) ∨ Out q tr ∨ Lost q tr := by
  rcases h with hle | ⟨e, he, bs, hbs⟩
  · exact .inr (.inl ((run_ledger out_rules r).passed q hq hle))
  · cases e with
    | enqueued q' x =>
      cases List.mem_singleton.mp hbs
      exact run_fate r hq he
    | wrapped q' x =>
      cases List.mem_singleton.mp hbs
      exact .inr (.inr ⟨q, bs, he, .inl (Nat.le_refl q)⟩)
    | _ => cases hbs

/-- A call that returned took its packet in. -/
theorem Handled.takenIn {s : Radio} {p : Producer} {c : EnqueueArgs} {tr : List Event}
    (h : Handled s tr p c) (hp : s.prod p = .idle) : TakenIn s tr c.seq_num := by
  refine h.resolve_left fun hent => ?_
  rcases hent with he | ⟨w, he⟩ <;> rw [hp] at he <;> cases he

end wspace_client.threads

namespace wspace_client.feed

open machine bytes code_header rcv_ath sender
open process (Sound FromSender Covers)
open rx_data_buf (seq2Ind)
open threads (Radio Core Handled InSlot Lost TakenIn givesUp handled_call)

variable {pkt : Nat → List Byte} {acfg : Config} {S : Sender pkt acfg}

/-! ## What came and what was called -/

/-- The packet that a step takes from the downlink. -/
def taken : FeedLabel → Option AthCodePkt
  | .recv m nread => some (athCodePkt m nread)
  | .next | .other _ => none

/-- The packets of the downlink, in the order in which they came. -/
def received (log : FeedLog) : List AthCodePkt := log.filterMap fun e => taken e.label

theorem eventsOf_snoc (log : FeedLog) (s : Feed) (l : FeedLabel) (out : List threads.Event) :
    eventsOf (log ++ [⟨s, l, out⟩]) = eventsOf log ++ out := by
  unfold eventsOf
  rw [List.flatMap_append, List.flatMap_singleton]

theorem received_snoc (log : FeedLog) (s : Feed) (l : FeedLabel) (out : List threads.Event) :
    received (log ++ [⟨s, l, out⟩]) = received log ++ (taken l).toList := by
  unfold received
  rw [List.filterMap_append]
  cases l <;> rfl

/-- What `EnqueuePkt` was called for is handled. -/
def EventHandled (s : Radio) (tr : List threads.Event) : Event → Prop
  | .enqueuePkt _ x => Handled s tr .rcvAth (enqueueArgs x)
  | _ => True

theorem handled_of_quiet {s : Radio} {tr : List threads.Event} {e : Event}
    (h : radioLabel e = none) : EventHandled s tr e := by
  cases e with
  | enqueuePkt b x => cases h
  | _ => trivial

/-- The thread is where the packets took it, and the calls that it made are
handled. -/
structure Follows (S : Sender pkt acfg) (s : Feed) (ps : List AthCodePkt)
    (tr : List threads.Event) (made : List Event) : Prop where
  progress : Progress S ps s.rcv (made ++ s.todo)
  handled : ∀ e ∈ made, EventHandled s.radio tr e

theorem Genuine.enqueueArgs_seq {x : NativePkt} (h : Genuine S x) :
    (enqueueArgs x).seq_num = x.seq_num ∧ 0 < x.seq_num := by
  obtain ⟨b, i, -, hi, hseq, -⟩ := h
  have hfits := b.fits
  have hpos := b.start_seq_pos
  exact ⟨u32_of_lt (by omega), by omega⟩

/-- A step of the radio keeps the calls handled. -/
theorem EventHandled.step {cfg : threads.Config} {s t : Radio} {l : threads.Label}
    {tr out : List threads.Event} {e : Event} (hcore : Core s) (h : EventHandled s tr e)
    (hs : threads.step cfg s l = some (t, out)) : EventHandled t (tr ++ out) e := by
  cases e with
  | enqueuePkt b x => exact Handled.step hcore h (threads.step_move hs)
  | _ => trivial

/-- The call that `RxRcvAth` makes. -/
theorem eventHandled_call {cfg : threads.Config} {s t : Radio} {l : threads.Label}
    {tr out : List threads.Event} {e : Event} (hl : radioLabel e = some l)
    (hs : threads.step cfg s l = some (t, out)) : EventHandled t (tr ++ out) e := by
  cases e with
  | enqueuePkt b x =>
    cases hl
    exact handled_call (threads.step_move hs)
  | _ => trivial

theorem Follows.step {cfg : threads.Config}
    (hacfg : acfg.ATH_CODE_HEADER_SIZE = ATH_CODE_HEADER_SIZE) {s t : Feed} {l : FeedLabel}
    {ps : List AthCodePkt} {tr out : List threads.Event} {made : List Event}
    (hcore : Core s.radio) (hl : FromSender S l)
    (h : Follows S s ps tr made) (m : FeedMove cfg acfg s l t out) :
    ∃ made', Follows S t (ps ++ (taken l).toList) (tr ++ out) made' := by
  have hkeep : ∀ {k r}, threads.step cfg s.radio k = some (r, out) →
      ∀ e ∈ made, EventHandled r (tr ++ out) e := fun hs e he => (h.handled e he).step hcore hs
  cases m with
  | @recv m nread htodo =>
    have hp := h.progress
    rw [htodo, List.append_nil] at hp
    obtain ⟨u, calls, hrx, hu⟩ := hp.next hacfg (Incoming.arrives hl)
    have hturn : turn acfg s.rcv (athCodePkt m nread) = (u, calls, false) := by
      unfold turn
      rw [hrx]
    rw [hturn, List.append_nil]
    exact ⟨made, hu, h.handled⟩
  | @call e todo k r _ htodo hk hs =>
    have hp := h.progress
    rw [htodo, List.append_cons] at hp
    refine ⟨made ++ [e], by rwa [taken, Option.toList_none, List.append_nil], fun e' he' => ?_⟩
    rcases List.mem_append.mp he' with he' | he'
    · exact hkeep hs e' he'
    · rw [List.mem_singleton.mp he']
      exact eventHandled_call hk hs
  | @skip e todo htodo hk =>
    have hp := h.progress
    rw [htodo, List.append_cons] at hp
    refine ⟨made ++ [e], by rwa [taken, Option.toList_none, List.append_nil], fun e' he' => ?_⟩
    rw [List.append_nil]
    rcases List.mem_append.mp he' with he' | he'
    · exact h.handled e' he'
    · rw [List.mem_singleton.mp he']
      exact handled_of_quiet hk
  | @other k r _ hk hs =>
    refine ⟨made, ?_, hkeep hs⟩
    rw [taken, Option.toList_none, List.append_nil]
    exact h.progress

/-! ## Every run -/

/-- Every packet that was delivered is the sender's. -/
def Shows (S : Sender pkt acfg) (tr : List threads.Event) : Prop :=
  ∀ hd q bs, .delivered hd q bs ∈ tr → Covers S q ∧ bs = pkt q

theorem Shows.append {tr out : List threads.Event} (h : Shows S tr) (h' : Shows S out) :
    Shows S (tr ++ out) :=
  fun hd q bs he => (List.mem_append.mp he).elim (h hd q bs) (h' hd q bs)

theorem run_follows {cfg : threads.Config}
    (hacfg : acfg.ATH_CODE_HEADER_SIZE = ATH_CODE_HEADER_SIZE) {s : Feed} {log : FeedLog}
    (r : Run (logged (downlink cfg acfg)) (fun _ _ l => FromSender S l) s log) :
    Sound S s ∧ Shows S (eventsOf log) ∧
      ∃ made, Follows S s (received log) (eventsOf log) made := by
  refine r.invariant (fun s log => Sound S s ∧ Shows S (eventsOf log) ∧
    ∃ made, Follows S s (received log) (eventsOf log) made) (fun s h => ?_)
    fun s log l t es r ih hl hs => ?_
  · refine ⟨process.fresh_sound S h, nofun, [], ?_, nofun⟩
    obtain ⟨-, hrcv, htodo, -⟩ := h
    rw [htodo]
    exact Fresh.progress S hrcv
  · obtain ⟨hsound, hshows, made, hfol⟩ := ih
    obtain ⟨out, hstep, rfl⟩ := logged_step hs
    obtain ⟨ht, hdel⟩ := hsound.step hacfg hl hstep
    rw [eventsOf_snoc, received_snoc]
    exact ⟨ht, hshows.append hdel, hfol.step hacfg
      (threads.the_tail_stays_in_the_window (run_radio r)) hl (feed_move hstep)⟩

/-- When the calls for the packets that came were made and have returned, each
packet of a batch of which `k` different datagrams came was taken in. -/
theorem run_takenIn {cfg : threads.Config}
    (hacfg : acfg.ATH_CODE_HEADER_SIZE = ATH_CODE_HEADER_SIZE) {s : Feed} {log : FeedLog}
    (r : Run (logged (downlink cfg acfg)) (fun _ _ l => FromSender S l) s log)
    (htodo : s.todo = []) (hidle : s.radio.prod .rcvAth = .idle) {b : Batch pkt}
    (hb : S.batches b) (hk : b.k ≤ (arrived acfg b (received log)).dedup.length) {q : Nat}
    (hq : b.start_seq ≤ q) (hlt : q < b.start_seq + b.k) : TakenIn s.radio (eventsOf log) q := by
  obtain ⟨-, -, made, hp, hhandled⟩ := run_follows hacfg r
  rw [htodo, List.append_nil] at hp
  obtain ⟨x, hx, hseq⟩ := hp.complete b hb hk (q - b.start_seq) (by omega)
  have hxq : (enqueueArgs x).seq_num = q := by
    rw [(Genuine.enqueueArgs_seq (hp.genuine _ hx)).1, hseq]
    omega
  rw [← hxq]
  exact Handled.takenIn (hhandled _ hx) hidle

theorem prod_of_isIdle {s : Radio} (h : isIdle s) : s.prod .rcvAth = .idle := by
  unfold isIdle at h
  split at h
  · assumption
  · cases h

/-- A packet in a slot is the sender's. -/
theorem inSlot_genuine {s : Feed} (h : Sound S s) {q : Nat} {bs : List Byte}
    (hin : InSlot s.radio.buf q bs) : bs = pkt q :=
  (process.came_isSent (h.carries.cells _ _ hin.2.2)).2

/-- Whatever comes besides, and however the threads run: when the calls for the
packets that came were made and have returned, each packet of a batch of which `k`
different datagrams came waits in its slot with the bytes of the sender, or went out
with them, or its slot was given up, unless a wrap-around took it. -/
theorem a_whole_batch_is_put_in_place {cfg : threads.Config}
    (hacfg : acfg.ATH_CODE_HEADER_SIZE = ATH_CODE_HEADER_SIZE) {s : Feed} {log : FeedLog}
    (r : Run (logged (downlink cfg acfg)) (fun _ _ l => FromSender S l) s log)
    (htodo : s.todo = []) (hidle : isIdle s.radio) {b : Batch pkt} (hb : S.batches b)
    (hk : b.k ≤ (arrived acfg b (received log)).dedup.length) :
    ∀ q, b.start_seq ≤ q → q < b.start_seq + b.k →
      InSlot s.radio.buf q (pkt q) ∨ .delivered (q - 1) q (pkt q) ∈ eventsOf log ∨
        (∃ e ∈ eventsOf log, givesUp q e = true) ∨ Lost q (eventsOf log) := by
  intro q hq hlt
  have hpos := b.start_seq_pos
  obtain ⟨hsound, hshows, -⟩ := run_follows hacfg r
  rcases threads.fate_of_takenIn (run_radio r) (by omega)
    (run_takenIn hacfg r htodo (prod_of_isIdle hidle) hb hk hq hlt) with
    ⟨bs, hin⟩ | (⟨bs, hm⟩ | hgiven | hjump) | hlost
  · rw [← inSlot_genuine hsound hin]
    exact .inl hin
  · rw [(hshows _ _ _ hm).2] at hm
    exact .inr (.inl hm)
  · exact .inr (.inr (.inl hgiven))
  · exact .inr (.inr (.inr hjump.lost))
  · exact .inr (.inr (.inr hlost))

/-! ## Two packets -/

/-- Packet 1 has the byte 9, and packet 2 the byte 8. -/
def pairPkts : Nat → List Byte
  | 1 => [9]
  | _ => [8]

theorem pair_sizes : Sizes 1 1 2 2 1 1 := by
  constructor <;> decide

theorem pair_lens : ∀ i < 2, 1 ≤ (pairPkts (1 + i)).length ∧
    (pairPkts (1 + i)).length ≤ rx_data_buf.PKT_SIZE := by decide

def pairBatch : Batch pairPkts := batchOf pair_sizes pair_lens

theorem pair_native : ∀ j < pairBatch.k, (pairBatch.native j).length = 1
  | 0, _ => rfl
  | 1, _ => rfl

/-- A packet comes and is called for, and its call returns after `n` steps. -/
def pairTurn (i n : Nat) : List FeedLabel :=
  .recv (nativeMem pairBatch 1 i) 41 :: (List.replicate 4 .next ++
    List.replicate n (.other (.prod .rcvAth .ath)))

/-- The second packet comes first. -/
def pairRun : List FeedLabel := pairTurn 1 4 ++ pairTurn 0 1 ++ [.next]

theorem pairTurn_fromSender {i : Nat} (hi : i < 2) (n : Nat) :
    ∀ l ∈ pairTurn i n, FromSender (oneBatch pairBatch) l := by
  intro l hl
  simp only [pairTurn, List.mem_cons, List.mem_append, List.mem_replicate] at hl
  rcases hl with rfl | ⟨-, rfl⟩ | ⟨-, rfl⟩
  · exact native_incoming (b := pairBatch) rfl pair_native hi
  · trivial
  · trivial

theorem pairRun_fromSender (l : FeedLabel) (hl : l ∈ pairRun) :
    FromSender (oneBatch pairBatch) l := by
  rcases List.mem_append.mp hl with hl | hl
  · rcases List.mem_append.mp hl with hl | hl
    · exact pairTurn_fromSender Nat.one_lt_two 4 l hl
    · exact pairTurn_fromSender Nat.two_pos 1 l hl
  · rw [List.mem_singleton.mp hl]
    trivial

theorem the_pair_is_put_in_place : ∃ s log,
    Run (logged (downlink ⟨25, 500⟩ ⟨1, 1, 36⟩)) (fun _ _ l => FromSender (oneBatch pairBatch) l)
      s log ∧
    ∀ q, 1 ≤ q → q < 3 → InSlot s.radio.buf q (pairPkts q) ∨
      .delivered (q - 1) q (pairPkts q) ∈ eventsOf log ∨
        (∃ e ∈ eventsOf log, givesUp q e = true) ∨ Lost q (eventsOf log) := by
  obtain ⟨s, log, r, hs⟩ := run_of_check (logged (downlink ⟨25, 500⟩ ⟨1, 1, 36⟩))
    (fun _ _ l => FromSender (oneBatch pairBatch) l) pairRun
    (fun x => x.1.todo.isEmpty && isIdle x.1.radio &&
      decide (2 ≤ (arrived ⟨1, 1, 36⟩ pairBatch (received x.2)).dedup.length)) atStart_fresh
    (execOk_of_labels (fun l hl _ _ => pairRun_fromSender l hl) _ _) (by decide +kernel)
  rw [Bool.and_eq_true, Bool.and_eq_true, List.isEmpty_iff, decide_eq_true_eq] at hs
  obtain ⟨⟨htodo, hidle⟩, hk⟩ := hs
  exact ⟨s, log, r, a_whole_batch_is_put_in_place rfl r htodo hidle (b := pairBatch) rfl hk⟩

end wspace_client.feed

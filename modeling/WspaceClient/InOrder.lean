-- The laws of delivery. Inside the window, packets are delivered in order,
-- once, and without loss. A wrap-around keeps the packet that caused it,
-- unless another packet holds its slot.
import WspaceClient.Ledger

namespace wspace_client.threads

open machine batch_info rx_data_buf reorder

/-- In every gentle run the buffer is a reorder queue: its events are a run of
the queue, and its packets are what the queue holds. -/
theorem the_buffer_is_a_reorder_queue {cfg : Config} {s : Radio} {tr : List Event}
    (r : Run (radio cfg) Gentle s tr) :
    Run queue anyStep (packets s.buf) (tr.filterMap op) := by
  refine r.refines (fun s => packets s.buf) op ?_ ?_
  · intro s h0
    refine packets_eq h0.1.1.symm (fun q hq => ?_) (fun _ _ => rfl)
    exact absurd hq.2.2.2 (fresh_no_packet h0 _)
  · intro s tr l t out r hok hs
    have hcore := the_tail_stays_in_the_window r
    exact (move_buffer hok.1.1.1 hcore (step_move hs)).refines hok hcore
      (run_below (r.mono fun _ _ _ h => h.1.1)) (run_fits r)

theorem mem_ops {tr : List Event} {e : Event} {o : Op (List Byte)} (h : e ∈ tr)
    (ho : op e = some o) : o ∈ tr.filterMap op := List.mem_filterMap.mpr ⟨e, h, ho⟩

theorem not_mem_quiet {out : List Event} {e : Event} {o : Op (List Byte)}
    (hout : out.filterMap op = []) (ho : op e = some o) : e ∉ out := by
  intro h
  have hin := mem_ops h ho
  rw [hout] at hin
  cases hin

/-! ## First copies -/

/-- The bytes of the first copy that was enqueued under a number. -/
def firstCopy : List Event → Nat → Option (List Byte)
  | [], _ => none
  | .enqueued r bs :: es, q => if r = q then some bs else firstCopy es q
  | _ :: es, q => firstCopy es q

theorem firstPut_op (tr : List Event) (q : Nat) :
    firstPut (tr.filterMap op) q = firstCopy tr q := by
  induction tr with
  | nil => rfl
  | cons e es ih => cases e <;> simp [List.filterMap_cons, op, firstPut, firstCopy, ih]

theorem firstCopy_isSome {tr : List Event} {q : Nat} {bs : List Byte}
    (h : .enqueued q bs ∈ tr) : (firstCopy tr q).isSome := by
  rw [← firstPut_op]
  obtain ⟨a, ha⟩ := firstPut_isSome (mem_ops h rfl)
  rw [ha]
  rfl

/-- The numbers in the slots of the delivered packets, in order. -/
def deliveredSeqs : List Event → List Nat
  | [] => []
  | .delivered _ q _ :: es => q :: deliveredSeqs es
  | _ :: es => deliveredSeqs es

theorem taken_op {tr : List Event} (h : ∀ hd q bs, .delivered hd q bs ∈ tr → q = hd + 1) :
    taken (tr.filterMap op) = deliveredSeqs tr := by
  induction tr with
  | nil => rfl
  | cons e es ih =>
    have ih := ih fun hd q bs hm => h hd q bs (List.mem_cons_of_mem _ hm)
    cases e with
    | delivered hd q bs =>
      simp [op, taken, deliveredSeqs, ih, h hd q bs List.mem_cons_self]
    | _ => simp [List.filterMap_cons, op, taken, deliveredSeqs, ih]

/-! ## The number in the slot -/

/-- In clean runs the delivered slot has the number past the head. -/
theorem delivered_at_its_number {cfg : Config} {s : Radio} {tr : List Event}
    (r : Run (radio cfg) Clean s tr) :
    ∀ hd q bs, .delivered hd q bs ∈ tr → q = hd + 1 := by
  have hev := r.events (fun e => ∀ hd q bs, e = .delivered hd q bs → q = hd + 1) ?_
  · exact fun hd q bs hm => hev _ hm hd q bs rfl
  · intro s tr l t out r hok hs e he hd q bs hde
    subst hde
    have hcore := the_tail_stays_in_the_window r
    have hord := hcore.order
    have htl := hcore.tail_lt
    have hb := move_buffer hok.1.1 hcore (step_move hs)
    generalize t.buf = b at hb
    cases hb with
    | quiet _ _ _ ho =>
      exact absurd he (not_mem_quiet ho rfl)
    | store => simp at he
    | wrap => simp at he
    | deliver hlt hk =>
      simp only [List.mem_singleton, Event.delivered.injEq] at he
      obtain ⟨rfl, rfl, -⟩ := he
      rw [headPtMod_eq (by omega)]
      exact (run_placed r).seq_num hcore.aligned (head_stored (by omega) hk)
    | giveUp => simp at he

/-! ## Inside the window -/

theorem no_wrap_in_window {cfg : Config} {s : Radio} {tr : List Event}
    (r : Run (radio cfg) InWindow s tr) : NoJump (tr.filterMap op) := by
  have hev := r.events (fun e => ∀ q bs, e ≠ .wrapped q bs) ?_
  · intro q bs hm
    obtain ⟨e, he, hop⟩ := List.mem_filterMap.mp hm
    cases e with
    | wrapped q' bs' => exact hev _ he q' bs' rfl
    | _ => simp [op] at hop
  · rintro s tr l t out r hok hs e he q bs rfl
    have hb := move_buffer hok.1 (the_tail_stays_in_the_window r) (step_move hs)
    generalize t.buf = b at hb
    cases hb with
    | quiet _ _ _ ho =>
      exact absurd he (not_mem_quiet ho rfl)
    | wrap hc hs hw =>
      obtain ⟨hin, hno, -⟩ := hok.2 _ hc
      have := lt_of_isWrap hw hno
      omega
    | _ => simp at he

/-- Inside the window, `DequeuePkt` delivers in order, each number once, and
the first copy of each; what was enqueued and not delivered is still there;
and what is given up was marked, and never came. -/
theorem delivery_is_in_order_once_and_lossless {cfg : Config} {s : Radio} {tr : List Event}
    (r : Run (radio cfg) InWindow s tr) :
    (s.buf.head_pt ≤ s.buf.tail_pt ∧ s.buf.tail_pt ≤ s.buf.head_pt + BUF_SIZE) ∧
    (deliveredSeqs tr).Pairwise (· < ·) ∧
    (∀ hd q bs, .delivered hd q bs ∈ tr → q = hd + 1 ∧ firstCopy tr q = some bs) ∧
    (∀ q bs, .enqueued q bs ∈ tr → ∃ first, firstCopy tr q = some first ∧
      ((s.buf.head_pt < q ∧ q ≤ s.buf.head_pt + BUF_SIZE ∧
          (s.buf.book_keep_arr (seq2Ind q)).status = .kOccupiedNew ∧
          slotBytes s.buf (seq2Ind q) = first) ∨
        .delivered (q - 1) q first ∈ tr)) ∧
    (∀ hd q st, .gaveUp hd q st ∈ tr → st = .kDrop ∧ firstCopy tr (hd + 1) = none) := by
  have hcore := the_tail_stays_in_the_window r
  have rg := r.mono fun _ _ _ h => h.gentle
  have hseq := delivered_at_its_number (rg.mono fun _ _ _ h => h.1)
  have rq := the_buffer_is_a_reorder_queue rg
  have hkept := reorder.run_kept rq (no_wrap_in_window r)
  refine ⟨⟨hcore.order, hcore.window⟩, ?_, ?_, ?_, ?_⟩
  · rw [← taken_op hseq]
    exact items_leave_in_order rq
  · intro hd q bs hm
    have hq := hseq hd q bs hm
    refine ⟨hq, ?_⟩
    rw [hq, ← firstPut_op]
    exact ((hkept.left _ _).mp (mem_ops hm rfl)).2
  · intro q bs hm
    obtain ⟨first, hfirst⟩ := Option.isSome_iff_exists.mp (firstCopy_isSome hm)
    refine ⟨first, hfirst, ?_⟩
    rw [← firstPut_op] at hfirst
    by_cases hq : s.buf.head_pt < q
    · have hst := hkept.stored q hq
      rw [hfirst] at hst
      obtain ⟨⟨-, hw, -, hocc⟩, hbytes⟩ := stored_of_packets hst
      exact .inl ⟨hq, hw, hocc, hbytes⟩
    · have hin := (hkept.left q first).mpr ⟨Nat.le_of_not_lt hq, hfirst⟩
      obtain ⟨e, he, hop⟩ := List.mem_filterMap.mp hin
      cases e with
      | delivered hd q' bs' =>
        simp only [op, Option.some.injEq, Op.take.injEq] at hop
        obtain ⟨rfl, rfl⟩ := hop
        rw [hseq hd q' bs' he] at he
        exact .inr he
      | _ => simp [op] at hop
  · intro hd q st hm
    rw [← firstPut_op]
    exact ⟨run_gaveUp r hm, (hkept.missing _ (mem_ops hm rfl)).2⟩

/-- Packet 2 comes before packet 1. -/
def swappedRun : List Label :=
  [.call .rcvAth (onePkt 2 7)] ++ List.replicate 4 (.prod .rcvAth .ath) ++
    [.call .rcvCell (onePkt 1 6), .prod .rcvCell .ath] ++
    List.replicate 4 (.cons .ath)

theorem swapped_packets_are_delivered_in_order :
    ∃ s tr, Run (radio ⟨25, 500⟩) InWindow s tr ∧ deliveredSeqs tr = [1, 2] ∧
      firstCopy tr 1 = some [6] ∧ firstCopy tr 2 = some [7] := by
  obtain ⟨s, tr, r, hs⟩ := run_of_check (radio ⟨25, 500⟩) InWindow swappedRun
    (fun x => decide (x.2 = [.enqueued 2 [7], .enqueued 1 [6], .delivered 0 1 [6],
      .delivered 1 2 [7]])) atStart_fresh (by decide +kernel) (by decide +kernel)
  have htr : tr = [.enqueued 2 [7], .enqueued 1 [6], .delivered 0 1 [6], .delivered 1 2 [7]] :=
    of_decide_eq_true hs
  obtain ⟨-, -, hcopy, -, -⟩ := delivery_is_in_order_once_and_lossless r
  exact ⟨s, tr, r, by rw [htr]; rfl, (hcopy 0 1 [6] (by simp [htr])).2,
    (hcopy 1 2 [7] (by simp [htr])).2⟩

/-! ## Past the window -/

/-- The step of a call past the window leaves exactly its packet, unless
another packet holds its slot. -/
theorem wrap_holdsOnly {cfg : Config} {s t : Radio} {p : Producer} {pick : Pick}
    {c : EnqueueArgs} {out : List Event} (hb : Below s.buf)
    (hno : s.buf.head_pt + BUF_SIZE < 2 ^ 32)
    (hc : admitted s (.prod p pick) = some c) (hlt : s.buf.head_pt + BUF_SIZE < c.seq_num)
    (m : Move cfg s (.prod p pick) t out) :
    HoldsOnly t.buf c ↔
      (s.buf.book_keep_arr (seq2Ind c.seq_num)).status ≠ .kOccupiedNew := by
  obtain ⟨hent, hq, hf⟩ := admitted_iff.mp hc
  have hw : isWrap s.buf c.seq_num := by simpa [isWrap, add32_of_lt hno] using hlt
  obtain ⟨c', hent', -, rfl, -⟩ :=
    move_of_wrapsAt (wrapsAt_iff.mpr ⟨c, hent, hq, hf, by omega, hw⟩) m
  obtain rfl := hent.unique hent'
  simp only [setProd_buf, signalEmpty_buf, signalFill_buf, signalElementAvail_buf]
  exact holdsOnly_wrapAround hb hlt

/-- The step moves the head. -/
def Event.movesHead : Event → Bool
  | .wrapped _ _ | .delivered _ _ _ | .gaveUp _ _ _ => true
  | _ => false

theorem waiting_of_quiet (os : List (Op (List Byte))) {mid : List Event}
    (h : ∀ x ∈ mid, x.movesHead = false) :
    waiting (os ++ mid.filterMap op) = waiting os := by
  rw [waiting, waiting, List.foldl_append]
  generalize os.foldl waitingAfter none = w
  induction mid with
  | nil => rfl
  | cons x xs ih =>
    have hx := h x List.mem_cons_self
    have ih := ih fun y hy => h y (List.mem_cons_of_mem _ hy)
    cases x with
    | wrapped => cases hx
    | delivered => cases hx
    | gaveUp => cases hx
    | _ => simpa [List.filterMap_cons, op, waitingAfter] using ih

/-- After a wrap-around, `DequeuePkt` returns with its packet first. -/
theorem the_wrapped_packet_comes_next {cfg : Config} {s : Radio} {tr pre mid post : List Event}
    {q : Nat} {bs : List Byte} {e : Event} (r : Run (radio cfg) Gentle s tr)
    (htr : tr = pre ++ .wrapped q bs :: (mid ++ e :: post))
    (hmid : ∀ x ∈ mid, x.movesHead = false) :
    (∀ hd p bs', e = .delivered hd p bs' → hd + 1 = q ∧ p = q ∧ bs' = bs) ∧
      ∀ hd p st, e ≠ .gaveUp hd p st := by
  have rq := the_buffer_is_a_reorder_queue r
  have hw : waiting ((pre ++ [Event.wrapped q bs]).filterMap op ++ mid.filterMap op) =
      some (q, bs) := by
    rw [waiting_of_quiet _ hmid, List.filterMap_append]
    change waiting (pre.filterMap op ++ [.jump q bs]) = _
    rw [waiting_snoc]
    rfl
  have hops : ∀ o, op e = some o → tr.filterMap op =
      ((pre ++ [Event.wrapped q bs]).filterMap op ++ mid.filterMap op) ++
        o :: post.filterMap op := by
    intro o ho
    have hwrap : op (Event.wrapped q bs) = some (.jump q bs) := rfl
    simp [htr, List.filterMap_cons_some hwrap, List.filterMap_cons_some ho]
  refine ⟨?_, ?_⟩
  · rintro hd p bs' rfl
    obtain ⟨htake, -⟩ := the_item_of_a_jump_leaves_next rq (hops _ rfl) hw
    obtain ⟨hq, hbs⟩ := htake _ _ rfl
    have hp := delivered_at_its_number (r.mono fun _ _ _ h => h.1) hd p bs' (by rw [htr]; simp)
    exact ⟨hq, by omega, hbs⟩
  · rintro hd p st rfl
    exact (the_item_of_a_jump_leaves_next rq (hops _ rfl) hw).2 _ rfl

/-- A packet past the window ends alone in the buffer if and only if no other
packet holds its slot. When none ever does, packets are delivered at their own
numbers, and as long as the payloads fit their slots, they are delivered as
they came, the packet of a wrap-around first. -/
theorem a_wrap_around_keeps_the_newest_packet (cfg : Config) :
    (∀ s tr, Run (radio cfg) NoOverflow s tr → ∀ p pick c t out,
      NoOverflow tr s (.prod p pick) → admitted s (.prod p pick) = some c →
      s.buf.head_pt + BUF_SIZE < c.seq_num → step cfg s (.prod p pick) = some (t, out) →
      (HoldsOnly t.buf c ↔
        (s.buf.book_keep_arr (seq2Ind c.seq_num)).status ≠ .kOccupiedNew)) ∧
    (∀ s tr, Run (radio cfg) Clean s tr →
      ∀ hd q bs, .delivered hd q bs ∈ tr → q = hd + 1) ∧
    (∀ s tr, Run (radio cfg) Gentle s tr →
      (∀ hd q bs, .delivered hd q bs ∈ tr → .enqueued q bs ∈ tr ∨ .wrapped q bs ∈ tr) ∧
      ∀ pre mid post q bs e, tr = pre ++ .wrapped q bs :: (mid ++ e :: post) →
        (∀ x ∈ mid, x.movesHead = false) →
        (∀ hd p bs', e = .delivered hd p bs' → hd + 1 = q ∧ p = q ∧ bs' = bs) ∧
          ∀ hd p st, e ≠ .gaveUp hd p st) := by
  refine ⟨?_, fun s tr r => delivered_at_its_number r, fun s tr r => ⟨?_, ?_⟩⟩
  · intro s tr r p pick c t out hok hc hlt hs
    exact wrap_holdsOnly (run_below r) (hok.2 c hc) hc hlt (step_move hs)
  · intro hd q bs hm
    have hq := delivered_at_its_number (r.mono fun _ _ _ h => h.1) hd q bs hm
    have hcame := (run_genuine (the_buffer_is_a_reorder_queue r)).left (hd + 1) bs (mem_ops hm rfl)
    rw [← hq] at hcame
    rcases hcame with h | h
    · obtain ⟨e, he, hop⟩ := List.mem_filterMap.mp h
      cases e with
      | enqueued q' bs' =>
        cases hop
        exact .inl he
      | _ => simp [op] at hop
    · obtain ⟨e, he, hop⟩ := List.mem_filterMap.mp h
      cases e with
      | wrapped q' bs' =>
        cases hop
        exact .inr he
      | _ => simp [op] at hop
  · intro pre mid post q bs e htr hmid
    exact the_wrapped_packet_comes_next r htr hmid

/-- A call past the window, from start-up: packet 6000. -/
def jumpRun : List Label := [.call .rcvAth (onePkt 6000 7), .prod .rcvAth .ath]

theorem a_packet_past_an_empty_window_is_delivered :
    ∃ s tr, Run (radio ⟨25, 500⟩) Gentle s tr ∧ .delivered 5999 6000 [7] ∈ tr ∧
      (.enqueued 6000 [7] ∈ tr ∨ .wrapped 6000 [7] ∈ tr) := by
  obtain ⟨s, tr, r, hs⟩ := run_of_check (radio ⟨25, 500⟩) Gentle
    (jumpRun ++ [.cons .ath, .cons .ath])
    (fun x => decide (.delivered 5999 6000 [7] ∈ x.2)) atStart_fresh (by decide +kernel)
    (by decide +kernel)
  have hm := of_decide_eq_true hs
  obtain ⟨-, -, hgentle⟩ := a_wrap_around_keeps_the_newest_packet ⟨25, 500⟩
  exact ⟨s, tr, r, hm, (hgentle s tr r).1 _ _ _ hm⟩

/-- Packet 1 is stored, and packet 5001 of its slot is called for. -/
def aliasRun : List Label :=
  [.call .rcvAth (onePkt 1 6), .prod .rcvAth .ath, .prod .rcvAth .ath,
    .prod .rcvAth .ath, .call .rcvAth (onePkt 5001 7)]

/-- The next step of `RxRcvAth` wraps around to packet 5001, and the slot of
that packet records number 1 after it. -/
def keepsOldPacket (s : Radio) (tr : List Event) : Bool :=
  decide (NoOverflow tr s (.prod .rcvAth .ath)) && decide (s.buf.head_pt = 0) &&
    (admitted s (.prod .rcvAth .ath)).any (fun c => decide (c.seq_num = 5001)) &&
    (step ⟨25, 500⟩ s (.prod .rcvAth .ath)).any (fun y =>
      decide ((y.1.buf.book_keep_arr (seq2Ind 5001)).seq_num = 1))

/-- The slot of packet 5001 holds packet 1 before the wrap-around, and after it. -/
theorem a_wrap_around_can_keep_an_old_packet :
    ¬∀ (cfg : Config) (s : Radio) (tr : List Event), Run (radio cfg) NoOverflow s tr →
      ∀ p pick c t out, NoOverflow tr s (.prod p pick) → admitted s (.prod p pick) = some c →
        s.buf.head_pt + BUF_SIZE < c.seq_num → step cfg s (.prod p pick) = some (t, out) →
        HoldsOnly t.buf c := by
  intro hall
  obtain ⟨s, tr, r, hs⟩ := run_of_check (radio ⟨25, 500⟩) NoOverflow aliasRun
    (fun x => keepsOldPacket x.1 x.2) atStart_fresh (by decide +kernel)
    (by decide +kernel)
  simp only [keepsOldPacket, Bool.and_eq_true, decide_eq_true_eq] at hs
  obtain ⟨⟨⟨hok, hh⟩, hadm⟩, hstep⟩ := hs
  obtain ⟨c, hc, hseq⟩ := (Option.any_eq_true _ _).mp hadm
  obtain ⟨⟨t, out⟩, ht, hslot⟩ := (Option.any_eq_true _ _).mp hstep
  have hseq := of_decide_eq_true hseq
  have hslot := of_decide_eq_true hslot
  have hlt : s.buf.head_pt + BUF_SIZE < c.seq_num := by
    rw [hh, hseq]
    decide
  have honly := (hall _ s tr r _ _ c t out hok hc hlt ht).seq_num
  rw [hseq, hslot] at honly
  cases honly

end wspace_client.threads

-- `assert(end_pt < tail_pt)` in `FindNackSeqNum`: it can fail only while the
-- buffer never held a packet, when a batch that started, or that is done,
-- makes the call go on with a tail of 0.
import WspaceClient.AckPoint

namespace wspace_client.threads

open machine batch_info rx_data_buf feed

/-! ## The condition on a step -/

/-- A call that read a tail of 0 finds the first batch, from number 1, and finds
it not done. -/
def NothingToAck (_ : Log) (s : Radio) (l : Label) : Prop :=
  tailRead s l = some 0 → doneNow s = false ∧ s.batch_info.highest_decoded_seq = 0

instance (log : Log) (s : Radio) (l : Label) : Decidable (NothingToAck log s l) :=
  inferInstanceAs (Decidable (_ → _))

/-! ## The tail at the assertion -/

/-- A call that goes on has a tail past its end. -/
def EndsBeforeTail : AckPc → Prop
  | .gotBatchInfo _ tail_pt _ => tail_pt ≠ 0
  | .atAssert _ tail_pt end_pt _ => end_pt < tail_pt
  | .aborted => False
  | _ => True

theorem sub_one_lt {tl : Nat} (h : tl ≠ 0) (hlt : tl < 2 ^ 32) : sub32 tl 1 < tl := by
  rw [sub32_of_le (Nat.one_le_iff_ne_zero.mpr h) hlt]
  omega

theorem ack_endsBeforeTail {cfg : Config} {s t : Radio} {out : List Event} {log : Log}
    {p : Snapshot} (h : EndsBeforeTail s.ack) (hloc : AckLocal p s.ack)
    (hhigh : s.batch_info.highest_decoded_seq < 2 ^ 32) (hok : NothingToAck log s .ack)
    (m : Move cfg s .ack t out) : EndsBeforeTail t.ack := by
  -- A call that goes on after a `GetBatchInfo` did not read a tail of 0.
  have hgo : ∀ hd tl, s.ack = .gotPointers hd tl →
      (doneNow s ∨ s.batch_info.highest_decoded_seq ≠ 0) → tl ≠ 0 := by
    rintro hd tl ha hgo rfl
    have hread : tailRead s .ack = some 0 := by
      unfold tailRead
      rw [ha]
    obtain ⟨hundone, hzero⟩ := hok hread
    rcases hgo with hdone | hne
    · rw [hundone] at hdone
      cases hdone
    · exact hne hzero
  cases m with
  | ackWoken =>
    rw [signalFill_gotPointers]
    trivial
  | batchOld ha hd' hz ht =>
    show sub32 s.batch_info.highest_decoded_seq 1 < _
    exact Nat.lt_trans (sub_one_lt hz hhigh) ht
  | batchPast ha hd' hz =>
    have htl := hgo _ _ ha (.inr hz)
    rw [ha] at hloc
    obtain ⟨hw, rfl⟩ := hloc
    exact sub_one_lt htl hw.tail_lt
  | batchDone ha hd' => exact hgo _ _ ha (.inl hd')
  | ackBatchID ha =>
    rw [ha] at h hloc
    obtain ⟨hw, rfl, -⟩ := hloc
    exact sub_one_lt h hw.tail_lt
  | assertFails ha hep =>
    rw [ha] at h
    exact hep h
  | scanDrop | overflowDrop =>
    rw [signalElementAvail_ack]
    trivial
  | _ => trivial

theorem run_endsBeforeTail {cfg : Config} {s : Radio} {log : Log}
    (r : Run (logged (radio cfg)) (fun log s l => RcvCalls log s l ∧ NothingToAck log s l) s log) :
    EndsBeforeTail s.ack := by
  apply r.invariant (fun s _ => EndsBeforeTail s.ack)
  · intro s h0
    obtain ⟨-, -, -, -, -, hack⟩ := h0
    rw [hack]
    trivial
  · intro s log l t es r ih hok hs
    obtain ⟨out, hstep, rfl⟩ := logged_step hs
    have m := step_move hstep
    obtain ⟨hhigh, hloc⟩ := run_ackLocal
      (r.forget fun log s l h => seqFits_of_rcvCalls h.1)
    by_cases hl : l = .ack
    · subst hl
      exact ack_endsBeforeTail ih hloc hhigh hok.2 m
    · rcases m.ack_eq hl with he | ⟨-, he⟩
      · rw [he]
        exact ih
      · rw [he]
        trivial

theorem exec_ack {cfg : Config} {s t : Radio} {pc : AckPc} {out : List Event} (ha : s.ack = pc)
    (halive : pc ≠ .aborted) (m : Move cfg s .ack t out) :
    exec (radio cfg) s [.ack] = some (t, out) :=
  exec_one ((step_iff_move (by rw [ha]; exact halive)).mpr m)

theorem assert_aborts (cfg : Config) {s : Radio} {hd ep e : Nat}
    (ha : s.ack = .atAssert hd 0 ep e) :
    exec (radio cfg) s [.ack] = some ({ s with ack := .aborted }, []) :=
  exec_ack ha nofun (.assertFails ha (Nat.not_lt_zero ep))

/-- A call that goes on with a tail of 0 aborts the client, in two or three more steps. -/
theorem a_tail_of_zero_aborts (cfg : Config) {s : Radio} {hd : Nat}
    (ha : s.ack = .gotPointers hd 0) (hgo : doneNow s ∨ s.batch_info.highest_decoded_seq ≠ 0) :
    ∃ t, t.ack = .aborted ∧ (exec (radio cfg) s [.ack, .ack] = some (t, []) ∨
      exec (radio cfg) s [.ack, .ack, .ack] = some (t, [])) := by
  by_cases hdone : doneNow s
  · have h1 := exec_ack ha nofun (@Move.batchDone cfg _ _ _ ha hdone)
    have h2 := exec_append h1 (exec_ack rfl nofun (.ackBatchID rfl))
    exact ⟨_, rfl, .inr (exec_append h2 (assert_aborts cfg rfl))⟩
  · have hz := hgo.resolve_left hdone
    have h1 := exec_ack ha nofun (@Move.batchPast cfg _ _ _ ha hdone hz (Nat.zero_le _))
    exact ⟨_, rfl, .inl (exec_append h1 (assert_aborts cfg rfl))⟩

end wspace_client.threads

namespace wspace_client.feed

open machine bytes code_header rcv_ath
open threads (Radio Label NothingToAck)

/-! ## The assertion in every run -/

/-- When a call that read a tail of 0 only ever finds the first batch not done, the
assertion holds whenever it is reached, and nothing aborts the client. -/
theorem the_assertion_holds {cfg : threads.Config} {acfg : Config} {s : Feed} {log : FeedLog}
    (r : Run (logged (downlink cfg acfg)) (lift NothingToAck) s log) :
    (∀ head_pt tail_pt end_pt end_seq,
      s.radio.ack = .atAssert head_pt tail_pt end_pt end_seq → end_pt < tail_pt) ∧
    s.radio.ack ≠ .aborted := by
  obtain ⟨-, hrun, -⟩ := run_feed r
  have h := threads.run_endsBeforeTail hrun
  refine ⟨fun head_pt tail_pt end_pt end_seq ha => ?_, fun ha => ?_⟩
  · rw [ha] at h
    exact h
  · rw [ha] at h
    exact h

/-- The first batch starts at number 5, and its first packet is not a native one. -/
def codedFirst : List FeedLabel :=
  packet (header 1 5 2 2 3) ::
    (List.replicate 3 .next ++ List.replicate 3 (.other .ack))

theorem the_assertion_of_a_first_ack : ∃ s log,
    Run (logged (downlink ⟨25, 500⟩ ⟨1, 1, 36⟩)) (lift NothingToAck) s log ∧
      s.radio.ack = .atAssert 0 1 0 1 ∧ (0 < 1 ∧ s.radio.ack ≠ .aborted) := by
  obtain ⟨s, log, r, hb⟩ := run_of_check (logged (downlink ⟨25, 500⟩ ⟨1, 1, 36⟩))
    (lift NothingToAck) (firstAck.take 13) (fun x => decide (x.1.radio.ack = .atAssert 0 1 0 1))
    atStart_fresh (by decide +kernel) (by decide +kernel)
  have ha := of_decide_eq_true hb
  obtain ⟨hassert, halive⟩ := the_assertion_holds r
  exact ⟨s, log, r, ha, hassert _ _ _ _ ha, halive⟩

theorem the_assertion_fails : ¬∀ (cfg : threads.Config) (acfg : Config) (s : Feed)
    (log : FeedLog), Run (logged (downlink cfg acfg)) anyStep s log →
      ∀ head_pt tail_pt end_pt end_seq,
        s.radio.ack = .atAssert head_pt tail_pt end_pt end_seq → end_pt < tail_pt := by
  intro hall
  obtain ⟨s, log, r, hb⟩ := run_of_check (logged (downlink ⟨25, 500⟩ ⟨1, 1, 36⟩)) anyStep
    codedFirst (fun x => decide (x.1.radio.ack = .atAssert 0 0 4294967295 4)) atStart_fresh
    (execOk_any _ _ _) (by decide +kernel)
  have h := hall _ _ s log r _ _ _ _ (of_decide_eq_true hb)
  omega

end wspace_client.feed

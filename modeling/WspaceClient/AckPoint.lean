-- The acknowledgement point: the `end_seq` that one call after another of
-- `FindNackSeqNum` returns. A done batch is acknowledged to the tail, and a
-- batch that is not done to the number before it, which can be smaller.
import WspaceClient.Delivery
import WspaceClient.Feed

namespace wspace_client.threads

open machine batch_info rx_data_buf feed

/-! ## What the calls return -/

def endSeqs (tr : List Event) : List Nat :=
  tr.filterMap fun | .acked end_seq _ => some end_seq | _ => none

theorem endSeqs_append (tr out : List Event) : endSeqs (tr ++ out) = endSeqs tr ++ endSeqs out :=
  List.filterMap_append

/-- The tail that a call read before its `GetBatchInfo`, when this is that step. -/
def tailRead (s : Radio) : Label → Option Nat
  | .ack =>
    match s.ack with
    | .gotPointers _ tail_pt => some tail_pt
    | _ => none
  | _ => none

/-- The tail that a step acknowledges, as its batch is done. -/
def doneTail (e : Entry Radio Label Event) : Option Nat :=
  if doneNow e.state then tailRead e.state e.label else none

/-- The tails that the calls found with their batches done. -/
def doneTails (log : Log) : List Nat := log.filterMap doneTail

theorem doneTails_append (log log' : Log) :
    doneTails (log ++ log') = doneTails log ++ doneTails log' := List.filterMap_append

theorem doneTails_others {s : Radio} {l : Label} {out : List Event} (hl : l ≠ .ack) :
    doneTails [⟨s, l, out⟩] = [] := by
  apply List.filterMap_cons_none
  unfold doneTail tailRead
  cases l with
  | ack => exact absurd rfl hl
  | _ => exact ite_self _

/-! ## The condition on a step -/

/-- A batch that is not done starts past every tail of a batch that was done. -/
def StartsPast (log : Log) (s : Radio) (l : Label) : Prop :=
  (tailRead s l).isSome → doneNow s = false →
    ∀ tl ∈ doneTails log, tl ≤ s.batch_info.highest_decoded_seq

/-- A packet past the window is past the tail. It can miss it only when the end of
the window is no `uint32`. -/
def TailGrows (s : Radio) (l : Label) : Prop :=
  ∀ c ∈ admitted s l, s.buf.head_pt < c.seq_num → isWrap s.buf c.seq_num →
    s.buf.tail_pt ≤ c.seq_num

def KeepsUp (log : Log) (s : Radio) (l : Label) : Prop := StartsPast log s l ∧ TailGrows s l

instance (log : Log) (s : Radio) (l : Label) : Decidable (StartsPast log s l) :=
  inferInstanceAs (Decidable (_ → _ → ∀ tl ∈ doneTails log, _))

instance (s : Radio) (l : Label) : Decidable (TailGrows s l) :=
  inferInstanceAs (Decidable (∀ c ∈ admitted s l, _ → _ → _))

instance (log : Log) (s : Radio) (l : Label) : Decidable (KeepsUp log s l) :=
  inferInstanceAs (Decidable (_ ∧ _))

/-! ## What never goes back -/

/-- The tail never moves back. -/
theorem Move.tail_le {cfg : Config} {s t : Radio} {l : Label} {out : List Event} (h : Core s)
    (hg : TailGrows s l) (m : Move cfg s l t out) : s.buf.tail_pt ≤ t.buf.tail_pt := by
  cases m with
  | full => simp
  | wrap hent hq hf hs he hw =>
    rw [setProd_buf, signalEmpty_buf, signalFill_buf, signalElementAvail_buf]
    exact hg _ (admitted_iff.mpr ⟨hent, hq, hf⟩) hs hw
  | store => rw [enqueueStore_buf, store_tail]
  | clear => simp
  | finish hp =>
    obtain ⟨-, -, hlt, -⟩ := h.clearing _ _ _ hp
    rw [setProd_buf, signalFill_buf]
    exact Nat.le_of_lt hlt
  | scanDrop | overflowDrop =>
    rw [signalElementAvail_buf]
    exact Nat.le_refl _
  | top | ackWoken =>
    rw [signalFill_buf]
  | _ => exact Nat.le_refl _

/-- The number before the batch never goes back. -/
theorem Move.highest_le {cfg : Config} {s t : Radio} {l : Label} {out : List Event} {log : Log}
    (hg : RcvCalls log s l) (m : Move cfg s l t out) :
    s.batch_info.highest_decoded_seq ≤ t.batch_info.highest_decoded_seq := by
  rw [m.batch_info_eq]
  by_cases hl : ∃ b q d i n us, l = .setBatchInfo b q d i n us
  · obtain ⟨b, q, d, i, n, us, rfl⟩ := hl
    exact hg.2.2.1
  · rw [(batchAfter_keeps fun b q d i n us he => hl ⟨b, q, d, i, n, us, he⟩).1]

/-! ## The invariant -/

/-- The `end_seq` of a call that is past its `GetBatchInfo`. -/
def AckPc.endSeq : AckPc → Option Nat
  | .gotBatchInfo _ _ end_seq | .atAssert _ _ _ end_seq | .scan _ _ _ end_seq _ _
  | .extra _ end_seq _ | .overflow _ end_seq => some end_seq
  | .idle | .gotBatchID _ | .waitFill _ | .gotPointers _ _ | .aborted => none

/-- A number that a batch starts past, or that a done batch was acknowledged to. -/
def Reached (s : Radio) (log : Log) (end_seq : Nat) : Prop :=
  end_seq ≤ s.batch_info.highest_decoded_seq ∨ ∃ tl ∈ doneTails log, end_seq ≤ tl

structure Point (s : Radio) (log : Log) : Prop where
  sorted : (endSeqs (eventsOf log)).Pairwise (· ≤ ·)
  reached : ∀ e ∈ endSeqs (eventsOf log), Reached s log e
  tails : ∀ tl ∈ doneTails log, tl ≤ s.buf.tail_pt
  read : ∀ hd tl, s.ack = .gotPointers hd tl →
    tl ≤ s.buf.tail_pt ∧ ∀ tl' ∈ doneTails log, tl' ≤ tl
  pending : ∀ e, s.ack.endSeq = some e →
    Reached s log e ∧ ∀ e' ∈ endSeqs (eventsOf log), e' ≤ e

theorem Reached.step {s t : Radio} {log : Log} {e : Nat} (h : Reached s log e)
    (hle : s.batch_info.highest_decoded_seq ≤ t.batch_info.highest_decoded_seq) (log' : Log) :
    Reached t (log ++ log') e := by
  refine h.imp (fun he => Nat.le_trans he hle) fun ⟨tl, htl, he⟩ => ⟨tl, ?_, he⟩
  rw [doneTails_append]
  exact List.mem_append_left _ htl

/-- What one step has to show: that it returns no less than the calls before it, and
that a call past its `GetBatchInfo` will. -/
theorem Point.next {s t : Radio} {log : Log} {l : Label} {out : List Event} (h : Point s log)
    (hhigh : s.batch_info.highest_decoded_seq ≤ t.batch_info.highest_decoded_seq)
    (htail : s.buf.tail_pt ≤ t.buf.tail_pt)
    (hout : ∀ e ∈ endSeqs out, endSeqs out = [e] ∧ Reached s log e ∧
      ∀ e' ∈ endSeqs (eventsOf log), e' ≤ e)
    (hdone : ∀ tl ∈ doneTails [⟨s, l, out⟩], tl ≤ s.buf.tail_pt)
    (hread : ∀ hd tl, t.ack = .gotPointers hd tl → doneTails [⟨s, l, out⟩] = [] ∧
      (s.ack = .gotPointers hd tl ∨ tl = s.buf.tail_pt))
    (hpend : ∀ e, t.ack.endSeq = some e → endSeqs out = [] ∧
      Reached t (log ++ [⟨s, l, out⟩]) e ∧ ∀ e' ∈ endSeqs (eventsOf log), e' ≤ e) :
    Point t (log ++ [⟨s, l, out⟩]) := by
  have hev : endSeqs (eventsOf (log ++ [⟨s, l, out⟩])) =
      endSeqs (eventsOf log) ++ endSeqs out := by
    unfold eventsOf
    rw [List.flatMap_append, List.flatMap_singleton, endSeqs_append]
  refine ⟨?_, fun e he => ?_, fun tl htl => ?_, fun hd tl ht => ?_, fun e he => ?_⟩
  · rw [hev, List.pairwise_append]
    refine ⟨h.sorted, ?_, fun x hx y hy => (hout y hy).2.2 x hx⟩
    cases hes : endSeqs out with
    | nil => exact .nil
    | cons e es =>
      obtain ⟨hone, -⟩ := hout e (by rw [hes]; exact List.mem_cons_self)
      rw [← hes, hone]
      exact List.pairwise_singleton _ _
  · rw [hev] at he
    rcases List.mem_append.mp he with he | he
    · exact (h.reached e he).step hhigh _
    · exact (hout e he).2.1.step hhigh _
  · rw [doneTails_append] at htl
    rcases List.mem_append.mp htl with htl | htl
    · exact Nat.le_trans (h.tails tl htl) htail
    · exact Nat.le_trans (hdone tl htl) htail
  · obtain ⟨hnone, hs⟩ := hread hd tl ht
    rw [doneTails_append, hnone, List.append_nil]
    rcases hs with hs | rfl
    · obtain ⟨hle, hall⟩ := h.read hd tl hs
      exact ⟨Nat.le_trans hle htail, hall⟩
    · exact ⟨htail, h.tails⟩
  · obtain ⟨hnone, hr, hall⟩ := hpend e he
    rw [hev, hnone, List.append_nil]
    exact ⟨hr, hall⟩

/-- What was returned before is no more than the number before a batch that is not done. -/
theorem Point.le_highest {s : Radio} {log : Log} {hd tl : Nat} (h : Point s log)
    (hg : StartsPast log s .ack) (ha : s.ack = .gotPointers hd tl) (hd' : ¬doneNow s) :
    ∀ e ∈ endSeqs (eventsOf log), e ≤ s.batch_info.highest_decoded_seq := by
  have hread : (tailRead s .ack).isSome = true := by
    unfold tailRead
    rw [ha]
    rfl
  intro e he
  rcases h.reached e he with hle | ⟨tl', htl, hle⟩
  · exact hle
  · exact Nat.le_trans hle (hg hread (Bool.not_eq_true _ ▸ hd') tl' htl)

theorem doneTails_of_ne {s : Radio} {l : Label} {out : List Event}
    (h : ∀ hd tl, s.ack ≠ .gotPointers hd tl) : doneTails [⟨s, l, out⟩] = [] := by
  apply List.filterMap_cons_none
  unfold doneTail tailRead
  split
  · split
    · split
      · exact absurd ‹_› (h _ _)
      · rfl
    · rfl
  · rfl

theorem doneTails_of_not_done {s : Radio} {l : Label} {out : List Event} (h : ¬doneNow s) :
    doneTails [⟨s, l, out⟩] = [] := List.filterMap_cons_none (if_neg h)

/-- The other threads return nothing and read no pointers. -/
theorem others_point {cfg : Config} {s t : Radio} {l : Label} {out : List Event} {log : Log}
    (h : Point s log) (hhigh : s.batch_info.highest_decoded_seq ≤ t.batch_info.highest_decoded_seq)
    (htail : s.buf.tail_pt ≤ t.buf.tail_pt) (m : Move cfg s l t out) (hl : l ≠ .ack) :
    Point t (log ++ [⟨s, l, out⟩]) := by
  have hout : endSeqs out = [] := by
    unfold endSeqs
    rw [List.filterMap_eq_nil_iff]
    intro e he
    cases e with
    | acked => exact absurd he (m.not_acked hl)
    | _ => rfl
  have hdone := @doneTails_others s _ out hl
  refine h.next hhigh htail ?_ ?_ (fun hd tl ht => ?_) fun e he => ?_
  · rw [hout]
    nofun
  · rw [hdone]
    nofun
  · rcases m.ack_eq hl with hs | ⟨-, hw⟩
    · exact ⟨hdone, .inl (by rw [← hs, ht])⟩
    · rw [hw] at ht
      cases ht
  · rcases m.ack_eq hl with hs | ⟨-, hw⟩
    · rw [hs] at he
      obtain ⟨hr, hall⟩ := h.pending e he
      exact ⟨hout, hr.step hhigh _, hall⟩
    · rw [hw] at he
      cases he

theorem ack_point {cfg : Config} {s t : Radio} {out : List Event} {log : Log}
    (h : Point s log) (hg : StartsPast log s .ack)
    (hhigh : s.batch_info.highest_decoded_seq ≤ t.batch_info.highest_decoded_seq)
    (htail : s.buf.tail_pt ≤ t.buf.tail_pt) (m : Move cfg s .ack t out) :
    Point t (log ++ [⟨s, .ack, out⟩]) := by
  -- A step that reads nothing and returns nothing.
  have hkeep : ∀ (_ : endSeqs out = []) (_ : doneTails [⟨s, .ack, out⟩] = [])
      (_ : ∀ hd tl, t.ack = .gotPointers hd tl → tl = s.buf.tail_pt)
      (_ : ∀ e, t.ack.endSeq = some e → s.ack.endSeq = some e),
      Point t (log ++ [⟨s, .ack, out⟩]) := by
    intro hout hdone hread hpend
    refine h.next hhigh htail ?_ ?_ (fun hd tl ht => ⟨hdone, .inr (hread hd tl ht)⟩) fun e he => ?_
    · rw [hout]
      nofun
    · rw [hdone]
      nofun
    · obtain ⟨hr, hall⟩ := h.pending e (hpend e he)
      exact ⟨hout, hr.step hhigh _, hall⟩
  -- A step that returns.
  have hgive : ∀ e (_ : endSeqs out = [e]) (_ : doneTails [⟨s, .ack, out⟩] = [])
      (_ : t.ack = .idle) (_ : Reached s log e) (_ : ∀ e' ∈ endSeqs (eventsOf log), e' ≤ e),
      Point t (log ++ [⟨s, .ack, out⟩]) := by
    intro e hout hdone ht hr hall
    refine h.next hhigh htail (fun e' he => ?_) ?_ ?_ ?_
    · rw [hout] at he
      rw [List.mem_singleton.mp he]
      exact ⟨hout, hr, hall⟩
    · rw [hdone]
      nofun
    · rw [ht]
      nofun
    · rw [ht]
      nofun
  -- A step that finds the batch not done, and goes on.
  have hopen : ∀ hd tl (_ : s.ack = .gotPointers hd tl) (_ : ¬doneNow s) (_ : out = [])
      (_ : ∀ hd tl, t.ack ≠ .gotPointers hd tl)
      (_ : t.ack.endSeq = some s.batch_info.highest_decoded_seq),
      Point t (log ++ [⟨s, .ack, out⟩]) := by
    rintro hd tl ha hd' rfl hne hpend
    refine h.next hhigh htail nofun ?_ (fun hd tl ht => absurd ht (hne hd tl)) fun e he => ?_
    · rw [doneTails_of_not_done hd']
      nofun
    · rw [hpend, Option.some.injEq] at he
      subst he
      exact ⟨rfl, .inl hhigh, h.le_highest hg ha hd'⟩
  have hpc : ∀ pc, s.ack = pc → (∀ hd tl, pc ≠ .gotPointers hd tl) →
      doneTails [⟨s, .ack, out⟩] = [] := by
    rintro pc rfl hne
    exact doneTails_of_ne hne
  cases m with
  | getBatchID ha | ackSleep ha => exact hkeep rfl (hpc _ ha nofun) nofun nofun
  | pointers ha =>
    exact hkeep rfl (hpc _ ha nofun) (fun hd tl ht => (AckPc.gotPointers.inj ht).2.symm) nofun
  | ackWoken ha =>
    refine hkeep rfl (hpc _ ha nofun) (fun hd tl ht => ?_) ?_
    · rw [signalFill_gotPointers] at ht
      exact (AckPc.gotPointers.inj ht).2.symm
    · rw [signalFill_gotPointers]
      nofun
  | batchFirst ha hd' hz =>
    have hall := h.le_highest hg ha hd'
    rw [hz] at hall
    exact hgive 0 rfl (doneTails_of_not_done hd') rfl (.inl (Nat.zero_le _)) hall
  | batchRead ha hd' =>
    exact hgive _ rfl (doneTails_of_not_done hd') rfl (.inl (Nat.le_refl _))
      (h.le_highest hg ha hd')
  | batchOld ha hd' | batchPast ha hd' => exact hopen _ _ ha hd' rfl nofun rfl
  | @batchDone hd tl ha hd' =>
    obtain ⟨hle, hall⟩ := h.read hd tl ha
    have hdone : doneTails [⟨s, .ack, []⟩] = [tl] := by
      apply List.filterMap_cons_some
      unfold doneTail tailRead
      rw [if_pos hd', ha]
    refine h.next hhigh htail nofun ?_ nofun fun e he => ?_
    · rw [hdone]
      intro x hx
      rw [List.mem_singleton.mp hx]
      exact hle
    · cases he
      refine ⟨rfl, ?_, fun e' he' => ?_⟩
      · rcases Nat.le_total tl s.batch_info.highest_decoded_seq with hmax | hmax
        · rw [Nat.max_eq_left hmax]
          exact .inl hhigh
        · rw [Nat.max_eq_right hmax]
          refine .inr ⟨tl, ?_, Nat.le_refl tl⟩
          rw [doneTails_append, hdone]
          exact List.mem_append_right _ (List.mem_singleton_self tl)
      · rcases h.reached e' he' with hr | ⟨tl', htl, hr⟩
        · exact Nat.le_trans hr (Nat.le_max_left _ _)
        · exact Nat.le_trans (Nat.le_trans hr (hall tl' htl)) (Nat.le_max_right _ _)
  | assertFails ha => exact hkeep rfl (hpc _ ha nofun) nofun nofun
  | ackBatchID ha | assertHolds ha | scanList ha | scanSkip ha | scanEnd ha
  | extra ha | tooMany ha =>
    refine hkeep rfl (hpc _ ha nofun) nofun fun e he => ?_
    rw [ha]
    exact he
  | scanDrop ha | overflowDrop ha =>
    refine hkeep rfl (hpc _ ha nofun) (fun hd tl ht => ?_) fun e he => ?_
    · rw [signalElementAvail_ack] at ht
      cases ht
    · rw [signalElementAvail_ack] at he
      rw [ha]
      exact he
  | extraEnd ha | overflowEnd ha =>
    obtain ⟨hr, hall⟩ := h.pending _ (by rw [ha]; rfl)
    exact hgive _ rfl (hpc _ ha nofun) rfl hr hall

theorem run_point {cfg : Config} {s : Radio} {log : Log}
    (r : Run (logged (radio cfg)) (fun log s l => RcvCalls log s l ∧ KeepsUp log s l) s log) :
    Point s log := by
  apply r.invariant Point
  · intro s h0
    obtain ⟨-, -, -, -, -, hack⟩ := h0
    refine ⟨.nil, nofun, nofun, fun hd tl ha => ?_, fun e he => ?_⟩
    · rw [hack] at ha
      cases ha
    · rw [hack] at he
      cases he
  · intro s log l t es r ih hok hs
    obtain ⟨out, hstep, rfl⟩ := logged_step hs
    obtain ⟨hcalls, hpast, hgrows⟩ := hok
    have m := step_move hstep
    have hcore := the_tail_stays_in_the_window r.forget_any
    by_cases hl : l = .ack
    · subst hl
      exact ack_point ih hpast (m.highest_le hcalls) (m.tail_le hcore hgrows) m
    · exact others_point ih (m.highest_le hcalls) (m.tail_le hcore hgrows) m hl

/-! ## A smaller number -/

/-- Each tail of a done batch was returned, or the call that found it is still to return. -/
def Answered (s : Radio) (log : Log) : Prop :=
  ∀ tl ∈ doneTails log, s.ack = .aborted ∨ (∃ e ∈ endSeqs (eventsOf log), tl ≤ e) ∨
    ∃ e, s.ack.endSeq = some e ∧ tl ≤ e

theorem mem_endSeqs_append {log : Log} {s : Radio} {l : Label} {out : List Event} {e : Nat} :
    e ∈ endSeqs (eventsOf (log ++ [⟨s, l, out⟩])) ↔
      e ∈ endSeqs (eventsOf log) ∨ e ∈ endSeqs out := by
  unfold eventsOf
  rw [List.flatMap_append, List.flatMap_singleton, endSeqs_append, List.mem_append]

/-- A step that finds no batch done. -/
theorem Answered.keep {s t : Radio} {log : Log} {l : Label} {out : List Event}
    (h : Answered s log) (hdone : doneTails [⟨s, l, out⟩] = []) (halive : s.ack ≠ .aborted)
    (hpend : ∀ e, s.ack.endSeq = some e →
      t.ack = .aborted ∨ e ∈ endSeqs out ∨ t.ack.endSeq = some e) :
    Answered t (log ++ [⟨s, l, out⟩]) := by
  intro tl htl
  rw [doneTails_append, hdone, List.append_nil] at htl
  rcases h tl htl with habort | ⟨e, he, hle⟩ | ⟨e, he, hle⟩
  · exact absurd habort halive
  · exact .inr (.inl ⟨e, mem_endSeqs_append.mpr (.inl he), hle⟩)
  · rcases hpend e he with ht | ht | ht
    · exact .inl ht
    · exact .inr (.inl ⟨e, mem_endSeqs_append.mpr (.inr ht), hle⟩)
    · exact .inr (.inr ⟨e, ht, hle⟩)

theorem ack_answered {cfg : Config} {s t : Radio} {out : List Event} {log : Log}
    (h : Answered s log) (m : Move cfg s .ack t out) : Answered t (log ++ [⟨s, .ack, out⟩]) := by
  have hkeep : ∀ pc, s.ack = pc → (∀ hd tl, pc ≠ .gotPointers hd tl) → pc ≠ .aborted →
      (∀ e, pc.endSeq = some e → t.ack = .aborted ∨ e ∈ endSeqs out ∨ t.ack.endSeq = some e) →
      Answered t (log ++ [⟨s, .ack, out⟩]) := by
    rintro pc rfl hne halive hpend
    exact h.keep (doneTails_of_ne hne) halive hpend
  have hopen : ∀ hd tl, s.ack = .gotPointers hd tl → ¬doneNow s →
      Answered t (log ++ [⟨s, .ack, out⟩]) := by
    intro hd tl ha hd'
    refine h.keep (doneTails_of_not_done hd') ?_ ?_ <;> rw [ha] <;> nofun
  cases m with
  | getBatchID ha | ackSleep ha | pointers ha | ackWoken ha => exact hkeep _ ha nofun nofun nofun
  | batchFirst ha hd' | batchRead ha hd' | batchOld ha hd' | batchPast ha hd' =>
    exact hopen _ _ ha hd'
  | @batchDone hd tl ha hd' =>
    have hdone : doneTails [⟨s, .ack, []⟩] = [tl] := by
      apply List.filterMap_cons_some
      unfold doneTail tailRead
      rw [if_pos hd', ha]
    intro x hx
    rw [doneTails_append, hdone] at hx
    rcases List.mem_append.mp hx with hx | hx
    · rcases h x hx with habort | ⟨e, he, hle⟩ | ⟨e, he, -⟩
      · rw [ha] at habort
        cases habort
      · exact .inr (.inl ⟨e, mem_endSeqs_append.mpr (.inl he), hle⟩)
      · rw [ha] at he
        cases he
    · rw [List.mem_singleton.mp hx]
      exact .inr (.inr ⟨_, rfl, Nat.le_max_right _ _⟩)
  | assertFails ha => exact hkeep _ ha nofun nofun fun e _ => .inl rfl
  | ackBatchID ha | assertHolds ha | scanList ha | scanSkip ha | scanEnd ha | extra ha
  | tooMany ha => exact hkeep _ ha nofun nofun fun e he => .inr (.inr he)
  | scanDrop ha | overflowDrop ha =>
    refine hkeep _ ha nofun nofun fun e he => .inr (.inr ?_)
    rw [signalElementAvail_ack]
    exact he
  | extraEnd ha | overflowEnd ha =>
    refine hkeep _ ha nofun nofun fun e he => .inr (.inl ?_)
    cases he
    exact List.mem_cons_self

theorem run_answered {cfg : Config} {ok : Log → Radio → Label → Prop} {s : Radio} {log : Log}
    (r : Run (logged (radio cfg)) ok s log) : Answered s log := by
  refine r.invariant Answered (fun s _ => nofun) fun s log l t es r ih hok hs => ?_
  obtain ⟨out, hstep, rfl⟩ := logged_step hs
  have m := step_move hstep
  by_cases hl : l = .ack
  · subst hl
    exact ack_answered ih m
  · refine ih.keep (doneTails_others hl) (fun ha => ?_) fun e he => .inr (.inr ?_)
    · rw [show (radio cfg).step s l = step cfg s l from rfl] at hstep
      unfold step at hstep
      rw [if_pos ha] at hstep
      cases hstep
    · rcases m.ack_eq hl with hs | ⟨hw, -⟩
      · rw [hs]
        exact he
      · rw [hw] at he
        cases he

/-- A batch that is not done and starts before a tail of a done one: the call returns less
than a call before it, if it returns. -/
theorem a_smaller_point_follows {cfg : Config} {ok : Log → Radio → Label → Prop} {s t : Radio}
    {log : Log} {out : List Event} {hd tl x : Nat} (r : Run (logged (radio cfg)) ok s log)
    (ha : s.ack = .gotPointers hd tl) (hd' : ¬doneNow s) (hx : x ∈ doneTails log)
    (hlt : s.batch_info.highest_decoded_seq < x) (hs : step cfg s .ack = some (t, out)) :
    (∃ e ∈ endSeqs (eventsOf log), s.batch_info.highest_decoded_seq < e) ∧
      (endSeqs out = [s.batch_info.highest_decoded_seq] ∨
        t.ack.endSeq = some s.batch_info.highest_decoded_seq) := by
  refine ⟨?_, ?_⟩
  · rcases run_answered r x hx with habort | ⟨e, he, hle⟩ | ⟨e, he, -⟩
    · rw [ha] at habort
      cases habort
    · exact ⟨e, he, Nat.lt_of_lt_of_le hlt hle⟩
    · rw [ha] at he
      cases he
  · have m := step_move hs
    cases m with
    | batchFirst _ _ hz =>
      rw [hz]
      exact .inl rfl
    | batchRead => exact .inl rfl
    | batchOld | batchPast => exact .inr rfl
    | batchDone _ hdone => exact absurd hdone hd'
    | getBatchID ha' | ackSleep ha' | pointers ha' | ackWoken ha' | ackBatchID ha'
    | assertHolds ha' | assertFails ha' | scanDrop ha' | scanList ha' | scanSkip ha'
    | scanEnd ha' | extra ha' | tooMany ha' | extraEnd ha' | overflowEnd ha'
    | overflowDrop ha' =>
      rw [ha] at ha'
      cases ha'

end wspace_client.threads

namespace wspace_client.feed

open machine bytes code_header rcv_ath
open threads (Radio Label endSeqs KeepsUp)

/-! ## The point never moves back -/

/-- When every batch that is not done starts past the tails of the done ones, the calls
return numbers that never get smaller. -/
theorem the_ack_point_never_moves_back {cfg : threads.Config} {acfg : Config} {s : Feed}
    {log : FeedLog} (r : Run (logged (downlink cfg acfg)) (lift KeepsUp) s log) :
    (endSeqs (eventsOf log)).Pairwise (· ≤ ·) := by
  obtain ⟨-, hrun, hev⟩ := run_feed r
  rw [← hev]
  exact (threads.run_point hrun).sorted

/-! ## Two batches from the start -/

/-- Batch 1 is the packet 1, and its call returns 1. -/
def firstAck : List FeedLabel :=
  packet (header 1 1 0 1 1) ::
    (List.replicate 4 .next ++ List.replicate 3 (.other (.prod .rcvAth .ath)) ++ [.next] ++
      List.replicate 8 (.other .ack))

/-- Batch 2 is two new packets, and a call comes after each of them. -/
def secondBatch : List FeedLabel :=
  packet (header 2 2 0 2 2) ::
    (List.replicate 4 .next ++ List.replicate 3 (.other (.prod .rcvAth .ath)) ++
      List.replicate 7 (.other .ack)) ++
  packet (header 2 2 1 2 2) ::
    (List.replicate 4 .next ++ List.replicate 3 (.other (.prod .rcvAth .ath)) ++ [.next] ++
      List.replicate 10 (.other .ack))

/-- Batch 2 sends packet 1 again, and another packet that is still to come. -/
def sentAgain : List FeedLabel :=
  packet (header 2 1 0 2 2) ::
    (List.replicate 3 .next ++ List.replicate 3 (.other .ack))

theorem new_batches_move_the_point : ∃ s log,
    Run (logged (downlink ⟨25, 500⟩ ⟨1, 1, 36⟩)) (lift KeepsUp) s log ∧
      endSeqs (eventsOf log) = [1, 1, 3] ∧ (endSeqs (eventsOf log)).Pairwise (· ≤ ·) := by
  obtain ⟨s, log, r, hb⟩ := run_of_check (logged (downlink ⟨25, 500⟩ ⟨1, 1, 36⟩)) (lift KeepsUp)
    (firstAck ++ secondBatch) (fun x => decide (endSeqs (eventsOf x.2) = [1, 1, 3])) atStart_fresh
    (by decide +kernel) (by decide +kernel)
  exact ⟨s, log, r, of_decide_eq_true hb, the_ack_point_never_moves_back r⟩

theorem the_point_moves_back : ¬∀ (cfg : threads.Config) (acfg : Config) (s : Feed)
    (log : FeedLog), Run (logged (downlink cfg acfg)) anyStep s log →
      (endSeqs (eventsOf log)).Pairwise (· ≤ ·) := by
  intro hall
  obtain ⟨s, log, r, hb⟩ := run_of_check (logged (downlink ⟨25, 500⟩ ⟨1, 1, 36⟩)) anyStep
    (firstAck ++ sentAgain) (fun x => decide (endSeqs (eventsOf x.2) = [1, 0])) atStart_fresh
    (execOk_any _ _ _) (by decide +kernel)
  have h := hall _ _ s log r
  rw [of_decide_eq_true hb] at h
  revert h
  decide

end wspace_client.feed

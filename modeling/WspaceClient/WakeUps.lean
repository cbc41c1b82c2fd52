-- The consumer's sleep. It sleeps on the slot of the head while the slot is
-- blocked, or on an empty buffer, as long as no wrap-around falls between
-- its `UnLockQueue` and its `WaitElementAvail`.
import WspaceClient.Pointers

namespace wspace_client.threads

open machine batch_info rx_data_buf

/-! ## The states and the steps -/

/-- The slot is the one of `head_pt + 1`, and its packet is still missing. -/
def OnHole (b : RxDataBuf) (i : Slot) : Prop :=
  i = headPtMod b ∧ (b.book_keep_arr i).status = .kBlock

instance (b : RxDataBuf) (i : Slot) : Decidable (OnHole b i) := inferInstanceAs (Decidable (_ ∧ _))

/-- `DequeuePkt` is asleep, and no wake-up for it is pending. A fill signal
that `FindNackSeqNum` took is pending too, since it passes it on. -/
def AsleepUnsignalled (s : Radio) : Prop :=
  (s.cons = .waitFill false ∧ s.ack ≠ .waitFill true) ∨ ∃ i, s.cons = .waitElement i false

/-- `DequeuePkt` sleeps on an empty buffer, or on the missing packet of the head. -/
def NothingToDo (s : Radio) : Prop :=
  (s.cons = .waitFill false ∧ isEmpty s.buf) ∨
    ∃ i, s.cons = .waitElement i false ∧ OnHole s.buf i

/-- The step runs the wrap-around section. -/
def wrapsAt (s : Radio) : Label → Bool
  | .prod p _ =>
    match s.prod p with
    | .start c | .waitEmpty c _ =>
      queueFree s && !isFull s.buf && decide (s.buf.head_pt < c.seq_num) && isWrap s.buf c.seq_num
    | _ => false
  | _ => false

theorem wrapsAt_iff {s : Radio} {p : Producer} {pick : Pick} :
    wrapsAt s (.prod p pick) ↔ ∃ c, Entering s p c ∧ queueFree s ∧ ¬isFull s.buf ∧
      s.buf.head_pt < c.seq_num ∧ isWrap s.buf c.seq_num := by
  cases hp : s.prod p <;> simp [wrapsAt, Entering, hp, and_assoc]

/-- The consumer released `qlock_` and is not asleep yet. -/
def ConsumerPc.inGap : ConsumerPc → Bool
  | .beforeWait _ => true
  | _ => false

/-- No wrap-around falls into the gap before the consumer's sleep. -/
def NoWrapInGap (_ : List Event) (s : Radio) (l : Label) : Prop :=
  wrapsAt s l = true → s.cons.inGap = false

instance (tr : List Event) (s : Radio) (l : Label) : Decidable (NoWrapInGap tr s l) :=
  inferInstanceAs (Decidable (_ → _))

/-! ## The invariant -/

/-- The consumer stops at the missing packet of the head, and a fill signal
that it needs is on its way. -/
structure Attended (b : RxDataBuf) (cons : ConsumerPc) (ack : AckPc) : Prop where
  before : ∀ i, cons = .beforeWait i → OnHole b i
  asleep : ∀ i, cons = .waitElement i false → OnHole b i
  filled : cons = .waitFill false → b.head_pt < b.tail_pt → ack = .waitFill true

theorem fresh_attended {s : Radio} (h : s.Fresh) : Attended s.buf s.cons s.ack := by
  obtain ⟨-, -, -, -, hc, -⟩ := h
  rw [hc]
  exact ⟨nofun, nofun, nofun⟩

/-- The acknowledgement thread moves, and drops no fill signal. -/
theorem Attended.setAck {b : RxDataBuf} {cons : ConsumerPc} {a a' : AckPc}
    (h : Attended b cons a) (ha : a ≠ .waitFill true) : Attended b cons a' :=
  ⟨h.before, h.asleep, fun hc hl => absurd (h.filled hc hl) ha⟩

/-- A change of the slots, with the consumer woken when it sleeps on one of them. -/
theorem Attended.slots {b b' : RxDataBuf} {cons : ConsumerPc} {ack : AckPc}
    (h : Attended b cons ack) (hh : b'.head_pt = b.head_pt) (ht : b'.tail_pt = b.tail_pt)
    (hb : ∀ i, cons = .beforeWait i → OnHole b i → OnHole b' i) :
    Attended b' cons.signal ack := by
  cases cons with
  | waitElement i w => exact ⟨nofun, nofun, nofun⟩
  | beforeWait i =>
    refine ⟨?_, nofun, nofun⟩
    intro j hj
    cases hj
    exact hb i rfl (h.before i rfl)
  | waitFill w =>
    refine ⟨nofun, nofun, fun hc hl => h.filled hc ?_⟩
    rwa [hh, ht] at hl
  | idle => exact ⟨nofun, nofun, nofun⟩
  | lockElement i => exact ⟨nofun, nofun, nofun⟩
  | woken i => exact ⟨nofun, nofun, nofun⟩

/-- A sleeper on the fill signal that a signal did not wake lets the other
sleeper pass it on. -/
theorem signalFill_filled {s : Radio} {pick : Pick}
    (h : (signalFill s pick).cons = .waitFill false) :
    (signalFill s pick).ack = .waitFill true := by
  unfold signalFill at h ⊢
  split
  · rfl
  · rename_i h1
    rw [if_neg h1] at h
    split
    · rename_i h2
      simp [h2] at h
    · rename_i h2
      rw [if_neg h2] at h
      exact absurd h h2

/-- After a fill signal, only the sleep on a hole is left to check. -/
theorem Attended.signalFill {s : Radio} {pick : Pick}
    (h1 : ∀ i, s.cons = .beforeWait i → OnHole s.buf i)
    (h2 : ∀ i, s.cons = .waitElement i false → OnHole s.buf i) :
    Attended s.buf (signalFill s pick).cons (signalFill s pick).ack := by
  refine ⟨?_, ?_, fun hc _ => signalFill_filled hc⟩
  · intro i hi
    rcases signalFill_cases s pick with he | ⟨-, he⟩ | ⟨-, he⟩
    · exact h1 i (by rwa [he] at hi)
    · exact h1 i (by rwa [he] at hi)
    · rw [he] at hi
      cases hi
  · intro i hi
    rcases signalFill_cases s pick with he | ⟨-, he⟩ | ⟨-, he⟩
    · exact h2 i (by rwa [he] at hi)
    · exact h2 i (by rwa [he] at hi)
    · rw [he] at hi
      cases hi

theorem signal_ne_asleep (pc : ConsumerPc) (i : Slot) : pc.signal ≠ .waitElement i false := by
  cases pc <;> simp [ConsumerPc.signal]

theorem signal_eq_beforeWait {pc : ConsumerPc} {i : Slot} (h : pc.signal = .beforeWait i) :
    pc = .beforeWait i := by
  cases pc <;> simp_all [ConsumerPc.signal]

/-! ## Holes that a section leaves alone -/

theorem OnHole.setSlot {b : RxDataBuf} {i j : Slot} {k : BookKeeping} (h : OnHole b i)
    (hij : i ≠ j) : OnHole (setSlot b j k) i := by
  refine ⟨h.1, ?_⟩
  rw [setSlot_ne _ _ _ hij]
  exact h.2

theorem OnHole.store {b : RxDataBuf} {i : Slot} {c : EnqueueArgs} (h : OnHole b i)
    (hi : i ≠ seq2Ind c.seq_num) : OnHole (store b c) i := by
  refine ⟨?_, ?_⟩
  · rw [headPtMod, store_head]
    exact h.1
  · rw [store_ne _ _ hi]
    exact h.2

/-- Only a slot that was read is cleared. -/
theorem OnHole.clearRead {b : RxDataBuf} {i : Slot} (h : OnHole b i) (j : Slot) :
    OnHole (clearRead b j) i := by
  unfold rx_data_buf.clearRead
  split
  · rename_i hr
    apply h.setSlot
    rintro rfl
    simp [h.2] at hr
  · exact h

theorem ne_of_elementFree {s : Radio} {i j : Slot} (h : elementFree s j)
    (hc : s.cons = .beforeWait i) : i ≠ j := by
  rintro rfl
  simp [elementFree, hc] at h

/-! ## Every guarded step keeps it -/

theorem prod_attended {cfg : Config} {s t : Radio} {p : Producer} {pick : Pick} {tr : List Event}
    {out : List Event} (hok : NoWrapInGap tr s (.prod p pick))
    (h : Attended s.buf s.cons s.ack) (m : Move cfg s (.prod p pick) t out) :
    Attended t.buf t.cons t.ack := by
  cases m with
  | full hent hq hf he =>
    simp only [setProd_buf, setProd_cons, setProd_ack, signalElementAvail_buf,
      signalElementAvail_cons, signalElementAvail_ack]
    apply h.slots (fullDrop_head _) (fullDrop_tail _)
    intro i hc hole
    exact absurd hole.1 (ne_of_elementFree he hc)
  | @wrap _ c _ hent hq hf hs he hw =>
    have hgap : s.cons.inGap = false := hok (wrapsAt_iff.mpr ⟨c, hent, hq, hf, hs, hw⟩)
    simp only [setProd_buf, setProd_cons, setProd_ack, signalEmpty_buf, signalEmpty_cons,
      signalEmpty_ack, signalFill_buf]
    apply Attended.signalFill
    · intro i hi
      rw [signalElementAvail_cons] at hi
      rw [signal_eq_beforeWait hi] at hgap
      simp [ConsumerPc.inGap] at hgap
    · intro i hi
      rw [signalElementAvail_cons] at hi
      exact absurd hi (signal_ne_asleep _ _)
  | @store _ c _ hent hq hf hs he hw =>
    have hkeep : ∀ i, s.cons = .beforeWait i → OnHole s.buf i → OnHole (store s.buf c) i :=
      fun i hc hole => hole.store (ne_of_elementFree he hc)
    have hstored : Attended (store s.buf c)
        (signalIf (waitedFor s c.seq_num) { s with buf := store s.buf c }).cons s.ack := by
      unfold signalIf
      split
      · rw [signalElementAvail_cons]
        exact h.slots (store_head _ _) (store_tail _ _) hkeep
      · rename_i hwait
        refine ⟨fun i hc => hkeep i hc (h.before i hc), fun i hc => ?_, fun hc hl => ?_⟩
        · have hole := h.asleep i hc
          apply hole.store
          rintro rfl
          exact hwait (.inl hole.2)
        · rw [store_head, store_tail] at hl
          exact h.filled hc hl
    rw [enqueueStore_eq]
    simpa using hstored
  | stale hent hq hf hs ht => exact h
  | staleTail hent hq hf hs ht => exact h
  | @clear _ q i _ hp hi he =>
    refine ⟨fun j hc => (h.before j hc).clearRead _, fun j hc => (h.asleep j hc).clearRead _, ?_⟩
    intro hc hl
    rw [setProd_buf, clearRead_head, clearRead_tail] at hl
    exact h.filled hc hl
  | @finish _ q i _ hp hi =>
    rw [setProd_buf, setProd_cons, setProd_ack, signalFill_buf]
    exact Attended.signalFill (s := { s with buf := { s.buf with tail_pt := q } }) h.before h.asleep

theorem cons_attended {cfg : Config} {s t : Radio} {pick : Pick} {out : List Event}
    (hcore : Core s) (h : Attended s.buf s.cons s.ack) (m : Move cfg s (.cons pick) t out) :
    Attended t.buf t.cons t.ack := by
  cases m with
  | sleepFill hc hq he =>
    rw [isEmpty_iff_tail] at he
    refine ⟨nofun, nofun, fun _ hl => ?_⟩
    simp only at hl
    omega
  | top hc hq he =>
    rw [signalFill_buf]
    exact Attended.signalFill nofun nofun
  | @block i _ hc hk =>
    refine ⟨?_, nofun, nofun⟩
    rintro j ⟨⟩
    exact ⟨hcore.atHead i hc, by simp [block]⟩
  | @blocked i _ hc hk =>
    refine ⟨?_, nofun, nofun⟩
    rintro j ⟨⟩
    exact ⟨hcore.atHead i hc, hk⟩
  | deliver hc hk => exact ⟨nofun, nofun, nofun⟩
  | giveUp hc hk => exact ⟨nofun, nofun, nofun⟩
  | @sleep i _ hc =>
    refine ⟨nofun, ?_, nofun⟩
    rintro j ⟨⟩
    exact h.before i hc
  | wake hc => exact ⟨nofun, nofun, nofun⟩
  | relock hc hq => exact ⟨nofun, nofun, nofun⟩

/-- A slot that the acknowledgement thread drops is no slot that the consumer
is about to wait for. -/
theorem Attended.drop {s : Radio} (h : Attended s.buf s.cons s.ack) {i : Slot} {q : Nat}
    (he : elementFree s i) (ha : s.ack ≠ .waitFill true) {a : AckPc} :
    Attended (nackDrop s.buf i q) s.cons.signal a :=
  (h.setAck ha).slots rfl rfl (fun _ hc hole => hole.setSlot (ne_of_elementFree he hc))

theorem ack_attended {cfg : Config} {s t : Radio} {out : List Event}
    (h : Attended s.buf s.cons s.ack) (m : Move cfg s .ack t out) :
    Attended t.buf t.cons t.ack := by
  cases m with
  | ackWoken ha hq =>
    rw [signalFill_buf]
    exact Attended.signalFill h.before h.asleep
  | scanDrop ha hi he hh ho =>
    simpa using h.drop he (by simp [ha])
  | overflowDrop ha he =>
    simpa using h.drop he (by simp [ha])
  | getBatchID ha => exact h.setAck (by simp [ha])
  | ackSleep ha => exact h.setAck (by simp [ha])
  | pointers ha => exact h.setAck (by simp [ha])
  | batchFirst ha => exact h.setAck (by simp [ha])
  | batchRead ha => exact h.setAck (by simp [ha])
  | batchOld ha => exact h.setAck (by simp [ha])
  | batchPast ha => exact h.setAck (by simp [ha])
  | batchDone ha => exact h.setAck (by simp [ha])
  | ackBatchID ha => exact h.setAck (by simp [ha])
  | assertHolds ha => exact h.setAck (by simp [ha])
  | assertFails ha => exact h.setAck (by simp [ha])
  | scanList ha => exact h.setAck (by simp [ha])
  | scanSkip ha => exact h.setAck (by simp [ha])
  | scanEnd ha => exact h.setAck (by simp [ha])
  | extra ha => exact h.setAck (by simp [ha])
  | tooMany ha => exact h.setAck (by simp [ha])
  | extraEnd ha => exact h.setAck (by simp [ha])
  | overflowEnd ha => exact h.setAck (by simp [ha])

theorem move_attended {cfg : Config} {s t : Radio} {l : Label} {tr out : List Event}
    (hok : NoWrapInGap tr s l) (hcore : Core s) (h : Attended s.buf s.cons s.ack)
    (m : Move cfg s l t out) : Attended t.buf t.cons t.ack := by
  cases l with
  | call p c => cases m; exact h
  | prod p pick => exact prod_attended hok h m
  | cons pick => exact cons_attended hcore h m
  | ack => exact ack_attended h m
  | setBatchInfo => cases m; exact h
  | updateTimeLeft => cases m; exact h
  | setDecodingDone => cases m; exact h
  | tick us => cases m; exact h

theorem run_attended {cfg : Config} {s : Radio} {tr : List Event}
    (r : Run (radio cfg) NoWrapInGap s tr) : Attended s.buf s.cons s.ack :=
  r.invariant (fun s _ => Attended s.buf s.cons s.ack) (fun _ h0 => fresh_attended h0)
    (fun _ _ _ _ _ r h hok hs =>
      move_attended hok (the_tail_stays_in_the_window r) h (step_move hs))

/-- Without a wrap-around in the gap, the consumer only sleeps when it has
nothing to do. -/
theorem the_consumer_only_sleeps_with_nothing_to_do {cfg : Config} {s : Radio} {tr : List Event}
    (r : Run (radio cfg) NoWrapInGap s tr) (h : AsleepUnsignalled s) : NothingToDo s := by
  have ha := run_attended r
  have hcore := the_tail_stays_in_the_window r
  rcases h with ⟨hc, hack⟩ | ⟨i, hc⟩
  · refine .inl ⟨hc, (isEmpty_iff_tail _).mpr ?_⟩
    by_contra hne
    have hord := hcore.order
    exact hack (ha.filled hc (by omega))
  · exact .inr ⟨i, hc, ha.asleep i hc⟩

/-- A step that wraps around is the wrap-around section. -/
theorem move_of_wrapsAt {cfg : Config} {s t : Radio} {p : Producer} {pick : Pick}
    {out : List Event} (hw : wrapsAt s (.prod p pick) = true)
    (m : Move cfg s (.prod p pick) t out) :
    ∃ c, Entering s p c ∧ elementFree s (seq2Ind c.seq_num) ∧
      t = setProd (signalEmpty (signalFill (signalElementAvail
        { s with buf := wrapAround (store s.buf c) c }) pick) pick) p .idle ∧
      out = [.wrapped c.seq_num c.bytes] := by
  obtain ⟨c, hent, -, hf, hs, hwr⟩ := wrapsAt_iff.mp hw
  cases m with
  | full _ _ hf' _ => exact absurd hf' hf
  | @wrap _ c' _ hent' _ _ _ he _ => exact ⟨c', hent', he, rfl, rfl⟩
  | store hent' _ _ _ _ hw' =>
    rw [hent.unique hent'] at hw'
    exact absurd hwr hw'
  | stale hent' _ _ hs' _ =>
    rw [hent.unique hent'] at hs'
    omega
  | staleTail hent' _ _ hs' _ =>
    rw [hent.unique hent'] at hs'
    omega
  | clear hp _ _ => rcases hent with h1 | ⟨b, h1⟩ <;> rw [h1] at hp <;> cases hp
  | finish hp _ => rcases hent with h1 | ⟨b, h1⟩ <;> rw [h1] at hp <;> cases hp

/-- A wrap-around in the gap loses its signal: the consumer falls asleep on a
slot that is not the one of the head. -/
theorem a_wrap_in_the_gap_loses_the_signal {cfg : Config} {s t : Radio} {p : Producer}
    {pick : Pick} {i : Slot} {out : List Event} (hc : s.cons = .beforeWait i)
    (hw : wrapsAt s (.prod p pick) = true) (hs : step cfg s (.prod p pick) = some (t, out)) :
    ∃ u, step cfg t (.cons pick) = some (u, []) ∧ AsleepUnsignalled u ∧ ¬NothingToDo u := by
  have halive : s.ack ≠ .aborted := by
    intro ha
    simp [step, ha] at hs
  obtain ⟨c, -, he, ht, -⟩ := move_of_wrapsAt hw (step_move hs)
  have hcons : t.cons = .beforeWait i := by
    rw [ht, setProd_cons, signalEmpty_cons,
      signalFill_cons_of_ne _ _ (by simp [hc, ConsumerPc.signal])]
    simp [hc, ConsumerPc.signal]
  have hack : t.ack ≠ .aborted := by
    rw [ht, setProd_ack, signalEmpty_ack]
    exact signalFill_alive _ _ (by simpa using halive)
  have hhead : headPtMod t.buf = seq2Ind c.seq_num := by
    rw [ht, setProd_buf, signalEmpty_buf, signalFill_buf, signalElementAvail_buf]
    rfl
  refine ⟨{ t with cons := .waitElement i false }, ?_, .inr ⟨i, rfl⟩, ?_⟩
  · simp only [step, hack, if_false, stepConsumer, hcons]
  · rintro (⟨hf, -⟩ | ⟨j, hj, hole, -⟩)
    · cases hf
    · cases hj
      exact ne_of_elementFree he hc (hole.trans hhead)

/-! ## Runs -/

/-- Packet 2 is stored, and the consumer blocks on packet 1. -/
def blockingRun : List Label :=
  [.call .rcvAth (onePkt 2 7)] ++ List.replicate 4 (.prod .rcvAth .ath) ++
    [.cons .ath, .cons .ath]

/-- Packet 6000 wraps around before the consumer sleeps. -/
def lostSignalRun : List Label :=
  blockingRun ++ [.call .rcvCell (onePkt 6000 8), .prod .rcvCell .ath, .cons .ath]

theorem the_consumer_sleeps_on_a_missing_packet :
    ∃ s tr, Run (radio ⟨25, 500⟩) NoWrapInGap s tr ∧ s.buf.tail_pt = 2 ∧ AsleepUnsignalled s ∧
      NothingToDo s := by
  obtain ⟨s, tr, r, hs⟩ := run_of_check (radio ⟨25, 500⟩) NoWrapInGap
    (blockingRun ++ [.cons .ath])
    (fun x => decide (x.1.buf.tail_pt = 2 ∧ x.1.cons = .waitElement (indMod 0) false))
    atStart_fresh (by decide +kernel) (by decide +kernel)
  obtain ⟨ht, hc⟩ := of_decide_eq_true hs
  have ha : AsleepUnsignalled s := .inr ⟨_, hc⟩
  exact ⟨s, tr, r, ht, ha, the_consumer_only_sleeps_with_nothing_to_do r ha⟩

/-- Packet 6000 stands at the head, and the consumer sleeps on the slot of packet 1. -/
theorem a_wrap_around_can_leave_the_consumer_asleep :
    ¬∀ (cfg : Config) (s : Radio) (tr : List Event), Run (radio cfg) anyStep s tr →
      AsleepUnsignalled s → NothingToDo s := by
  intro hall
  obtain ⟨s, tr, r, hs⟩ := run_of_check (radio ⟨25, 500⟩) anyStep lostSignalRun
    (fun x => decide (x.1.buf.head_pt = 5999 ∧ x.1.cons = .waitElement (indMod 0) false))
    atStart_fresh (execOk_any _ _ _) (by decide +kernel)
  obtain ⟨hh, hc⟩ := of_decide_eq_true hs
  rcases hall _ s tr r (.inr ⟨_, hc⟩) with ⟨hf, -⟩ | ⟨i, hi, hole, -⟩
  · rw [hc] at hf
    cases hf
  · rw [hc] at hi
    cases hi
    rw [headPtMod, hh] at hole
    revert hole
    decide

end wspace_client.threads

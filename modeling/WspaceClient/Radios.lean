-- The client with all its radios: each has its own buffer, batch information
-- and threads, but `batch_id_prev` is a static variable of `FindNackSeqNum`, so
-- all radios share it.
import WspaceClient.BatchIds

namespace wspace_client.threads

open machine batch_info rx_data_buf

/-! ## The client -/

/-- All radios, with the variable that they share. A failed assertion of one
radio ends the process. -/
structure Client (ι : Type) where
  batch_id_prev : Nat
  radios : ι → Radio
  aborted : Bool

/-- A step of one radio, or of the clock that all radios read. -/
inductive ClientLabel (ι : Type)
  | radio (r : ι) (l : Label)
  | tick (us : Nat)

def Label.isTick : Label → Bool
  | .tick _ => true
  | _ => false

/-- The radio with another value of `batch_id_prev`. -/
def withPrev (batch_id_prev : Nat) (s : Radio) : Radio := { s with batch_id_prev }

def Radio.wait (us : Nat) (s : Radio) : Radio := { s with now := s.now + us }

section client

variable {ι : Type}

def Client.Fresh (c : Client ι) : Prop :=
  c.batch_id_prev = 0 ∧ (∀ r, (c.radios r).Fresh) ∧ c.aborted = false ∧
    ∀ r r', (c.radios r).now = (c.radios r').now

/-- A radio as its threads see it. -/
def Client.view (c : Client ι) (r : ι) : Radio := withPrev c.batch_id_prev (c.radios r)

/-- No radio failed an assertion while the process runs. -/
def Alive (c : Client ι) : Prop := c.aborted = false → ∀ r, (c.radios r).ack ≠ .aborted

theorem fresh_alive {c : Client ι} (h : c.Fresh) : Alive c := by
  intro _ r' ha
  rw [(h.2.1 r').2.2.2.2.2] at ha
  cases ha

def clientStep [DecidableEq ι] (cfg : Config) (c : Client ι) (l : ClientLabel ι) :
    Option (Client ι × List (ι × Event)) :=
  if c.aborted then none
  else match l with
  | .radio r l =>
    if l.isTick then none
    else do
      let (t, out) ← step cfg (c.view r) l
      return (⟨t.batch_id_prev, Function.update c.radios r t, decide (t.ack = .aborted)⟩,
        out.map fun e => (r, e))
  | .tick us => some ({ c with radios := fun r => (c.radios r).wait us }, [])

def client [DecidableEq ι] (cfg : Config) :
    Machine (Client ι) (ClientLabel ι) (ι × Event) where
  init := Client.Fresh
  step := clientStep cfg

end client

/-! ## What a step does with `batch_id_prev` -/

section withPrev

variable (y : Nat) (s : Radio)

theorem signalFill_withPrev (pick : Pick) :
    signalFill (withPrev y s) pick = withPrev y (signalFill s pick) := by
  unfold signalFill withPrev
  dsimp only
  split
  · rfl
  · split <;> rfl

theorem signalElementAvail_withPrev :
    signalElementAvail (withPrev y s) = withPrev y (signalElementAvail s) := by
  unfold signalElementAvail withPrev
  dsimp only
  split <;> rfl

theorem enqueueStore_withPrev (p : Producer) (c : EnqueueArgs) :
    (enqueueStore (withPrev y s) p c).1 = withPrev y (enqueueStore s p c).1 := by
  have hsig := signalElementAvail_withPrev y { s with buf := store s.buf c }
  unfold enqueueStore
  change setProd (if (s.buf.book_keep_arr (seq2Ind c.seq_num)).status = .kBlock ∨
    (s.buf.book_keep_arr (seq2Ind c.seq_num)).status = .kDrop then
      signalElementAvail (withPrev y { s with buf := store s.buf c })
    else withPrev y { s with buf := store s.buf c }) p _ = _
  rw [hsig]
  dsimp only
  split <;> rfl

/-- The test of the acknowledgement thread goes the same way for both values. -/
def SameTest (x : Nat) : Prop :=
  ∀ b, s.ack = .gotBatchID b → isEmpty s.buf = true → (b ≤ x ↔ b ≤ y)

instance (x : Nat) : Decidable (SameTest y s x) :=
  match h : s.ack with
  | .gotBatchID b => decidable_of_iff (isEmpty s.buf = true → (b ≤ x ↔ b ≤ y)) (by
      unfold SameTest
      rw [h]
      exact ⟨fun hb b' hb' => AckPc.gotBatchID.inj hb' ▸ hb, fun hb => hb b rfl⟩)
  | .idle | .waitFill _ | .gotPointers _ _ | .gotBatchInfo _ _ _ | .atAssert _ _ _ _ | .aborted
  | .scan _ _ _ _ _ _ | .extra _ _ _ | .overflow _ _ => isTrue (by
      unfold SameTest
      rw [h]
      nofun)

/-- The producers and the consumer leave `batch_id_prev` alone. -/
theorem Move.withPrev_others {cfg : Config} {t : Radio} {l : Label} {out : List Event}
    (m : Move cfg s l t out) (hl : l ≠ .ack) : Move cfg (withPrev y s) l (withPrev y t) out := by
  cases m with
  | call h => exact .call h
  | full h hq hf he =>
    change Move _ _ _ (setProd (withPrev y (signalElementAvail _)) _ _) _
    rw [← signalElementAvail_withPrev]
    exact .full h hq hf he
  | wrap h hq hf hs he hw =>
    change Move _ _ _ (setProd (signalEmpty (withPrev y (signalFill _ _)) _) _ _) _
    rw [← signalFill_withPrev, ← signalElementAvail_withPrev]
    exact .wrap h hq hf hs he hw
  | store h hq hf hs he hw =>
    rw [← enqueueStore_withPrev]
    exact .store h hq hf hs he hw
  | stale h hq hf hs ht => exact .stale h hq hf hs ht
  | staleTail h hq hf hs ht => exact .staleTail h hq hf hs ht
  | clear h hi he => exact .clear h hi he
  | finish h hi =>
    change Move _ _ _ (setProd (withPrev y (signalFill _ _)) _ _) _
    rw [← signalFill_withPrev]
    exact .finish h hi
  | sleepFill h hq he => exact .sleepFill h hq he
  | top h hq he =>
    rw [← signalFill_withPrev]
    exact .top h hq he
  | block h hk => exact .block h hk
  | blocked h hk => exact .blocked h hk
  | deliver h hk => exact .deliver h hk
  | giveUp h hk => exact .giveUp h hk
  | sleep h => exact .sleep h
  | wake h => exact .wake h
  | relock h hq => exact .relock h hq
  | setBatchInfo => exact .setBatchInfo
  | updateTimeLeft => exact .updateTimeLeft
  | setDecodingDone => exact .setDecodingDone
  | tick => exact .tick
  | _ => exact absurd rfl hl

theorem prevAfter_withPrev (hne : ∀ hd tl e, s.ack ≠ .gotBatchInfo hd tl e) :
    prevAfter (withPrev y s) .ack = y := by
  unfold prevAfter
  rw [show (withPrev y s).ack = s.ack from rfl]
  cases ha : s.ack with
  | gotBatchInfo hd tl e => exact absurd ha (hne hd tl e)
  | _ => rfl

theorem Move.withPrev_ack {cfg : Config} {t : Radio} {out : List Event}
    (m : Move cfg s .ack t out) (hsame : SameTest y s s.batch_id_prev) :
    Move cfg (withPrev y s) .ack (withPrev (prevAfter (withPrev y s) .ack) t) out := by
  by_cases hgap : ∃ hd tl e, s.ack = .gotBatchInfo hd tl e
  · -- The one step that writes the variable.
    obtain ⟨hd, tl, e, ha⟩ := hgap
    have hafter : prevAfter (withPrev y s) .ack = max y s.batch_info.batch_id := by
      unfold prevAfter
      rw [show (withPrev y s).ack = s.ack from rfl, ha]
      rfl
    rw [hafter]
    cases m with
    | ackBatchID h => exact .ackBatchID h
    | getBatchID h | ackSleep h | pointers h | ackWoken h | batchFirst h | batchRead h
    | batchOld h | batchPast h | batchDone h | assertHolds h | assertFails h | scanDrop h
    | scanList h | scanSkip h | scanEnd h | extra h | tooMany h | extraEnd h | overflowEnd h
    | overflowDrop h => cases ha.symm.trans h
  · have hne : ∀ hd tl e, s.ack ≠ .gotBatchInfo hd tl e := fun hd tl e ha => hgap ⟨hd, tl, e, ha⟩
    rw [prevAfter_withPrev y s hne]
    cases m with
    | ackBatchID h => exact absurd h (hne _ _ _)
    | ackSleep h hq hb he => exact .ackSleep h hq ((hsame _ h he).mp hb) he
    | pointers h hq hb => exact .pointers h hq fun hy => hb ⟨(hsame _ h hy.2).mpr hy.1, hy.2⟩
    | ackWoken h hq =>
      rw [← signalFill_withPrev]
      exact .ackWoken h hq
    | scanDrop h hi he hh ho =>
      rw [← signalElementAvail_withPrev]
      exact .scanDrop h hi he hh ho
    | overflowDrop h he =>
      rw [← signalElementAvail_withPrev]
      exact .overflowDrop h he
    | getBatchID h => exact .getBatchID h
    | batchFirst h hd hz => exact .batchFirst h hd hz
    | batchRead h hd hz ht hh => exact .batchRead h hd hz ht hh
    | batchOld h hd hz ht hh => exact .batchOld h hd hz ht hh
    | batchPast h hd hz ht => exact .batchPast h hd hz ht
    | batchDone h hd => exact .batchDone h hd
    | assertHolds h ha => exact .assertHolds h ha
    | assertFails h ha => exact .assertFails h ha
    | scanList h hi he hh ho => exact .scanList h hi he hh ho
    | scanSkip h hi he hh => exact .scanSkip h hi he hh
    | scanEnd h hi => exact .scanEnd h hi
    | extra h hi => exact .extra h hi
    | tooMany h hi hn => exact .tooMany h hi hn
    | extraEnd h hi hn => exact .extraEnd h hi hn
    | overflowEnd h => exact .overflowEnd h

/-- A step goes the same way with another value, when the test does. -/
theorem step_withPrev {cfg : Config} {t : Radio} {l : Label} {out : List Event}
    (hs : step cfg s l = some (t, out)) (hsame : l = .ack → SameTest y s s.batch_id_prev) :
    step cfg (withPrev y s) l = some (withPrev (prevAfter (withPrev y s) l) t, out) := by
  have halive : s.ack ≠ .aborted := by
    intro ha
    unfold step at hs
    rw [if_pos ha] at hs
    cases hs
  apply (step_iff_move (s := withPrev y s) halive).mpr
  have m := step_move hs
  by_cases hl : l = .ack
  · subst hl
    exact m.withPrev_ack y s (hsame rfl)
  · have hafter : prevAfter (withPrev y s) l = y := by
      cases l with
      | ack => exact absurd rfl hl
      | _ => rfl
    rw [hafter]
    exact m.withPrev_others y s hl

/-- Where the tests differ, the call waits with the larger value and not with the other. -/
theorem a_larger_value_makes_the_call_wait {cfg : Config} {b : Nat} (ha : s.ack = .gotBatchID b)
    (hq : queueFree s) (he : isEmpty s.buf) (hb : b ≤ s.batch_id_prev) (hy : y < b) :
    (∃ t, step cfg s .ack = some (t, []) ∧ t.ack = .waitFill false) ∧
    ∃ t, step cfg (withPrev y s) .ack = some (t, [.pointers s.buf.head_pt s.buf.tail_pt]) := by
  have halive : s.ack ≠ .aborted := by rw [ha]; nofun
  have hpast : ¬(b ≤ y ∧ isEmpty s.buf) := fun h => absurd h.1 (Nat.not_le.mpr hy)
  have hwait := (@step_iff_move cfg s _ _ _ halive).mpr (.ackSleep ha hq hb he)
  have halone := (@step_iff_move cfg (withPrev y s) _ _ _ halive).mpr (.pointers ha hq hpast)
  exact ⟨⟨_, hwait, rfl⟩, _, halone⟩

end withPrev

/-! ## One radio alone -/

section alone

variable {ι : Type} [DecidableEq ι] (r : ι)

/-- What a radio does itself. The clock is everybody's. -/
def ownLabel : ClientLabel ι → Option Label
  | .radio r' l => if r' = r then some l else none
  | .tick us => some (.tick us)

/-- The run of the client with the steps of all other radios removed. -/
def labelsOf (ls : List (ClientLabel ι)) : List Label := ls.filterMap (ownLabel r)

def eventsOfRadio (tr : List (ι × Event)) : List Event :=
  tr.filterMap fun x => if x.1 = r then some x.2 else none

abbrev ClientLog (ι : Type) := List (Entry (Client ι) (ClientLabel ι) (ι × Event))

/-- `batch_id_prev` as the radio would have it for itself. -/
def ownStep (p : Nat) (e : Entry (Client ι) (ClientLabel ι) (ι × Event)) : Nat :=
  match ownLabel r e.label with
  | some l => prevAfter (withPrev p (e.state.radios r)) l
  | none => p

def ownPrev (log : ClientLog ι) : Nat := log.foldl (ownStep r) 0

/-- When `FindNackSeqNum` of the radio tests the id of its batch on an empty
buffer, the shared variable decides as the radio's own would. -/
def OwnTest (log : ClientLog ι) (c : Client ι) (l : ClientLabel ι) : Prop :=
  ownLabel r l = some .ack → SameTest (ownPrev r log) (c.radios r) c.batch_id_prev

theorem clientStep_radio {cfg : Config} {c d : Client ι} {r' : ι} {l : Label}
    {out : List (ι × Event)} (hs : clientStep cfg c (.radio r' l) = some (d, out)) :
    c.aborted = false ∧ ∃ t es, step cfg (c.view r') l = some (t, es) ∧
      d = ⟨t.batch_id_prev, Function.update c.radios r' t, decide (t.ack = .aborted)⟩ ∧
      out = es.map fun e => (r', e) := by
  unfold clientStep at hs
  split at hs
  · cases hs
  · rename_i hab
    dsimp only at hs
    split at hs
    · cases hs
    · obtain ⟨⟨t, es⟩, hstep, he⟩ := Option.bind_eq_some_iff.mp hs
      cases he
      exact ⟨Bool.not_eq_true _ ▸ hab, t, es, hstep, rfl, rfl⟩

theorem clientStep_tick {cfg : Config} {c d : Client ι} {us : Nat} {out : List (ι × Event)}
    (hs : clientStep cfg c (.tick us) = some (d, out)) :
    c.aborted = false ∧ d = { c with radios := fun r => (c.radios r).wait us } ∧ out = [] := by
  unfold clientStep at hs
  split at hs
  · cases hs
  · rename_i hab
    cases hs
    exact ⟨Bool.not_eq_true _ ▸ hab, rfl, rfl⟩

theorem clientStep_alive {cfg : Config} {c d : Client ι} {l : ClientLabel ι}
    {out : List (ι × Event)} (h : Alive c) (hs : clientStep cfg c l = some (d, out)) :
    Alive d := by
  cases l with
  | radio r' l =>
    obtain ⟨hab, t, es, hstep, rfl, rfl⟩ := clientStep_radio hs
    intro hd r'' ha
    by_cases hr : r'' = r'
    · subst hr
      dsimp only at hd ha
      rw [Function.update_self] at ha
      exact absurd ha (of_decide_eq_false hd)
    · dsimp only at ha
      rw [Function.update_of_ne hr] at ha
      exact h hab r'' ha
  | tick us =>
    obtain ⟨hab, rfl, rfl⟩ := clientStep_tick hs
    exact fun _ r'' => h hab r''

theorem eventsOfRadio_self (es : List Event) :
    eventsOfRadio r (es.map fun e => (r, e)) = es := by
  unfold eventsOfRadio
  rw [List.filterMap_map]
  simp

theorem eventsOfRadio_ne {r' : ι} (hr : r' ≠ r) (es : List Event) :
    eventsOfRadio r (es.map fun e => (r', e)) = [] := by
  unfold eventsOfRadio
  rw [List.filterMap_map]
  simp [hr]

instance (log : ClientLog ι) (c : Client ι) (l : ClientLabel ι) :
    Decidable (OwnTest r log c l) :=
  match h : ownLabel r l with
  | some .ack => decidable_of_iff (SameTest (ownPrev r log) (c.radios r) c.batch_id_prev) (by
      unfold OwnTest
      rw [h]
      exact ⟨fun hs _ => hs, fun hs => hs rfl⟩)
  | none | some (.call ..) | some (.prod ..) | some (.cons ..) | some (.setBatchInfo ..)
  | some (.updateTimeLeft ..) | some (.setDecodingDone ..) | some (.tick ..) => isTrue (by
      unfold OwnTest
      rw [h]
      nofun)

/-- One step of the client, as the radio would do it for itself. -/
theorem clientStep_alone {cfg : Config} {c d : Client ι} {l : ClientLabel ι}
    {out : List (ι × Event)} {p : Nat} (h : Alive c) (hs : clientStep cfg c l = some (d, out))
    (hsame : ownLabel r l = some .ack → SameTest p (c.radios r) c.batch_id_prev) :
    exec (radio cfg) (withPrev p (c.radios r)) (ownLabel r l).toList =
      some (withPrev (ownStep r p ⟨c, l, out⟩) (d.radios r), eventsOfRadio r out) := by
  unfold ownStep
  cases l with
  | radio r' l =>
    obtain ⟨hab, t, es, hstep, rfl, rfl⟩ := clientStep_radio hs
    by_cases hr : r' = r
    · subst hr
      have hown : ownLabel r' (.radio r' l) = some l := if_pos rfl
      have halone := step_withPrev p (c.view r') hstep fun hl =>
        hsame (by rw [hown, hl])
      rw [hown, eventsOfRadio_self]
      dsimp only
      rw [Function.update_self]
      exact exec_one halone
    · have hown : ownLabel r (.radio r' l) = none := if_neg hr
      rw [hown, eventsOfRadio_ne r hr]
      dsimp only
      rw [Function.update_of_ne (Ne.symm hr)]
      rfl
  | tick us =>
    obtain ⟨hab, rfl, rfl⟩ := clientStep_tick hs
    apply exec_one
    exact if_neg (h hab r)

/-- Any number of steps. -/
theorem exec_alone {cfg : Config} {c d : Client ι} {ls : List (ClientLabel ι)}
    {pre log : ClientLog ι} (h : Alive c)
    (hok : ExecOk (logged (client cfg)) (OwnTest r) pre c ls)
    (he : exec (logged (client cfg)) c ls = some (d, log)) :
    exec (radio cfg) (withPrev (ownPrev r pre) (c.radios r)) (labelsOf r ls) =
      some (withPrev (ownPrev r (pre ++ log)) (d.radios r), eventsOfRadio r (eventsOf log)) := by
  induction ls generalizing c pre log with
  | nil =>
    cases he
    rw [List.append_nil]
    rfl
  | cons l ls ih =>
    obtain ⟨c', es, log', hs, hrest, rfl⟩ := exec_cons he
    obtain ⟨out, hstep, rfl⟩ := logged_step hs
    have hone := clientStep_alone r h hstep hok.1
    have hrec := ih (clientStep_alive h hstep) (hok.2 _ _ hs) hrest
    have hprev : ownPrev r (pre ++ [⟨c, l, out⟩]) = ownStep r (ownPrev r pre) ⟨c, l, out⟩ := by
      unfold ownPrev
      rw [List.foldl_append]
      rfl
    have hlabels : labelsOf r (l :: ls) = (ownLabel r l).toList ++ labelsOf r ls := by
      unfold labelsOf
      cases hl : ownLabel r l <;> simp [hl]
    rw [hprev] at hrec
    have hevents : eventsOfRadio r (eventsOf ([⟨c, l, out⟩] ++ log')) =
        eventsOfRadio r out ++ eventsOfRadio r (eventsOf log') := List.filterMap_append
    rw [hlabels, hevents, ← List.append_assoc]
    exact exec_append hone hrec

/-- When the shared variable decides each test as the radio's own would, all that
the radio does is what it does with the calls of all other radios removed. -/
theorem radios_do_not_interfere {cfg : Config} {c d : Client ι} {ls : List (ClientLabel ι)}
    {log : ClientLog ι} (h0 : c.Fresh) (hok : ExecOk (logged (client cfg)) (OwnTest r) [] c ls)
    (he : exec (logged (client cfg)) c ls = some (d, log)) :
    exec (radio cfg) (c.radios r) (labelsOf r ls) =
      some (withPrev (ownPrev r log) (d.radios r), eventsOfRadio r (eventsOf log)) := by
  have hrun := exec_alone r (fresh_alive h0) hok he
  have hstart : withPrev (ownPrev r []) (c.radios r) = c.radios r := by
    have hprev := (h0.2.1 r).2.2.1
    unfold withPrev ownPrev
    rw [List.foldl_nil, ← hprev]
  rwa [hstart, List.nil_append] at hrun

end alone

/-! ## Two radios -/

def twoRadios : Client (Fin 2) := ⟨0, fun _ => .atStart, false⟩

theorem twoRadios_fresh : twoRadios.Fresh := ⟨rfl, fun _ => atStart_fresh, rfl, fun _ _ => rfl⟩

/-- Radio 0 acknowledges its batch 1. -/
def acksBatch : List (ClientLabel (Fin 2)) := (firstBatchDone ++ [Label.ack]).map (.radio 0)

/-- Radio 1 starts to acknowledge a new batch, with nothing in its buffer. -/
def newBatch (batch_id : Nat) : List (ClientLabel (Fin 2)) :=
  [.radio 1 (.setBatchInfo batch_id 0 false 0 1 1000), .radio 1 .ack, .radio 1 .ack]

theorem a_newer_batch_is_acknowledged : ∃ d log,
    exec (logged (client ⟨25, 500⟩)) twoRadios (acksBatch ++ newBatch 2) = some (d, log) ∧
      exec (radio ⟨25, 500⟩) .atStart (labelsOf 1 (acksBatch ++ newBatch 2)) =
        some (withPrev (ownPrev 1 log) (d.radios 1), eventsOfRadio 1 (eventsOf log)) := by
  have hsome : (exec (logged (client ⟨25, 500⟩)) twoRadios (acksBatch ++ newBatch 2)).isSome := by
    decide +kernel
  obtain ⟨⟨d, log⟩, he⟩ := Option.isSome_iff_exists.mp hsome
  exact ⟨d, log, he, radios_do_not_interfere 1 twoRadios_fresh (by decide +kernel) he⟩

/-- Batch 1 of radio 1 waits, because radio 0 acknowledged its own batch 1. -/
theorem a_batch_waits_for_another_radio :
    ¬∀ (cfg : Config) (c d : Client (Fin 2)) (ls : List (ClientLabel (Fin 2)))
      (log : ClientLog (Fin 2)), c.Fresh → exec (logged (client cfg)) c ls = some (d, log) →
      ∀ r, ∃ s, exec (radio cfg) (c.radios r) (labelsOf r ls) =
        some (s, eventsOfRadio r (eventsOf log)) := by
  intro hall
  have hcheck : (exec (logged (client ⟨25, 500⟩)) twoRadios (acksBatch ++ newBatch 1)).any
      (fun x => decide (eventsOfRadio 1 (eventsOf x.2) = [])) = true := by decide +kernel
  obtain ⟨⟨d, log⟩, he, hevents⟩ := (Option.any_eq_true _ _).mp hcheck
  obtain ⟨s, hs⟩ := hall _ _ _ _ _ twoRadios_fresh he 1
  rw [of_decide_eq_true hevents] at hs
  have halone : (exec (radio ⟨25, 500⟩) .atStart (labelsOf 1 (acksBatch ++ newBatch 1))).any
      (fun x => decide (x.2 = [.pointers 0 0])) = true := by decide +kernel
  rw [show exec (radio ⟨25, 500⟩) .atStart _ = _ from hs] at halone
  cases halone

end wspace_client.threads

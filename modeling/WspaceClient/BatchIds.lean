-- `batch_id_prev` over whole runs: the last batch whose acknowledgement
-- started. `FindNackSeqNum` reads whether a batch is done and then reads the id
-- again, and a batch that starts in between is recorded before it is done.
import Mathlib.Data.List.Induction
import WspaceClient.Snapshots

namespace wspace_client.threads

open machine batch_info rx_data_buf

/-! ## What `GetBatchInfo` saw -/

abbrev Log := List (Entry Radio Label Event)

/-- The step is `GetBatchInfo` in `FindNackSeqNum`. -/
def readsBatch (e : Entry Radio Label Event) : Bool :=
  match e.label, e.state.ack with
  | .ack, .gotPointers _ _ => true
  | _, _ => false

/-- The batch that `GetBatchInfo` saw done. -/
def sawDone (e : Entry Radio Label Event) : Option Nat :=
  if doneNow e.state then some e.state.batch_info.batch_id else none

/-- What the last `GetBatchInfo` of a log saw done. -/
def lastSawDone (log : Log) : Option Nat :=
  log.foldl (fun seen e => if readsBatch e then sawDone e else seen) none

/-- Some `GetBatchInfo` of a log saw the batch done. -/
def WasDone (log : Log) (batch_id : Nat) : Prop :=
  ∃ e ∈ log, readsBatch e = true ∧ sawDone e = some batch_id

/-- The batch that the step records in `batch_id_prev`. -/
def recorded (s : Radio) : Option Nat :=
  match s.ack with
  | .gotBatchInfo _ _ _ =>
    if s.batch_info.batch_id > s.batch_id_prev then some s.batch_info.batch_id else none
  | _ => none

theorem lastSawDone_append (log : Log) (e : Entry Radio Label Event) :
    lastSawDone (log ++ [e]) = if readsBatch e then sawDone e else lastSawDone log := by
  unfold lastSawDone
  rw [List.foldl_append]
  rfl

theorem WasDone.append {log : Log} {b : Nat} (h : WasDone log b) (log' : Log) :
    WasDone (log ++ log') b := by
  obtain ⟨e, he, hr⟩ := h
  exact ⟨e, List.mem_append_left _ he, hr⟩

theorem wasDone_of_last {log : Log} {b : Nat} (h : lastSawDone log = some b) : WasDone log b := by
  induction log using List.reverseRecOn with
  | nil => cases h
  | append_singleton log e ih =>
    rw [lastSawDone_append] at h
    by_cases hr : readsBatch e
    · rw [if_pos hr] at h
      exact ⟨e, List.mem_append_right _ (List.mem_singleton_self e), hr, h⟩
    · rw [if_neg hr] at h
      exact (ih h).append [e]

/-! ## The gap between the two reads -/

/-- `RxRcvAth` starts batches with growing ids. -/
def IncreasingIds {ω : Type} (_ : List ω) (s : Radio) : Label → Prop
  | .setBatchInfo batch_id _ _ _ _ _ => s.batch_info.batch_id < batch_id
  | _ => True

def startsBatch : Label → Bool
  | .setBatchInfo _ _ _ _ _ _ => true
  | _ => false

/-- `FindNackSeqNum` saw a batch done and is about to read the id again. -/
def inGap (s : Radio) : Bool :=
  match s.ack with
  | .gotBatchInfo _ _ _ => true
  | _ => false

/-- No batch starts between the two reads. -/
def NoBatchInGap {ω : Type} (tr : List ω) (s : Radio) (l : Label) : Prop :=
  IncreasingIds tr s l ∧ (startsBatch l = true → inGap s = false)

instance {ω : Type} (tr : List ω) (s : Radio) : (l : Label) → Decidable (IncreasingIds tr s l)
  | .setBatchInfo b _ _ _ _ _ => inferInstanceAs (Decidable (s.batch_info.batch_id < b))
  | .call .. | .prod .. | .cons .. | .ack | .updateTimeLeft .. | .setDecodingDone .. | .tick .. =>
    isTrue trivial

instance {ω : Type} (tr : List ω) (s : Radio) (l : Label) : Decidable (NoBatchInGap tr s l) :=
  inferInstanceAs (Decidable (_ ∧ _))

/-- The recorded batch was seen done, and no batch is recorded ahead of its time. -/
structure Recorded (s : Radio) (log : Log) : Prop where
  gap : ∀ hd tl e, s.ack = .gotBatchInfo hd tl e →
    lastSawDone log = some s.batch_info.batch_id
  prev : s.batch_id_prev = 0 ∨ WasDone log s.batch_id_prev
  prev_le : s.batch_id_prev ≤ s.batch_info.batch_id
  read : ∀ b, s.ack = .gotBatchID b → s.batch_id_prev ≤ b

theorem readsBatch_eq {s : Radio} {out : List Event} {l : Label} (hl : l ≠ .ack) :
    readsBatch ⟨s, l, out⟩ = false := by
  cases l with
  | ack => exact absurd rfl hl
  | _ => rfl

/-- The other threads keep what is recorded, unless a batch starts in the gap. -/
theorem others_recorded {cfg : Config} {s t : Radio} {l : Label} {out : List Event} {log : Log}
    (h : Recorded s log) (hok : NoBatchInGap log s l) (m : Move cfg s l t out) (hl : l ≠ .ack) :
    Recorded t (log ++ [⟨s, l, out⟩]) := by
  have hprev : t.batch_id_prev = s.batch_id_prev := by
    rw [m.batch_id_prev_eq]
    cases l with
    | ack => exact absurd rfl hl
    | _ => rfl
  have hseen : lastSawDone (log ++ [⟨s, l, out⟩]) = lastSawDone log := by
    rw [lastSawDone_append, readsBatch_eq hl, if_neg Bool.false_ne_true]
  have hack : ∀ pc, t.ack = pc → (∀ b, pc ≠ .waitFill b) → s.ack = pc := by
    intro pc hpc hne
    rcases m.ack_eq hl with he | ⟨-, he⟩
    · rw [← he, hpc]
    · exact absurd (hpc.symm.trans he) (hne true)
  have hbatch : (∃ b q d i n us, l = .setBatchInfo b q d i n us) ∨
      t.batch_info.batch_id = s.batch_info.batch_id := by
    rw [m.batch_info_eq]
    by_cases hset : ∃ b q d i n us, l = .setBatchInfo b q d i n us
    · exact .inl hset
    · exact .inr (batchAfter_keeps fun b q d i n us he => hset ⟨b, q, d, i, n, us, he⟩).2
  refine ⟨fun hd tl e ht => ?_, ?_, ?_, fun b hb => ?_⟩
  · have hs := hack _ ht fun b => nofun
    rcases hbatch with ⟨b, q, d, i, n, us, rfl⟩ | hid
    · have hgap := hok.2 rfl
      unfold inGap at hgap
      rw [hs] at hgap
      cases hgap
    · rw [hseen, hid]
      exact h.gap hd tl e hs
  · rw [hprev]
    exact h.prev.imp_right fun hw => hw.append _
  · rw [hprev]
    rcases hbatch with ⟨b, q, d, i, n, us, rfl⟩ | hid
    · rw [m.batch_info_eq]
      exact Nat.le_trans h.prev_le (Nat.le_of_lt hok.1)
    · rw [hid]
      exact h.prev_le
  · rw [hprev]
    exact h.read b (hack _ hb fun b => nofun)

theorem ack_recorded {cfg : Config} {s t : Radio} {out : List Event} {log : Log}
    (h : Recorded s log) (m : Move cfg s .ack t out) :
    Recorded t (log ++ [⟨s, .ack, out⟩]) := by
  have hid : t.batch_info.batch_id = s.batch_info.batch_id := by
    have hack : ∀ b q d i n us, Label.ack ≠ .setBatchInfo b q d i n us := by
      intros
      nofun
    rw [m.batch_info_eq, (batchAfter_keeps hack).2]
  -- Every step but the last one of the gap keeps `batch_id_prev`.
  have hkeep : ∀ (_ : t.batch_id_prev = s.batch_id_prev)
      (_ : ∀ hd tl e, t.ack = .gotBatchInfo hd tl e →
        lastSawDone (log ++ [⟨s, .ack, out⟩]) = some s.batch_info.batch_id)
      (_ : ∀ b, t.ack = .gotBatchID b → b = s.batch_info.batch_id),
      Recorded t (log ++ [⟨s, .ack, out⟩]) := by
    intro hprev hgap hread
    refine ⟨fun hd tl e ht => ?_, ?_, ?_, fun b hb => ?_⟩
    · rw [hid]
      exact hgap hd tl e ht
    · rw [hprev]
      exact h.prev.imp_right fun hw => hw.append _
    · rw [hprev, hid]
      exact h.prev_le
    · rw [hprev, hread b hb]
      exact h.prev_le
  cases m with
  | getBatchID => exact hkeep rfl nofun fun b hb => (AckPc.gotBatchID.inj hb).symm
  | ackWoken =>
    refine hkeep (signalFill_batch_id_prev _ _) (fun hd tl e ht => ?_) fun b hb => ?_
    · rw [signalFill_gotPointers] at ht
      cases ht
    · rw [signalFill_gotPointers] at hb
      cases hb
  | batchDone ha hdone =>
    refine hkeep rfl (fun hd tl e _ => ?_) nofun
    have hr : readsBatch ⟨s, .ack, []⟩ = true := by
      unfold readsBatch
      rw [ha]
    rw [lastSawDone_append, if_pos hr]
    exact if_pos hdone
  | ackBatchID ha =>
    have hmax : max s.batch_id_prev s.batch_info.batch_id = s.batch_info.batch_id :=
      Nat.max_eq_right h.prev_le
    refine ⟨nofun, .inr ?_, ?_, nofun⟩
    · show WasDone _ (max s.batch_id_prev s.batch_info.batch_id)
      rw [hmax]
      exact (wasDone_of_last (h.gap _ _ _ ha)).append _
    · exact Nat.le_of_eq hmax
  | scanDrop | overflowDrop =>
    refine hkeep (signalElementAvail_batch_id_prev _) (fun hd tl e ht => ?_) fun b hb => ?_
    · rw [signalElementAvail_ack] at ht
      cases ht
    · rw [signalElementAvail_ack] at hb
      cases hb
  | _ => exact hkeep rfl nofun nofun

theorem run_recorded {cfg : Config} {s : Radio} {log : Log}
    (r : Run (logged (radio cfg)) NoBatchInGap s log) : Recorded s log := by
  apply r.invariant Recorded
  · intro s h0
    obtain ⟨-, -, hprev, -, -, hack⟩ := h0
    refine ⟨fun hd tl e ha => ?_, .inl hprev, ?_, fun b ha => ?_⟩
    · rw [hack] at ha
      cases ha
    · rw [hprev]
      exact Nat.zero_le _
    · rw [hack] at ha
      cases ha
  · intro s log l t es r ih hok hs
    obtain ⟨out, hstep, rfl⟩ := logged_step hs
    have m := step_move hstep
    by_cases hl : l = .ack
    · subst hl
      exact ack_recorded ih m
    · exact others_recorded ih hok m hl

/-! ## A batch is recorded after it was seen done -/

/-- When no batch starts in the gap, a call records only the batch that its own
`GetBatchInfo` saw done, and no batch passes for acknowledged before it was done. -/
theorem batches_are_recorded_when_done {cfg : Config} {s : Radio} {log : Log}
    (r : Run (logged (radio cfg)) NoBatchInGap s log) :
    (∀ b, recorded s = some b → lastSawDone log = some b) ∧
    ∀ b, s.ack = .gotBatchID b → b ≤ s.batch_id_prev → b = 0 ∨ WasDone log b := by
  have h := run_recorded r
  refine ⟨fun b hb => ?_, fun b hb hle => ?_⟩
  · unfold recorded at hb
    split at hb
    · rename_i hd tl e ha
      split at hb
      · cases hb
        exact h.gap hd tl e ha
      · cases hb
    · cases hb
  · rw [Nat.le_antisymm hle (h.read b hb)]
    exact h.prev

/-- A batch that starts in the gap is recorded at the next step, though `GetBatchInfo`
saw another one. -/
theorem a_batch_in_the_gap_is_recorded {cfg : Config} {s t : Radio} {log : Log}
    {hd tl e b q i n us : Nat} {d : Bool} {out : List Event} (h : Recorded s log)
    (ha : s.ack = .gotBatchInfo hd tl e) (hb : s.batch_info.batch_id < b)
    (hs : step cfg s (.setBatchInfo b q d i n us) = some (t, out)) :
    recorded t = some b ∧ lastSawDone log ≠ some b := by
  have m := step_move hs
  refine ⟨?_, fun hseen => ?_⟩
  · have hprev := h.prev_le
    cases m with
    | setBatchInfo =>
      unfold recorded
      rw [ha]
      exact if_pos (Nat.lt_of_le_of_lt hprev hb)
  · rw [h.gap hd tl e ha, Option.some.injEq] at hseen
    omega

/-! ## Two batches -/

/-- Packet 1 is enqueued, batch 1 is done, and `FindNackSeqNum` reads that. -/
def firstBatchDone : List Label :=
  [.setBatchInfo 1 0 false 0 1 1000, .call .rcvAth (onePkt 1 7)] ++
    List.replicate 3 (.prod .rcvAth .ath) ++ [.setDecodingDone true] ++ List.replicate 3 .ack

theorem a_done_batch_is_recorded : ∃ s log,
    Run (logged (radio ⟨25, 500⟩)) NoBatchInGap s log ∧ recorded s = some 1 ∧
      lastSawDone log = some 1 := by
  obtain ⟨s, log, r, hb⟩ := run_of_check (logged (radio ⟨25, 500⟩)) NoBatchInGap firstBatchDone
    (fun x => decide (recorded x.1 = some 1)) atStart_fresh (by decide +kernel) (by decide +kernel)
  have hb := of_decide_eq_true hb
  exact ⟨s, log, r, hb, (batches_are_recorded_when_done r).1 1 hb⟩

/-- Batch 2 starts before the id is read again. -/
theorem an_undone_batch_is_recorded :
    ¬∀ (cfg : Config) (s : Radio) (log : Log), Run (logged (radio cfg)) IncreasingIds s log →
      ∀ b, recorded s = some b → lastSawDone log = some b := by
  intro hall
  obtain ⟨s, log, r, hb⟩ := run_of_check (logged (radio ⟨25, 500⟩)) IncreasingIds
    (firstBatchDone ++ [.setBatchInfo 2 1 false 0 1 1000])
    (fun x => decide (recorded x.1 = some 2 ∧ lastSawDone x.2 = some 1)) atStart_fresh
    (by decide +kernel) (by decide +kernel)
  obtain ⟨hrec, hseen⟩ := of_decide_eq_true hb
  have h := hall _ s log r 2 hrec
  rw [hseen] at h
  cases h

end wspace_client.threads

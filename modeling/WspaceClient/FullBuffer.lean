-- The full buffer. A producer that finds the window full sleeps until the
-- head moves, so it must not sleep while the head waits for a packet that
-- only a producer can bring.
import WspaceClient.WakeUps

namespace wspace_client.threads

open machine batch_info rx_data_buf

/-! ## The states and the steps -/

/-- The packet of the head is missing: its slot is empty or blocked. -/
def headMissing (b : RxDataBuf) : Bool := isHole (b.book_keep_arr (headPtMod b))

/-- A producer sleeps in `WaitEmpty` on a full buffer, and the consumer sleeps
on the missing packet of the head. -/
def Stalled (s : Radio) : Prop :=
  isFull s.buf ∧ (∃ p, (s.prod p).asleep) ∧
    ∃ i, s.cons = .waitElement i false ∧ OnHole s.buf i

/-- The step is the section of a full buffer, and the slot of the head is
empty, so that nothing is dropped. -/
def sleepsOnEmptyHead (s : Radio) : Label → Bool
  | .prod p _ =>
    match s.prod p with
    | .start _ | .waitEmpty _ _ =>
      isFull s.buf && decide ((s.buf.book_keep_arr (headPtMod s.buf)).status = .kEmpty)
    | _ => false
  | _ => false

/-- The step fills the window over a missing head, and the other producer is
asleep since an earlier full buffer. -/
def refillsOverSleeper (s : Radio) : Label → Bool
  | .prod p _ =>
    match s.prod p with
    | .clearing q i =>
      decide (q ≤ i) && isFull { s.buf with tail_pt := q } && (s.prod p.other).asleep &&
        headMissing s.buf
    | _ => false
  | _ => false

/-- No producer goes to sleep on an empty head, and none fills the window over
a missing head while the other one sleeps. -/
def NoSleepOnHole (_ : List Event) (s : Radio) (l : Label) : Prop :=
  sleepsOnEmptyHead s l = false ∧ refillsOverSleeper s l = false

instance (tr : List Event) (s : Radio) (l : Label) : Decidable (NoSleepOnHole tr s l) :=
  inferInstanceAs (Decidable (_ ∧ _))

theorem sleepsOnEmptyHead_eq {s : Radio} {p : Producer} {c : EnqueueArgs} (pick : Pick)
    (h : Entering s p c) : sleepsOnEmptyHead s (.prod p pick) =
      (isFull s.buf && decide ((s.buf.book_keep_arr (headPtMod s.buf)).status = .kEmpty)) := by
  rcases h with h | ⟨b, h⟩ <;> simp [sleepsOnEmptyHead, h]

theorem refillsOverSleeper_eq {s : Radio} {p : Producer} {q i : Nat} (pick : Pick)
    (h : s.prod p = .clearing q i) : refillsOverSleeper s (.prod p pick) =
      (decide (q ≤ i) && isFull { s.buf with tail_pt := q } && (s.prod p.other).asleep &&
        headMissing s.buf) := by
  simp [refillsOverSleeper, h]

/-! ## The invariant -/

/-- Over a full buffer with a sleeping producer the head packet is there, or
it is given up: the consumer will move the head. -/
def HeadMoves (s : Radio) : Prop :=
  isFull s.buf → ∀ p, (s.prod p).asleep → headMissing s.buf = false

theorem eq_other_of_ne {p r : Producer} (h : r ≠ p) : r = p.other := by
  cases p <;> cases r <;> first | rfl | exact absurd rfl h

theorem asleep_of_setProd {s : Radio} {p r : Producer} {pc : ProducerPc} (hpc : ¬pc.asleep)
    (h : ((setProd s p pc).prod r).asleep) : (s.prod r).asleep := by
  by_cases hr : r = p
  · subst hr
    rw [setProd_self] at h
    exact absurd h hpc
  · rwa [setProd_ne _ _ _ hr] at h

/-- Nobody falls asleep, and the head and its slot stay. -/
theorem HeadMoves.same {s t : Radio} (h : HeadMoves s) (hb : t.buf = s.buf)
    (hp : ∀ p, (t.prod p).asleep → (s.prod p).asleep) : HeadMoves t := by
  intro hf p hs
  rw [hb] at hf ⊢
  exact h hf p (hp p hs)

theorem headMoves_of_notFull {s : Radio} (h : ¬isFull s.buf) : HeadMoves s :=
  fun hf => absurd hf h

/-- The section of a full buffer leaves no missing head, unless the slot of
the head was empty. -/
theorem fullDrop_head_there {b : RxDataBuf}
    (hne : (b.book_keep_arr (headPtMod b)).status ≠ .kEmpty) :
    headMissing (fullDrop b) = false := by
  unfold headMissing isHole
  rw [headPtMod, fullDrop_head]
  change isHole ((fullDrop b).book_keep_arr (headPtMod b)) = false
  unfold fullDrop
  split
  · simp [setStatus, isHole]
  · rename_i hb
    simp [isHole, hne, hb]

theorem isFull_congr {b b' : RxDataBuf} (hh : b'.head_pt = b.head_pt)
    (ht : b'.tail_pt = b.tail_pt) : isFull b' = isFull b := by simp [isFull, hh, ht]

/-! ## Every guarded step keeps it -/

theorem prod_headMoves {cfg : Config} {s t : Radio} {p : Producer} {pick : Pick}
    {tr out : List Event} (hok : NoSleepOnHole tr s (.prod p pick)) (hcore : Core s)
    (htcore : Core t)
    (m : Move cfg s (.prod p pick) t out) : HeadMoves t := by
  cases m with
  | full hent hq hf he =>
    intro _ _ _
    rw [setProd_buf, signalElementAvail_buf]
    refine fullDrop_head_there fun hempty => ?_
    have hno := hok.1
    rw [sleepsOnEmptyHead_eq pick hent] at hno
    simp [hf, hempty] at hno
  | @wrap _ c _ hent hq hf hs he hw =>
    apply headMoves_of_notFull
    rw [htcore.isFull_iff]
    have hN : 1 < BUF_SIZE := by decide
    have hsub : sub32 c.seq_num 1 = c.seq_num - 1 := sub32_of_le (by omega) c.seq_lt
    simp only [setProd_buf, signalEmpty_buf, signalFill_buf, signalElementAvail_buf]
    change c.seq_num ≠ sub32 c.seq_num 1 + BUF_SIZE
    omega
  | @store _ c _ hent hq hf hs he hw =>
    apply headMoves_of_notFull
    rwa [enqueueStore_buf, isFull_congr (store_head _ _) (store_tail _ _)]
  | stale hent hq hf hs ht => exact headMoves_of_notFull hf
  | staleTail hent hq hf hs ht => exact headMoves_of_notFull hf
  | @clear _ q i _ hp hi he =>
    apply headMoves_of_notFull
    obtain ⟨-, -, htq, hqw, -⟩ := hcore.clearing p q i hp
    rw [setProd_buf, isFull_congr (clearRead_head _ _) (clearRead_tail _ _), hcore.isFull_iff]
    omega
  | @finish _ q i _ hp hi =>
    intro hf r hr
    simp only [setProd_buf, signalFill_buf] at hf ⊢
    have hr' : (s.prod r).asleep := by
      have := asleep_of_setProd (by nofun) hr
      rwa [signalFill_prod] at this
    have hrp : r ≠ p := by
      rintro rfl
      rw [hp] at hr'
      cases hr'
    have hno := hok.2
    rw [refillsOverSleeper_eq pick hp, ← eq_other_of_ne hrp] at hno
    simp only [hi, hf, hr', decide_true, Bool.and_self, Bool.true_and] at hno
    exact hno

theorem cons_headMoves {cfg : Config} {s t : Radio} {pick : Pick} {out : List Event}
    (hcore : Core s) (htcore : Core t) (h : HeadMoves s) (m : Move cfg s (.cons pick) t out) :
    HeadMoves t := by
  have passed : ∀ b : RxDataBuf, s.cons.busy → t.buf = b → b.head_pt = add32 s.buf.head_pt 1 →
      b.tail_pt = s.buf.tail_pt → HeadMoves t := by
    intro b hbusy hb hh ht
    apply headMoves_of_notFull
    have hlt := hcore.busy hbusy
    have hw := hcore.window
    have htl := hcore.tail_lt
    have hadd : add32 s.buf.head_pt 1 = s.buf.head_pt + 1 := add32_of_lt (by omega)
    rw [htcore.isFull_iff, hb]
    omega
  cases m with
  | sleepFill hc hq he => exact h
  | top hc hq he => exact h.same (signalFill_buf _ _) (by simp)
  | @block i _ hc hk =>
    intro hf p hs
    have hmiss := h hf p hs
    have hi := hcore.atHead i hc
    rw [headMissing, ← hi, isHole, hk] at hmiss
    cases hmiss
  | blocked hc hk => exact h
  | @deliver i _ hc hk =>
    exact passed (deliver s.buf i) (by simp [hc, ConsumerPc.busy]) rfl rfl rfl
  | @giveUp i _ hc hk =>
    exact passed (giveUp s.buf i) (by simp [hc, ConsumerPc.busy]) rfl rfl rfl
  | sleep hc => exact h
  | wake hc => exact h
  | relock hc hq => exact h

/-- A dropped slot is no hole. -/
theorem HeadMoves.drop {s : Radio} (h : HeadMoves s) (i : Slot) (q : Nat) {a : AckPc} :
    HeadMoves (signalElementAvail { s with buf := nackDrop s.buf i q, ack := a }) := by
  intro hf p hs
  simp only [signalElementAvail_buf, signalElementAvail_prod] at hf hs ⊢
  have hmiss := h hf p hs
  change isHole ((nackDrop s.buf i q).book_keep_arr (headPtMod s.buf)) = false
  by_cases hi : headPtMod s.buf = i
  · simp [nackDrop, hi, isHole]
  · rw [nackDrop, setSlot_ne _ _ _ hi]
    exact hmiss

theorem ack_headMoves {cfg : Config} {s t : Radio} {out : List Event}
    (h : HeadMoves s) (m : Move cfg s .ack t out) : HeadMoves t := by
  cases m with
  | ackWoken ha hq => exact h.same (signalFill_buf _ _) (by simp)
  | scanDrop ha hi he hh ho => exact h.drop _ _
  | overflowDrop ha he => exact h.drop _ _
  | _ => exact h

theorem move_headMoves {cfg : Config} {s t : Radio} {l : Label} {tr out : List Event}
    (hok : NoSleepOnHole tr s l) (hcore : Core s) (h : HeadMoves s) (m : Move cfg s l t out) :
    HeadMoves t := by
  have htcore := move_core hcore m
  cases l with
  | call p c =>
    cases m
    exact h.same rfl (fun r hr => asleep_of_setProd (by nofun) hr)
  | prod p pick => exact prod_headMoves hok hcore htcore m
  | cons pick => exact cons_headMoves hcore htcore h m
  | ack => exact ack_headMoves h m
  | setBatchInfo => cases m; exact h
  | updateTimeLeft => cases m; exact h
  | setDecodingDone => cases m; exact h
  | tick us => cases m; exact h

theorem fresh_headMoves {s : Radio} (h : s.Fresh) : HeadMoves s := by
  obtain ⟨-, -, -, hp, -, -⟩ := h
  intro _ p hs
  rw [hp p] at hs
  cases hs

theorem run_headMoves {cfg : Config} {s : Radio} {tr : List Event}
    (r : Run (radio cfg) NoSleepOnHole s tr) : HeadMoves s :=
  r.invariant (fun s _ => HeadMoves s) (fun _ h0 => fresh_headMoves h0)
    (fun _ _ _ _ _ r h hok hs =>
      move_headMoves hok (the_tail_stays_in_the_window r) h (step_move hs))

/-- When no producer sleeps over a hole at the head, a full buffer never stalls. -/
theorem a_full_buffer_never_stalls {cfg : Config} {s : Radio} {tr : List Event}
    (r : Run (radio cfg) NoSleepOnHole s tr) : ¬Stalled s := by
  rintro ⟨hf, ⟨p, hp⟩, i, -, hi, hblock⟩
  have hmiss := run_headMoves r hf p hp
  rw [headMissing, ← hi, isHole, hblock] at hmiss
  cases hmiss

/-! ## Runs -/

theorem setProd_setProd (s : Radio) (p : Producer) (a b : ProducerPc) :
    setProd (setProd s p a) p b = setProd s p b := by
  simp [setProd]

/-- The loop over the tail, on slots that were never read. -/
theorem run_clear_loop {cfg : Config} {ok : List Event → Radio → Label → Prop} {s : Radio}
    {p : Producer} {q i : Nat} {tr : List Event} (pick : Pick) (hq : q < 2 ^ 32)
    (halive : s.ack ≠ .aborted) (hfree : ∀ j, elementFree s j)
    (hread : ∀ j, (s.buf.book_keep_arr j).status ≠ .kRead)
    (hok : ∀ i, i < q → ok tr (setProd s p (.clearing q i)) (.prod p pick))
    (r : Run (radio cfg) ok (setProd s p (.clearing q i)) tr) (n : Nat) (hn : i + n ≤ q) :
    Run (radio cfg) ok (setProd s p (.clearing q (i + n))) tr := by
  induction n with
  | zero => exact r
  | succ n ih =>
    have hclear : clearRead s.buf (indMod (i + n)) = s.buf := by
      unfold clearRead
      rw [if_neg (hread _)]
    have hfree' : elementFree (setProd s p (.clearing q (i + n))) (indMod (i + n)) := hfree _
    have hstep : (radio cfg).step (setProd s p (.clearing q (i + n))) (.prod p pick) =
        some (setProd s p (.clearing q (i + n + 1)), []) := by
      simp only [radio, step, setProd_ack, halive, if_false, stepProducer, setProd_self]
      rw [if_pos (by omega), if_pos hfree', add32_of_lt (by omega)]
      simp only [setProd_buf, hclear, Option.some.injEq, Prod.mk.injEq, and_true]
      exact setProd_setProd s p _ _
    rw [← List.append_nil tr]
    exact (ih (by omega)).next (hok _ (by omega)) hstep

theorem store_unread {b : RxDataBuf} (h : ∀ j, (b.book_keep_arr j).status ≠ .kRead)
    (c : EnqueueArgs) (j : Slot) : ((store b c).book_keep_arr j).status ≠ .kRead := by
  by_cases hj : j = seq2Ind c.seq_num
  · rw [hj, store_status]
    nofun
  · rw [store_ne _ _ hj]
    exact h j

def pkt1 : EnqueueArgs := onePkt 1 6

def pkt5000 : EnqueueArgs := onePkt 5000 7

theorem atStart_unread (j : Slot) : (Radio.atStart.buf.book_keep_arr j).status ≠ .kRead := nofun

/-- A call for packet 1. -/
def firstLabels : List Label :=
  [.call .rcvAth pkt1, .prod .rcvAth .ath, .prod .rcvAth .ath, .prod .rcvAth .ath]

/-- The end of the call for packet 5000, and a call for packet 5001. -/
def fillLabels : List Label :=
  [.prod .rcvAth .ath, .call .rcvAth (onePkt 5001 8), .prod .rcvAth .ath]

/-- Packet 5000 is stored, without packet 1 and behind it. -/
def lastStored : Radio :=
  { Radio.atStart with buf := store Radio.atStart.buf pkt5000 }

def bothStored : Radio :=
  { Radio.atStart with buf := store { store Radio.atStart.buf pkt1 with tail_pt := 1 } pkt5000 }

/-- Packet 1 is there, and the window is full: the producer of packet 5001
sleeps, and the buffer has not stalled. -/
theorem a_full_buffer_waits_for_its_consumer :
    ∃ s tr, Run (radio ⟨25, 500⟩) NoSleepOnHole s tr ∧ isFull s.buf ∧ (s.prod .rcvAth).asleep ∧
      ¬Stalled s := by
  have h1 : exec (radio ⟨25, 500⟩) Radio.atStart
      (firstLabels ++ [.call .rcvAth pkt5000, .prod .rcvAth .ath]) =
      some (setProd (setProd (setProd (setProd (setProd (setProd bothStored .rcvAth
        (.start pkt1)) .rcvAth (.clearing 1 0)) .rcvAth (.clearing 1 1)) .rcvAth .idle) .rcvAth
        (.start pkt5000)) .rcvAth (.clearing 5000 1),
        [.enqueued 1 [6], .enqueued 5000 [7]]) := rfl
  simp only [setProd_setProd] at h1
  have hok : ExecOk (radio ⟨25, 500⟩) NoSleepOnHole [] Radio.atStart
      (firstLabels ++ [.call .rcvAth pkt5000, .prod .rcvAth .ath]) := by decide +kernel
  have r1 := run_clear_loop (s := bothStored) .ath (by decide) (by nofun) (fun _ => rfl)
    (store_unread (store_unread atStart_unread pkt1) pkt5000) ?_
    (run_of_exec_ok atStart_fresh hok h1) 4999 (by decide)
  · have hok2 : ExecOk (radio ⟨25, 500⟩) NoSleepOnHole [.enqueued 1 [6], .enqueued 5000 [7]]
        (setProd bothStored .rcvAth (.clearing 5000 (1 + 4999))) fillLabels := by decide +kernel
    have h2 : (exec (radio ⟨25, 500⟩) (setProd bothStored .rcvAth (.clearing 5000 (1 + 4999)))
        fillLabels).any (fun x => isFull x.1.buf && (x.1.prod .rcvAth).asleep) = true := by
      decide +kernel
    obtain ⟨⟨u, tr⟩, h2, hs⟩ := (Option.any_eq_true _ _).mp h2
    obtain ⟨hf, ha⟩ := Bool.and_eq_true_iff.mp hs
    have r2 := r1.exec hok2 h2
    exact ⟨u, _, r2, hf, ha, a_full_buffer_never_stalls r2⟩
  · intro i hi
    refine ⟨rfl, ?_⟩
    rw [refillsOverSleeper_eq _ (setProd_self _ _ _)]
    simp [Nat.not_le.mpr hi]

/-- The window is full and packet 1 is missing: the producer of packet 5001
sleeps, and the consumer blocks on packet 1. -/
theorem a_full_buffer_can_stall :
    ¬∀ (cfg : Config) (s : Radio) (tr : List Event), Run (radio cfg) anyStep s tr →
      ¬Stalled s := by
  intro hall
  have h1 : exec (radio ⟨25, 500⟩) Radio.atStart [.call .rcvAth pkt5000, .prod .rcvAth .ath] =
      some (setProd (setProd lastStored .rcvAth (.start pkt5000)) .rcvAth (.clearing 5000 0),
        [.enqueued 5000 [7]]) := rfl
  rw [setProd_setProd] at h1
  have r1 := run_clear_loop (s := lastStored) .ath (by decide) (by nofun) (fun _ => rfl)
    (store_unread atStart_unread pkt5000) (fun _ _ => trivial) (run_of_exec atStart_fresh h1)
    5000 (by decide)
  have h2 : (exec (radio ⟨25, 500⟩) (setProd lastStored .rcvAth (.clearing 5000 (0 + 5000)))
      (fillLabels ++ [.cons .ath, .cons .ath, .cons .ath])).any (fun x =>
        decide (isFull x.1.buf ∧ (x.1.prod .rcvAth).asleep ∧
          x.1.cons = .waitElement (indMod 0) false ∧ OnHole x.1.buf (indMod 0))) = true := by
    decide +kernel
  obtain ⟨⟨u, tr⟩, h2, hs⟩ := (Option.any_eq_true _ _).mp h2
  obtain ⟨hf, ha, hc, hole⟩ := of_decide_eq_true hs
  exact hall _ u _ (r1.exec (execOk_any _ _ _) h2) ⟨hf, ⟨_, ha⟩, _, hc, hole⟩

end wspace_client.threads

-- The locks of a radio. A thread that holds one releases it after a bounded
-- number of its own steps, and needs nothing of a thread that waits for it, so
-- no thread is stuck on `qlock_` or on the lock of a slot.
import WspaceClient.NackList
import WspaceClient.Snapshots

namespace wspace_client.threads

open machine rx_data_buf

/-! ## The holders -/

/-- A thread around the buffer. -/
inductive Thread
  | prod (p : Producer)
  | cons
  | ack
  deriving DecidableEq

/-- The step of the thread. -/
def Thread.label (pick : Pick) : Thread → Label
  | .prod p => .prod p pick
  | .cons => .cons pick
  | .ack => .ack

/-- Between its steps the thread holds `qlock_` or the lock of a slot. -/
def holds (s : Radio) : Thread → Bool
  | .prod p => (s.prod p).holdsQueue
  | .cons => match s.cons with
    | .lockElement _ | .beforeWait _ => true
    | _ => false
  | .ack => false

/-- The thread is in a call. The consumer and the acknowledgement thread always
make their next one. -/
def inCall (s : Radio) : Thread → Bool
  | .prod p => match s.prod p with
    | .idle => false
    | _ => true
  | .cons => true
  | .ack => true

/-- A thread makes the step while it holds a lock, and it is not `x`. -/
def HolderBut (x : Option Thread) (_ : List Event) (s : Radio) (l : Label) : Prop :=
  ∃ y pick, some y ≠ x ∧ holds s y = true ∧ l = y.label pick

/-! ## How long the locks are kept -/

def ConsumerPc.lockTurns : ConsumerPc → Nat
  | .lockElement _ => 2
  | .beforeWait _ => 1
  | _ => 0

def ProducerPc.lockTurns : ProducerPc → Nat
  | .clearing seq_num index => seq_num - index + 1
  | _ => 0

/-- The steps that the holders make at most until every lock is free. -/
def lockTurns (s : Radio) : Nat :=
  s.cons.lockTurns + ((s.prod .rcvAth).lockTurns + (s.prod .rcvCell).lockTurns)

/-- The radio runs, with its pointers in order. -/
def Live (s : Radio) : Prop := Core s ∧ s.ack ≠ .aborted

theorem lockTurns_prod (pc : ProducerPc) : pc.holdsQueue = false ↔ pc.lockTurns = 0 := by
  cases pc <;> simp [ProducerPc.holdsQueue, ProducerPc.lockTurns]

theorem lockTurns_cons (s : Radio) : holds s .cons = false ↔ s.cons.lockTurns = 0 := by
  unfold holds
  cases s.cons <;> simp [ConsumerPc.lockTurns]

/-- No lock is held once no holder has a step to make. -/
theorem free_of_lockTurns {s : Radio} (h : lockTurns s = 0) : queueFree s ∧ ElementsFree s := by
  unfold lockTurns at h
  have hcons : s.cons.lockTurns = 0 := by omega
  constructor
  · rw [queueFree_iff]
    refine ⟨?_, fun p => ?_⟩
    · cases hc : s.cons <;> simp [hc, ConsumerPc.lockTurns, ConsumerPc.holdsQueue] at hcons ⊢
    · rw [lockTurns_prod]
      cases p <;> omega
  · intro i hi
    rw [hi] at hcons
    cases hcons

/-- A producer in the loop over the tail is the only one, and its loop is short. -/
theorem Core.clearing_turns {s : Radio} (h : Core s) {p : Producer} {q i : Nat}
    (hp : s.prod p = .clearing q i) :
    s.cons.lockTurns ≤ 1 ∧ (s.prod p.other).lockTurns = 0 ∧ q - i ≤ BUF_SIZE := by
  obtain ⟨hti, -, -, hqw, -⟩ := h.clearing p q i hp
  obtain ⟨hc, ho⟩ := h.owner p q i hp
  have hord := h.order
  refine ⟨?_, ?_, by omega⟩
  · cases hcs : s.cons <;> simp [hcs, ConsumerPc.lockTurns, ConsumerPc.holdsQueue] at hc ⊢
  · rw [← lockTurns_prod]
    exact ho _ (by cases p <;> simp [Producer.other])

theorem Core.lockTurns_le {s : Radio} (h : Core s) : lockTurns s ≤ BUF_SIZE + 2 := by
  unfold lockTurns
  have hcons : s.cons.lockTurns ≤ 2 := by cases s.cons <;> simp [ConsumerPc.lockTurns]
  cases ha : s.prod .rcvAth with
  | clearing q i =>
    obtain ⟨h1, h2, h3⟩ := h.clearing_turns ha
    have hturns : (ProducerPc.clearing q i).lockTurns = q - i + 1 := rfl
    simp only [Producer.other] at h2
    omega
  | _ =>
    cases hr : s.prod .rcvCell with
    | clearing q i =>
      obtain ⟨h1, h2, h3⟩ := h.clearing_turns hr
      simp only [ProducerPc.lockTurns]
      omega
    | _ =>
      simp only [ProducerPc.lockTurns]
      omega

/-! ## The holders lower it -/

theorem lockTurns_setProd (s : Radio) (p : Producer) (pc : ProducerPc) :
    lockTurns (setProd s p pc) + (s.prod p).lockTurns = lockTurns s + pc.lockTurns := by
  unfold lockTurns
  cases p <;> simp [setProd] <;> omega

/-- A signal wakes a thread that holds no lock. -/
theorem lockTurns_signalEmpty (s : Radio) (pick : Pick) :
    lockTurns (signalEmpty s pick) = lockTurns s := by
  have hp : ∀ r, ((signalEmpty s pick).prod r).lockTurns = (s.prod r).lockTurns := by
    intro r
    rcases signalEmpty_prod s pick r with he | ⟨c, b, h1, h2⟩
    · rw [he]
    · rw [h1, h2]
      rfl
  unfold lockTurns
  rw [hp, hp, signalEmpty_cons]

theorem lockTurns_signalFill (s : Radio) (pick : Pick) :
    lockTurns (signalFill s pick) = lockTurns s := by
  rcases signalFill_cases s pick with he | ⟨-, he⟩ | ⟨hc, he⟩
  · rw [he]
  · rw [he]
    rfl
  · rw [he]
    unfold lockTurns
    rw [hc]
    rfl

theorem prod_lockTurns {cfg : Config} {s t : Radio} {p : Producer} {pick : Pick}
    {out : List Event} (hcore : Core s) (hh : (s.prod p).holdsQueue = true)
    (m : Move cfg s (.prod p pick) t out) : lockTurns t < lockTurns s := by
  have hent : ∀ c, ¬Entering s p c := by
    rintro c (h | ⟨b, h⟩) <;> rw [h] at hh <;> cases hh
  cases m with
  | full h | wrap h | store h | stale h | staleTail h => exact absurd h (hent _)
  | @clear _ q i _ h hi he =>
    obtain ⟨-, -, -, -, hql⟩ := hcore.clearing p q i h
    have hset := lockTurns_setProd { s with buf := clearRead s.buf (indMod i) } p
      (.clearing q (add32 i 1))
    rw [add32_of_lt (show i + 1 < 2 ^ 32 by omega)] at hset ⊢
    simp only [h, ProducerPc.lockTurns] at hset
    change _ = lockTurns s + _ at hset
    omega
  | @finish _ q i _ h hi =>
    have hset := lockTurns_setProd (signalFill { s with buf := { s.buf with tail_pt := q } } pick)
      p .idle
    rw [lockTurns_signalFill, signalFill_prod] at hset
    simp only [h, ProducerPc.lockTurns] at hset
    change _ = lockTurns s + _ at hset
    refine Nat.lt_of_lt_of_le (Nat.lt_add_of_pos_right (Nat.succ_pos (q - i))) ?_
    exact Nat.le_of_eq hset

theorem cons_lockTurns {cfg : Config} {s t : Radio} {pick : Pick} {out : List Event}
    (hh : holds s .cons = true) (m : Move cfg s (.cons pick) t out) :
    lockTurns t < lockTurns s := by
  have hcons : ∀ {pc : ConsumerPc}, s.cons = pc → holds s .cons = false → False := by
    intro pc _ hno
    rw [hh] at hno
    cases hno
  cases m with
  | sleepFill h => rcases h with h | ⟨b, h⟩ <;> exact (hcons h (by simp [holds, h])).elim
  | top h => rcases h with h | ⟨b, h⟩ <;> exact (hcons h (by simp [holds, h])).elim
  | wake h | relock h => exact (hcons h (by simp [holds, h])).elim
  | block h | blocked h | sleep h =>
    unfold lockTurns
    rw [h]
    simp [ConsumerPc.lockTurns]
  | deliver h | giveUp h =>
    rw [lockTurns_signalEmpty]
    unfold lockTurns
    rw [h]
    simp [ConsumerPc.lockTurns]

/-- A step of a holder keeps the radio alive, and brings it nearer to free locks. -/
theorem holder_step {cfg : Config} {x : Option Thread} {s t : Radio} {l : Label}
    {tr out : List Event} (h : Live s) (hl : HolderBut x tr s l)
    (hs : step cfg s l = some (t, out)) : Live t ∧ lockTurns t < lockTurns s := by
  obtain ⟨hcore, halive⟩ := h
  obtain ⟨y, pick, -, hh, rfl⟩ := hl
  have m := step_move hs
  have hack : y.label pick ≠ .ack := by
    rintro hy
    cases y <;> cases hy
    cases hh
  refine ⟨⟨move_core hcore m, ?_⟩, ?_⟩
  · rcases m.ack_eq hack with he | ⟨-, he⟩ <;> rw [he]
    · exact halive
    · nofun
  · cases y with
    | prod p => exact prod_lockTurns hcore hh m
    | cons => exact cons_lockTurns hh m
    | ack => cases hh

/-! ## A step that the locks do not stop -/

/-- The consumer takes its step while it holds a lock. -/
theorem cons_goes (cfg : Config) {s : Radio} (halive : s.ack ≠ .aborted)
    (hh : holds s .cons = true) (pick : Pick) :
    ∃ t out, step cfg s (.cons pick) = some (t, out) := by
  have hstep : step cfg s (.cons pick) = stepConsumer s pick := if_neg halive
  rw [hstep]
  unfold stepConsumer
  cases hc : s.cons with
  | lockElement i => exact ⟨_, _, rfl⟩
  | beforeWait i => exact ⟨_, _, rfl⟩
  | _ => simp [holds, hc] at hh

/-- The loop over the tail goes on while the consumer keeps no slot. -/
theorem clearing_goes (cfg : Config) {s : Radio} {p : Producer} (halive : s.ack ≠ .aborted)
    (hh : (s.prod p).holdsQueue = true) (hfree : ElementsFree s) (pick : Pick) :
    ∃ t out, step cfg s (.prod p pick) = some (t, out) := by
  have hstep : step cfg s (.prod p pick) = stepProducer s p pick := if_neg halive
  rw [hstep]
  unfold stepProducer
  cases hp : s.prod p with
  | clearing q i =>
    dsimp only
    rw [if_pos (hfree.free _)]
    split <;> exact ⟨_, _, rfl⟩
  | _ => simp [hp, ProducerPc.holdsQueue] at hh

theorem elementsFree_of_not_holds {s : Radio} (h : holds s .cons = false) : ElementsFree s := by
  intro i hi
  simp [holds, hi] at h

/-- As long as a lock is held, one of the holders can make its step. -/
theorem holder_goes (cfg : Config) {s : Radio} (h : Live s) (hpos : 0 < lockTurns s) :
    ∃ y t out, holds s y = true ∧ step cfg s (y.label .ath) = some (t, out) := by
  by_cases hc : holds s .cons = true
  · obtain ⟨t, out, hs⟩ := cons_goes cfg h.2 hc .ath
    exact ⟨.cons, t, out, hc, hs⟩
  · rw [Bool.not_eq_true] at hc
    have hex : ∃ p, (s.prod p).holdsQueue = true := by
      by_contra hno
      push Not at hno
      have hzero : ∀ p, (s.prod p).lockTurns = 0 := fun p =>
        (lockTurns_prod _).mp (Bool.not_eq_true _ ▸ hno p)
      rw [lockTurns_cons] at hc
      unfold lockTurns at hpos
      rw [hc, hzero, hzero] at hpos
      exact absurd hpos (Nat.lt_irrefl 0)
    obtain ⟨p, hp⟩ := hex
    obtain ⟨t, out, hs⟩ := clearing_goes cfg h.2 hp (elementsFree_of_not_holds hc) .ath
    exact ⟨.prod p, t, out, hp, hs⟩

theorem entering_of_inCall {s : Radio} {p : Producer} (hin : inCall s (.prod p) = true)
    (hh : holds s (.prod p) = false) : ∃ c, Entering s p c := by
  unfold inCall at hin
  cases hp : s.prod p with
  | idle => simp [hp] at hin
  | start c => exact ⟨c, .inl hp⟩
  | waitEmpty c b => exact ⟨c, .inr ⟨b, hp⟩⟩
  | clearing q i => simp [holds, hp, ProducerPc.holdsQueue] at hh

/-- A call that waits for `qlock_` goes on when every lock is free. -/
theorem entering_goes {cfg : Config} {s : Radio} {p : Producer} {c : EnqueueArgs}
    (halive : s.ack ≠ .aborted) (hq : queueFree s) (hfree : ElementsFree s) (hent : Entering s p c)
    (pick : Pick) : ∃ t out, step cfg s (.prod p pick) = some (t, out) := by
  have hstep : step cfg s (.prod p pick) = stepProducer s p pick := if_neg halive
  rw [hstep, hent.step hq]
  unfold enqueue enqueueFull
  rw [if_pos (hfree.free _), if_pos (hfree.free _)]
  split
  · exact ⟨_, _, rfl⟩
  · split <;> split <;> exact ⟨_, _, rfl⟩

theorem cons_free_goes {cfg : Config} {s : Radio} (halive : s.ack ≠ .aborted) (hq : queueFree s)
    (pick : Pick) : ∃ t out, step cfg s (.cons pick) = some (t, out) := by
  have hstep : step cfg s (.cons pick) = stepConsumer s pick := if_neg halive
  rw [hstep]
  unfold stepConsumer
  cases hc : s.cons with
  | idle | waitFill =>
    dsimp only
    rw [if_pos hq]
    split <;> exact ⟨_, _, rfl⟩
  | woken =>
    dsimp only
    rw [if_pos hq]
    exact ⟨_, _, rfl⟩
  | lockElement | beforeWait | waitElement => exact ⟨_, _, rfl⟩

theorem ack_free_goes {cfg : Config} {s : Radio} (halive : s.ack ≠ .aborted) (hq : queueFree s)
    (hfree : ElementsFree s) : ∃ t out, step cfg s .ack = some (t, out) := by
  have hstep : step cfg s .ack = stepAck cfg s := if_neg halive
  rw [hstep]
  unfold stepAck
  cases ha : s.ack with
  | aborted => exact absurd ha halive
  | idle | gotPointers | gotBatchInfo => exact ⟨_, _, rfl⟩
  | gotBatchID =>
    dsimp only
    rw [if_pos hq]
    split <;> exact ⟨_, _, rfl⟩
  | waitFill =>
    dsimp only
    rw [if_pos hq]
    exact ⟨_, _, rfl⟩
  | atAssert =>
    dsimp only
    split <;> exact ⟨_, _, rfl⟩
  | scan =>
    dsimp only
    rw [if_pos (hfree.free _)]
    split <;> exact ⟨_, _, rfl⟩
  | extra =>
    dsimp only
    split
    · exact ⟨_, _, rfl⟩
    · split <;> exact ⟨_, _, rfl⟩
  | overflow rest =>
    cases rest with
    | nil => exact ⟨_, _, rfl⟩
    | cons q rest =>
      dsimp only
      rw [if_pos (hfree.free _)]
      exact ⟨_, _, rfl⟩

/-! ## The wait for a lock -/

/-- The thread is in a call and holds no lock, so it can only wait for one. -/
structure Outside (x : Thread) (s : Radio) : Prop where
  holds : holds s x = false
  entering : ∀ p, x = .prod p → ∃ c, Entering s p c

theorem outside_of_inCall {s : Radio} {x : Thread} (hin : inCall s x = true)
    (hh : holds s x = false) : Outside x s := by
  refine ⟨hh, ?_⟩
  rintro p rfl
  exact entering_of_inCall hin hh

/-- The loop over the tail takes no lock for the consumer. -/
theorem cons_holds_of_prod {cfg : Config} {s t : Radio} {p : Producer} {pick : Pick}
    {out : List Event} (hh : (s.prod p).holdsQueue = true)
    (m : Move cfg s (.prod p pick) t out) : holds t .cons = holds s .cons := by
  have hent : ∀ c, ¬Entering s p c := by
    rintro c (h | ⟨b, h⟩) <;> rw [h] at hh <;> cases hh
  cases m with
  | full h | wrap h | store h | stale h | staleTail h => exact absurd h (hent _)
  | clear => rfl
  | @finish _ q i _ h hi =>
    unfold holds
    rw [setProd_cons]
    rcases signalFill_cases { s with buf := { s.buf with tail_pt := q } } pick with
      he | ⟨-, he⟩ | ⟨hc, he⟩
    · rw [he]
    · rw [he]
    · rw [he]
      simp only at hc
      rw [hc]

/-- The holders leave a waiting thread where it is. -/
theorem Outside.step {cfg : Config} {x : Thread} {s t : Radio} {l : Label} {tr out : List Event}
    (h : Outside x s) (hl : HolderBut (some x) tr s l) (hs : step cfg s l = some (t, out)) :
    Outside x t := by
  obtain ⟨y, pick, hne, hh, rfl⟩ := hl
  have hyx : y ≠ x := fun he => hne (by rw [he])
  have m := step_move hs
  have hent : ∀ p, x = .prod p → ∃ c, Entering t p c := by
    rintro p rfl
    obtain ⟨c, hc⟩ := h.entering p rfl
    refine ⟨c, hc.others (fun pick' hp => hyx ?_) m⟩
    cases y <;> cases hp
    rfl
  refine ⟨?_, hent⟩
  cases x with
  | prod p =>
    obtain ⟨c, hc⟩ := hent p rfl
    rcases hc with hc | ⟨b, hc⟩ <;> simp [threads.holds, hc, ProducerPc.holdsQueue]
  | cons =>
    cases y with
    | prod p =>
      rw [cons_holds_of_prod hh m]
      exact h.holds
    | cons => exact absurd rfl hyx
    | ack => cases hh
  | ack => rfl

/-- A waiting thread makes its step after some steps of the holders. -/
theorem Outside.goes {cfg : Config} {x : Thread} {s : Radio} (hlive : Live s) (h : Outside x s)
    (pick : Pick) : ∃ ls t out u out', ExecOk (radio cfg) (HolderBut (some x)) [] s ls ∧
      exec (radio cfg) s ls = some (t, out) ∧
      threads.step cfg t (x.label pick) = some (u, out') := by
  have hkeep : ∀ tr s l t out, (Live s ∧ Outside x s) → HolderBut (some x) tr s l →
      (radio cfg).step s l = some (t, out) →
      (Live t ∧ Outside x t) ∧ lockTurns t < lockTurns s := by
    intro tr s l t out hI hl hs
    obtain ⟨hlive, hlt⟩ := holder_step hI.1 hl hs
    exact ⟨⟨hlive, hI.2.step hl hs⟩, hlt⟩
  have hgo : ∀ tr s, (Live s ∧ Outside x s) → 0 < lockTurns s →
      ∃ l t out, HolderBut (some x) tr s l ∧ (radio cfg).step s l = some (t, out) := by
    intro tr s hI hpos
    obtain ⟨y, t, out, hh, hs⟩ := holder_goes cfg hI.1 hpos
    refine ⟨_, t, out, ⟨y, .ath, ?_, hh, rfl⟩, hs⟩
    rintro hyx
    cases hyx
    rw [hI.2.holds] at hh
    cases hh
  obtain ⟨ls, t, out, he, hok, ⟨hlive', hout⟩, hz⟩ :=
    exec_drains (fun s => Live s ∧ Outside x s) lockTurns hkeep hgo [] ⟨hlive, h⟩
  obtain ⟨hq, hfree⟩ := free_of_lockTurns hz
  have hstep : ∃ u out', threads.step cfg t (x.label pick) = some (u, out') := by
    cases x with
    | prod p =>
      obtain ⟨c, hc⟩ := hout.entering p rfl
      exact entering_goes hlive'.2 hq hfree hc pick
    | cons => exact cons_free_goes hlive'.2 hq pick
    | ack => exact ack_free_goes hlive'.2 hq hfree
  obtain ⟨u, out', hs⟩ := hstep
  exact ⟨ls, t, out, u, out', hok, he, hs⟩

/-- A producer in its loop over the tail goes on, once the consumer is asleep if
that one keeps a slot. -/
theorem clearing_waits {cfg : Config} {p : Producer} {s : Radio} (hlive : Live s)
    (hh : holds s (.prod p) = true) (pick : Pick) :
    ∃ ls t out u out', ExecOk (radio cfg) (HolderBut (some (.prod p))) [] s ls ∧
      exec (radio cfg) s ls = some (t, out) ∧
      step cfg t (.prod p pick) = some (u, out') := by
  by_cases hc : holds s .cons = true
  · have hq : s.cons.holdsQueue = false := by
      change (s.prod p).holdsQueue = true at hh
      cases hp : s.prod p with
      | clearing q i => exact (hlive.1.owner p q i hp).1
      | _ => simp [hp, ProducerPc.holdsQueue] at hh
    cases hcons : s.cons with
    | beforeWait i =>
      have hsleep : step cfg s (.cons .ath) = some ({ s with cons := .waitElement i false }, []) :=
        (step_iff_move hlive.2).mpr (.sleep hcons)
      have hfree : ElementsFree { s with cons := .waitElement i false } :=
        elementsFree_of_not_holds rfl
      have hother : some Thread.cons ≠ some (.prod p) := by simp
      obtain ⟨u, out', hs⟩ := clearing_goes cfg (p := p)
        (s := { s with cons := .waitElement i false }) hlive.2 hh hfree pick
      exact ⟨[.cons .ath], _, [], u, out', ⟨⟨.cons, .ath, hother, hc, rfl⟩, fun _ _ _ => trivial⟩,
        exec_one hsleep, hs⟩
    | _ => simp [holds, hcons, ConsumerPc.holdsQueue] at hc hq
  · rw [Bool.not_eq_true] at hc
    obtain ⟨u, out', hs⟩ := clearing_goes cfg hlive.2 hh (elementsFree_of_not_holds hc) pick
    exact ⟨[], s, [], u, out', trivial, rfl, hs⟩

/-- In every reachable state the holders of the locks make at most `BUF_SIZE + 2`
steps before every lock is free; and each thread that is in a call can make its
next step after some steps of the holders alone, and none of its own. -/
theorem no_thread_is_stuck_on_a_lock {cfg : Config} {s : Radio} {tr : List Event}
    (r : Run (radio cfg) anyStep s tr) (halive : s.ack ≠ .aborted) :
    (∀ ls t out, ExecOk (radio cfg) (HolderBut none) [] s ls →
      exec (radio cfg) s ls = some (t, out) → ls.length ≤ BUF_SIZE + 2) ∧
    ∀ x pick, inCall s x = true →
      ∃ ls t out u out', ExecOk (radio cfg) (HolderBut (some x)) [] s ls ∧
        exec (radio cfg) s ls = some (t, out) ∧ step cfg t (x.label pick) = some (u, out') := by
  have hlive : Live s := ⟨the_tail_stays_in_the_window r, halive⟩
  refine ⟨fun ls t out hok he => ?_, fun x pick hin => ?_⟩
  · obtain ⟨-, hlen⟩ := exec_bounded (fun _ => Live) lockTurns
      (fun _ _ _ _ _ h hl hs => holder_step h hl hs) hlive hok he
    have hle := hlive.1.lockTurns_le
    omega
  · by_cases hh : holds s x = true
    · cases x with
      | prod p => exact clearing_waits hlive hh pick
      | cons =>
        obtain ⟨u, out', hs⟩ := cons_goes cfg halive hh pick
        exact ⟨[], s, [], u, out', trivial, rfl, hs⟩
      | ack => cases hh
    · rw [Bool.not_eq_true] at hh
      exact Outside.goes hlive (outside_of_inCall hin hh) pick

/-- The consumer holds `qlock_` on its way to packet 1 while `RxRcvCell` comes with it. -/
def contendedRun : List Label :=
  [.call .rcvAth (onePkt 2 7), .prod .rcvAth .ath, .prod .rcvAth .ath, .prod .rcvAth .ath,
    .prod .rcvAth .ath, .cons .ath, .call .rcvCell (onePkt 1 8)]

theorem the_second_producer_gets_the_lock :
    ∃ s tr, Run (radio ⟨20, 10⟩) anyStep s tr ∧ holds s .cons = true ∧
      inCall s (.prod .rcvCell) = true ∧
      ∃ ls t out u out', ExecOk (radio ⟨20, 10⟩) (HolderBut (some (.prod .rcvCell))) [] s ls ∧
        exec (radio ⟨20, 10⟩) s ls = some (t, out) ∧
        step ⟨20, 10⟩ t (.prod .rcvCell .ath) = some (u, out') := by
  obtain ⟨s, tr, r, hs⟩ := run_of_check (radio ⟨20, 10⟩) anyStep contendedRun
    (fun x => holds x.1 .cons && inCall x.1 (.prod .rcvCell) && decide (x.1.ack ≠ .aborted))
    atStart_fresh (execOk_any _ _ _) (by decide)
  simp only [Bool.and_eq_true, decide_eq_true_eq] at hs
  obtain ⟨⟨hh, hin⟩, halive⟩ := hs
  obtain ⟨-, hgo⟩ := no_thread_is_stuck_on_a_lock r halive
  exact ⟨s, tr, r, hh, hin, hgo (.prod .rcvCell) .ath hin⟩

end wspace_client.threads

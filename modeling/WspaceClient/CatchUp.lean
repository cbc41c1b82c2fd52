-- The consumer catches up. Once the calls for the packets that came have
-- returned, `DequeuePkt` falls asleep after a bounded number of steps, and
-- then every packet up to the first one that did not come is out.
import WspaceClient.AtRest
import WspaceClient.Locks

namespace wspace_client.threads

open machine batch_info rx_data_buf

/-! ## The steps of the consumer -/

def ConsumerPc.asleep : ConsumerPc → Bool
  | .waitFill false | .waitElement _ false => true
  | _ => false

/-- A step of `DequeuePkt` that no signal has to come for, or of `FindNackSeqNum`
when it took the fill signal that the consumer sleeps for. -/
def Wakes (s : Radio) : Label → Prop
  | .cons _ => s.cons.asleep = false
  | .ack => s.cons = .waitFill false ∧ s.ack = .waitFill true
  | _ => False

instance (s : Radio) : (l : Label) → Decidable (Wakes s l)
  | .cons _ => inferInstanceAs (Decidable (_ = _))
  | .ack => inferInstanceAs (Decidable (_ ∧ _))
  | .call _ _ | .prod _ _ | .setBatchInfo _ _ _ _ _ _ | .updateTimeLeft _ _ _
  | .setDecodingDone _ | .tick _ => isFalse id

/-- The turns up to the return of the call, or up to its sleep. `took` says that
`FindNackSeqNum` took a fill signal. -/
def ConsumerPc.turns (took : Bool) : ConsumerPc → Nat
  | .waitElement _ false => 0
  | .beforeWait _ => 1
  | .lockElement _ => 2
  | .woken _ => 3
  | .waitElement _ true => 4
  | .waitFill false => if took then 5 else 0
  | .waitFill true => if took then 6 else 3
  | .idle => 7

/-- The steps that are left until the consumer sleeps. -/
def wakesLeft (s : Radio) : Nat :=
  6 * (s.buf.tail_pt - s.buf.head_pt) + s.cons.turns (decide (s.ack = .waitFill true))

theorem turns_le (took : Bool) (pc : ConsumerPc) : pc.turns took ≤ 7 := by
  unfold ConsumerPc.turns
  split <;> first | omega | (split <;> omega)

theorem Core.wakesLeft_le {s : Radio} (h : Core s) : wakesLeft s ≤ 6 * BUF_SIZE + 7 := by
  have hturns := turns_le (decide (s.ack = .waitFill true)) s.cons
  have hw := h.window
  unfold wakesLeft
  omega

theorem free_of_idle {s : Radio} (hidle : ∀ p, s.prod p = .idle) (hc : s.cons.holdsQueue = false) :
    queueFree s := by
  rw [queueFree_iff]
  exact ⟨hc, fun p => by rw [hidle p]; rfl⟩

theorem signalEmpty_idle {s : Radio} (h : ∀ p, s.prod p = .idle) (pick : Pick) (p : Producer) :
    (signalEmpty s pick).prod p = .idle := by
  rcases signalEmpty_prod s pick p with hsame | ⟨c, b, hp, -⟩
  · rw [hsame, h p]
  · rw [h p] at hp
    cases hp

/-- The call goes on with the same pointers. -/
theorem wakesLeft_same {s t : Radio} (hh : t.buf.head_pt = s.buf.head_pt)
    (ht : t.buf.tail_pt = s.buf.tail_pt)
    (h : t.cons.turns (decide (t.ack = .waitFill true)) <
      s.cons.turns (decide (s.ack = .waitFill true))) : wakesLeft t < wakesLeft s := by
  unfold wakesLeft
  rw [hh, ht]
  omega

/-- The call returns, with a number less to go. -/
theorem wakesLeft_next {s t : Radio} {i : Slot} (hlt : s.buf.head_pt < s.buf.tail_pt)
    (hc : s.cons = .lockElement i) (hh : t.buf.head_pt = s.buf.head_pt + 1)
    (ht : t.buf.tail_pt = s.buf.tail_pt) : wakesLeft t < wakesLeft s := by
  have hturns := turns_le (decide (t.ack = .waitFill true)) t.cons
  unfold wakesLeft
  rw [hh, ht, hc]
  change _ < _ + 2
  omega

/-- An awake consumer at the top of `DequeuePkt` has turns left for a sleep or a slot. -/
theorem AtTop.turns {s : Radio} (h : AtTop s) (hw : s.cons.asleep = false) (took : Bool) :
    (ConsumerPc.waitFill false).turns took < s.cons.turns took ∧ 2 < s.cons.turns took := by
  rcases h with hc | ⟨b, hc⟩ <;> rw [hc] at hw ⊢
  · cases took <;> decide
  · cases b
    · cases hw
    · cases took <;> decide

/-- What a step of the consumer does while no producer is in a call. -/
theorem cons_wakes {cfg : Config} {s t : Radio} {pick : Pick} {out : List Event} (hcore : Core s)
    (hidle : ∀ p, s.prod p = .idle) (hw : s.cons.asleep = false)
    (m : Move cfg s (.cons pick) t out) :
    (∀ p, t.prod p = .idle) ∧ NoWrap out ∧ wakesLeft t < wakesLeft s := by
  have hnext : ∀ {i}, s.cons = .lockElement i →
      s.buf.head_pt < s.buf.tail_pt ∧ s.buf.head_pt + 1 < 2 ^ 32 := by
    intro i hc
    have hlt := hcore.busy (by rw [hc]; rfl)
    have htl := hcore.tail_lt
    exact ⟨hlt, by omega⟩
  cases m with
  | sleepFill hc => exact ⟨hidle, nofun, wakesLeft_same rfl rfl (hc.turns hw _).1⟩
  | top hc =>
    refine ⟨fun p => by rw [signalFill_prod]; exact hidle p, nofun,
      wakesLeft_same (by rw [signalFill_buf]) (by rw [signalFill_buf]) ?_⟩
    rw [signalFill_cons_of_ne _ _ (by simp)]
    exact (hc.turns hw _).2
  | block hc | blocked hc =>
    refine ⟨hidle, nofun, wakesLeft_same rfl rfl ?_⟩
    rw [hc]
    exact Nat.lt_succ_self 1
  | deliver hc =>
    obtain ⟨hlt, hword⟩ := hnext hc
    exact ⟨signalEmpty_idle hidle pick, by simp [NoWrap],
      wakesLeft_next hlt hc (deliver_head hword _) rfl⟩
  | giveUp hc =>
    obtain ⟨hlt, hword⟩ := hnext hc
    exact ⟨signalEmpty_idle hidle pick, by simp [NoWrap],
      wakesLeft_next hlt hc (giveUp_head hword _) rfl⟩
  | sleep hc =>
    refine ⟨hidle, nofun, wakesLeft_same rfl rfl ?_⟩
    rw [hc]
    exact Nat.one_pos
  | @wake i b _ hc =>
    refine ⟨hidle, nofun, wakesLeft_same rfl rfl ?_⟩
    rw [hc] at hw ⊢
    cases b
    · cases hw
    · exact Nat.lt_succ_self 3
  | relock hc =>
    refine ⟨hidle, nofun, wakesLeft_same rfl rfl ?_⟩
    rw [hc]
    exact Nat.lt_succ_self 2

/-- `FindNackSeqNum` passes the fill signal on. -/
theorem ack_wakes {cfg : Config} {s t : Radio} {out : List Event} (hidle : ∀ p, s.prod p = .idle)
    (hc : s.cons = .waitFill false) (ha : s.ack = .waitFill true) (m : Move cfg s .ack t out) :
    (∀ p, t.prod p = .idle) ∧ NoWrap out ∧ wakesLeft t < wakesLeft s := by
  have hs := (step_iff_move (by rw [ha]; nofun)).mpr m
  have hfree := free_of_idle hidle (by rw [hc]; rfl)
  simp only [step, stepAck, ha, hfree, reduceCtorEq, if_false, if_true, Option.some.injEq,
    Prod.mk.injEq] at hs
  obtain ⟨rfl, rfl⟩ := hs
  refine ⟨fun p => by rw [signalFill_prod]; exact hidle p, by simp [NoWrap],
    wakesLeft_same (by rw [signalFill_buf]) (by rw [signalFill_buf]) ?_⟩
  rw [hc, ha]
  simp [signalFill, ConsumerPc.turns]

/-- What a step on the way to the sleep does while no producer is in a call. -/
theorem wakes_step {cfg : Config} {s t : Radio} {l : Label} {out : List Event} (hcore : Core s)
    (hidle : ∀ p, s.prod p = .idle) (hw : Wakes s l) (m : Move cfg s l t out) :
    (∀ p, t.prod p = .idle) ∧ NoWrap out ∧ wakesLeft t < wakesLeft s := by
  cases l with
  | cons pick => exact cons_wakes hcore hidle hw m
  | ack => exact ack_wakes hidle hw.1 hw.2 m
  | _ => exact hw.elim

/-- Such a step does not end the process. -/
theorem wakes_alive {cfg : Config} {s t : Radio} {l : Label} {out : List Event}
    (halive : s.ack ≠ .aborted) (hw : Wakes s l) (m : Move cfg s l t out) : t.ack ≠ .aborted := by
  by_cases hl : l = .ack
  · subst hl
    cases m with
    | ackWoken =>
      rw [signalFill_gotPointers]
      nofun
    | assertFails ha =>
      have htook := hw.2
      rw [ha] at htook
      cases htook
    | scanDrop | overflowDrop =>
      rw [signalElementAvail_ack]
      nofun
    | _ => nofun
  · rcases m.ack_eq hl with he | ⟨-, he⟩ <;> rw [he]
    · exact halive
    · nofun

/-- As long as the consumer does not sleep for good, such a step is possible. -/
theorem wakes_goes (cfg : Config) {s : Radio} (halive : s.ack ≠ .aborted)
    (hidle : ∀ p, s.prod p = .idle) (h : ¬AsleepUnsignalled s) :
    ∃ l t out, Wakes s l ∧ step cfg s l = some (t, out) := by
  have hfree : ∀ {pc}, s.cons = pc → pc.holdsQueue = false → queueFree s := fun hc hpc =>
    free_of_idle hidle (hc ▸ hpc)
  have hgo : s.cons.asleep = false → queueFree s →
      ∃ l t out, Wakes s l ∧ step cfg s l = some (t, out) := by
    intro hw hq
    obtain ⟨t, out, hs⟩ := cons_free_goes halive hq .ath
    exact ⟨.cons .ath, t, out, hw, hs⟩
  cases hc : s.cons with
  | waitFill b =>
    cases b with
    | true => exact hgo (by rw [hc]; rfl) (hfree hc rfl)
    | false =>
      have ha : s.ack = .waitFill true := by
        by_contra ha
        exact h (.inl ⟨hc, ha⟩)
      exact ⟨.ack, _, _, ⟨hc, ha⟩, (step_iff_move halive).mpr (.ackWoken ha (hfree hc rfl))⟩
  | waitElement i b =>
    cases b with
    | true => exact hgo (by rw [hc]; rfl) (hfree hc rfl)
    | false => exact absurd (.inr ⟨i, hc⟩) h
  | lockElement i =>
    obtain ⟨t, out, hs⟩ := cons_goes cfg halive (by simp [holds, hc]) .ath
    exact ⟨.cons .ath, t, out, by rw [Wakes, hc]; rfl, hs⟩
  | idle | beforeWait | woken => exact hgo (by rw [hc]; rfl) (hfree hc rfl)

end wspace_client.threads

namespace wspace_client.feed

open machine bytes code_header rcv_ath sender
open process (FromSender)
open rx_data_buf (BUF_SIZE)
open threads (Radio Core NoWrap Rests Wakes wakesLeft givesUp)

variable {pkt : Nat → List Byte} {acfg : Config} {S : Sender pkt acfg}

/-- The radio makes a step on the way to the consumer's sleep. -/
def OnTheWay (_ : FeedLog) (s : Feed) : FeedLabel → Prop
  | .other l => Wakes s.radio l
  | .recv _ _ | .next => False

instance (log : FeedLog) (s : Feed) : (l : FeedLabel) → Decidable (OnTheWay log s l)
  | .other l => inferInstanceAs (Decidable (Wakes s.radio l))
  | .recv _ _ | .next => isFalse id

/-- A step of a thread of the radio takes nothing away from what came. -/
theorem CameWhole.other {log : FeedLog} {q : Nat} (h : CameWhole S log q) (s : Feed)
    (k : threads.Label) (out : List threads.Event) :
    CameWhole S (log ++ [⟨s, .other k, out⟩]) q := by
  rcases h with h | ⟨c, ⟨e, he, hl⟩, hq⟩
  · refine .inl ?_
    rwa [received_snoc, taken, Option.toList_none, List.append_nil]
  · exact .inr ⟨c, ⟨e, List.mem_append_left _ he, hl⟩, hq⟩

/-- The calls for what came have returned, and each packet up to number `m` came. -/
structure Returned (cfg : threads.Config) (S : Sender pkt acfg) (m : Nat) (log : FeedLog)
    (s : Feed) : Prop where
  run : Run (logged (downlink cfg acfg)) (fun _ _ l => FromSender S l) s log
  noWrap : NoWrap (eventsOf log)
  todo : s.todo = []
  idle : ∀ p, s.radio.prod p = .idle
  alive : s.radio.ack ≠ .aborted
  came : ∀ q, 0 < q → q ≤ m → CameWhole S log q

theorem fromSender_of_wakes {s : Radio} {k : threads.Label} (h : Wakes s k) :
    FromSender S (.other k) := by
  cases k with
  | cons | ack => trivial
  | _ => exact h.elim

theorem feedStep_other {cfg : threads.Config} {s : Feed} {k : threads.Label} {r : Radio}
    {out : List threads.Event} (hk : Wakes s.radio k) (hover : s.over = false)
    (hs : threads.step cfg s.radio k = some (r, out)) :
    feedStep cfg acfg s (.other k) = some ({ s with radio := r }, out) := by
  have hother : isOther k = true := by
    cases k with
    | cons | ack => rfl
    | _ => exact hk.elim
  unfold feedStep stepRadio
  simp only [hother, hover, hs, and_self, if_true, Option.map_some]

theorem Returned.step {cfg : threads.Config} {m : Nat} {log es : FeedLog} {s t : Feed}
    {l : FeedLabel} (h : Returned cfg S m log s) (hl : OnTheWay log s l)
    (hs : (logged (downlink cfg acfg)).step s l = some (t, es)) :
    Returned cfg S m (log ++ es) t ∧ wakesLeft t.radio < wakesLeft s.radio := by
  obtain ⟨out, hstep, rfl⟩ := logged_step hs
  cases feed_move hstep with
  | recv | call | skip => exact hl.elim
  | @other k r _ hk hradio =>
    have m := threads.step_move hradio
    obtain ⟨hidle, hnew, hlt⟩ := threads.wakes_step
      (threads.the_tail_stays_in_the_window (run_radio h.run)) h.idle hl m
    refine ⟨⟨.next h.run (fromSender_of_wakes hl) hs, ?_, h.todo, hidle,
      threads.wakes_alive h.alive hl m, fun q hq hle => ?_⟩, hlt⟩
    · rw [eventsOf_snoc]
      exact h.noWrap.append hnew
    · exact (h.came q hq hle).other s k out

/-- Once the calls for what came have returned, the consumer makes a bounded number
of steps, in whatever order the signals reach the threads. When no step is left to
make, the packets up to the first one that did not come went out, or were given up. -/
theorem the_consumer_catches_up {cfg : threads.Config}
    (hacfg : acfg.ATH_CODE_HEADER_SIZE = ATH_CODE_HEADER_SIZE) {s u : Feed} {log log' : FeedLog}
    (r : Run (logged (downlink cfg acfg)) (fun _ _ l => FromSender S l) s log)
    (hw : NoWrap (eventsOf log)) (htodo : s.todo = []) (hidle : ∀ p, s.radio.prod p = .idle)
    (halive : s.radio.ack ≠ .aborted) {m : Nat} (hall : ∀ q, 0 < q → q ≤ m → CameWhole S log q)
    {ls : List FeedLabel} (hls : ExecOk (logged (downlink cfg acfg)) OnTheWay log s ls)
    (he : exec (logged (downlink cfg acfg)) s ls = some (u, log')) :
    ls.length ≤ 6 * BUF_SIZE + 7 ∧
    ((∃ l t es, OnTheWay (log ++ log') u l ∧
        (logged (downlink cfg acfg)).step u l = some (t, es)) ∨
      ∀ q, 0 < q → q ≤ m → .delivered (q - 1) q (pkt q) ∈ eventsOf (log ++ log') ∨
        ∃ e ∈ eventsOf (log ++ log'), givesUp q e = true) := by
  have hcore := threads.the_tail_stays_in_the_window (run_radio r)
  obtain ⟨hret, hlen⟩ := exec_bounded (Returned cfg S m) (fun f => wakesLeft f.radio)
    (fun _ _ _ _ _ h hl hs => h.step hl hs) ⟨r, hw, htodo, hidle, halive, hall⟩ hls he
  have hle := hcore.wakesLeft_le
  refine ⟨by omega, ?_⟩
  by_cases hrest : threads.AsleepUnsignalled u.radio
  · have hhead := head_past_what_came hacfg hret.run hret.noWrap hret.todo ⟨hret.idle, hrest⟩
      hret.came
    exact .inr fun q hq hqm =>
      passed_is_out hacfg hret.run hret.noWrap hq (Nat.le_trans hqm hhead)
  · obtain ⟨l, t, out, hwakes, hs⟩ := threads.wakes_goes cfg hret.alive hret.idle hrest
    obtain ⟨hsound, -⟩ := run_follows hacfg hret.run
    have hfeed : feedStep cfg acfg u (.other l) = _ := feedStep_other hwakes hsound.over hs
    exact .inl ⟨.other l, _, _, hwakes, step_logged hfeed⟩

/-- The turns of `DequeuePkt` that take two packets and fall asleep. -/
def takeTwo : List FeedLabel := List.replicate 5 (.other (.cons .ath))

theorem the_consumer_catches_up_with_the_pair : ∃ s u log log',
    exec (logged (downlink ⟨25, 500⟩ ⟨1, 1, 36⟩)) s takeTwo = some (u, log') ∧
    takeTwo.length ≤ 6 * BUF_SIZE + 7 ∧
    ((∃ l t es, OnTheWay (log ++ log') u l ∧
        (logged (downlink ⟨25, 500⟩ ⟨1, 1, 36⟩)).step u l = some (t, es)) ∨
      ∀ q, 0 < q → q ≤ 2 → .delivered (q - 1) q (pairPkts q) ∈ eventsOf (log ++ log') ∨
        ∃ e ∈ eventsOf (log ++ log'), givesUp q e = true) := by
  obtain ⟨s, log, r, hs⟩ := run_of_check (logged (downlink ⟨25, 500⟩ ⟨1, 1, 36⟩))
    (fun _ _ l => FromSender (oneBatch pairBatch) l) pairRun
    (fun x => x.1.todo.isEmpty && allIdle x.1.radio && decide (x.1.radio.ack = .idle) &&
      decide (eventsOf x.2 = [.enqueued 2 [8], .enqueued 1 [9]]) &&
      decide (2 ≤ (arrived ⟨1, 1, 36⟩ pairBatch (received x.2)).dedup.length) &&
      decide (ExecOk (logged (downlink ⟨25, 500⟩ ⟨1, 1, 36⟩)) OnTheWay x.2 x.1 takeTwo) &&
      (exec (logged (downlink ⟨25, 500⟩ ⟨1, 1, 36⟩)) x.1 takeTwo).isSome) atStart_fresh
    (execOk_of_labels (fun l hl _ _ => pairRun_fromSender l hl) _ _) (by decide +kernel)
  simp only [Bool.and_eq_true, List.isEmpty_iff, decide_eq_true_eq] at hs
  obtain ⟨⟨⟨⟨⟨⟨htodo, hidle⟩, hack⟩, hev⟩, hk⟩, hok⟩, hexec⟩ := hs
  obtain ⟨⟨u, log'⟩, he⟩ := Option.isSome_iff_exists.mp hexec
  have hw : NoWrap (eventsOf log) := by
    intro c bs hm
    rw [hev] at hm
    simp at hm
  have halive : s.radio.ack ≠ .aborted := by
    rw [hack]
    nofun
  exact ⟨s, u, log, log', he, the_consumer_catches_up rfl r hw htodo (prod_of_allIdle hidle)
    halive (cameWhole_pair hk) hok he⟩

end wspace_client.feed

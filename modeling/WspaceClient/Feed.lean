-- `RxRcvAth` at work on its radio: each packet becomes calls on the batch
-- information and the buffer, and the other threads run between any two of
-- them. What `RxRcvAth` promises about these calls is proved once, and every run
-- of the whole is a run of the radio that keeps the promise.
import WspaceClient.BatchIds
import WspaceClient.Batches
import WspaceClient.CodeHeader

namespace wspace_client.feed

open machine bytes code_header rcv_ath
open threads (Radio Label Move Log)

/-! ## The thread and its radio -/

/-- The calls of the current packet that are still to come, and whether the
process ends after them. -/
structure Feed where
  radio : Radio
  rcv : RcvAth
  todo : List Event
  ends : Bool

/-- A datagram comes, `RxRcvAth` makes its next call, or another thread steps. -/
inductive FeedLabel
  | recv (m : Mem) (nread : Nat)
  | next
  | other (l : Label)

/-- The arguments of `EnqueuePkt` as words of their types. -/
def enqueueArgs (p : NativePkt) : rx_data_buf.EnqueueArgs where
  seq_num := u32 p.seq_num
  pkt_len := p.len % 2 ^ 16
  pkt := p.buf
  seq_lt := u32_lt _
  len_lt := Nat.mod_lt _ (by decide)

/-- What a call is for the radio. -/
def radioLabel : Event → Option Label
  | .setBatchInfo b q d i n us => some (.setBatchInfo b q d i n us)
  | .updateTimeLeft i n us => some (.updateTimeLeft i n us)
  | .setDecodingDone d => some (.setDecodingDone d)
  | .enqueuePkt _ p => some (.call .rcvAth (enqueueArgs p))
  | .pushPkts _ | .setBsId _ | .decodeBatch _ _ _ => none

/-- The part of a turn before `PushPkt`. -/
def startBatch (s : RcvAth) (p : AthCodePkt) (per_pkt_duration : Nat) : RcvAth × List Event :=
  if s.batch_id < p.batch_id then
    match newBatch s p per_pkt_duration with
    | .ok x => x
    | .error _ => (s, [])
  else if s.batch_id = p.batch_id ∧ s.decoding_done = false then
    (s, [.updateTimeLeft p.ind p.n per_pkt_duration])
  else (s, [])

/-- The calls of the loop over the native packets up to a `PopPkt` that fails. -/
def lateBefore (s : RcvAth) (p : AthCodePkt) : fec.CodeInfo → List Nat → List Event
  | _, [] => []
  | d, i :: is =>
    if !isIndExist s.early_decoding_inds s.early_decoding_cnt i then
      match fec.popPkt d with
      | none => []
      | some (buf, len, d) =>
        .enqueuePkt s.batch_id ⟨add32 p.start_seq i, len, buf⟩ :: lateBefore s p d is
    else lateBefore s p (fec.moveToNextPkt d) is

def decodedBefore (s : RcvAth) (p : AthCodePkt) : List Event :=
  match fec.decodeBatch s.decoder with
  | none => []
  | some (_, decoder) =>
    .decodeBatch s.batch_id ((List.range p.k).map s.decoder.inds) decoder.coded_batch ::
      lateBefore s p decoder (List.range p.k)

/-- The calls from `PushPkt` on. -/
def pushedBefore (cfg : Config) (s : RcvAth) (p : AthCodePkt) : List Event :=
  match fec.pushPkt s.decoder (payloadLen cfg p) p.payload p.ind with
  | some (true, decoder) =>
    let (s, out) := enqueueNative { s with decoder } p
    if s.decoder.cur_ind ≥ p.k ∧ s.early_decoding_cnt ≠ p.k then out ++ decodedBefore s p else out
  | _ => []

/-- What a turn does before an assertion ends the process. -/
def callsBefore (cfg : Config) (s : RcvAth) (p : AthCodePkt) : RcvAth × List Event :=
  if p.is_good ∧ parseHeader p ∧ p.client_id = cfg.client_id ∧ cfg.radio_id = p.bs_id then
    match getRate p.rate with
    | some rate =>
      let (t, out) := startBatch s p (perPktDuration p.nread rate)
      let pushed := if t.batch_id = p.batch_id then pushedBefore cfg t p else []
      (t, .pushPkts p.raw_seq :: .setBsId p.bs_id :: (out ++ pushed))
    | none => (s, [.pushPkts p.raw_seq, .setBsId p.bs_id])
  else (s, [])

/-- One turn of `RxRcvAth`: its state and its calls, and whether it is the last one. -/
def turn (cfg : Config) (s : RcvAth) (p : AthCodePkt) : RcvAth × List Event × Bool :=
  match rxRcvAth cfg s p with
  | .ok (t, out) => (t, out, false)
  | .error _ => ((callsBefore cfg s p).1, (callsBefore cfg s p).2, true)

def isIdle (s : Radio) : Bool :=
  match s.prod .rcvAth with
  | .idle => true
  | _ => false

/-- The steps of the other threads, and of `EnqueuePkt` when `RxRcvAth` is in it. -/
def isOther : Label → Bool
  | .call .rcvCell _ | .prod _ _ | .cons _ | .ack | .tick _ => true
  | .call .rcvAth _ | .setBatchInfo _ _ _ _ _ _ | .updateTimeLeft _ _ _ | .setDecodingDone _ =>
    false

/-- An assertion of `RxRcvAth` ended the process. -/
def Feed.over (s : Feed) : Bool := s.ends && s.todo.isEmpty

/-- The radio makes a step, and the rest stays. -/
def stepRadio (cfg : threads.Config) (s : Feed) (l : Label) : Option (Feed × List threads.Event) :=
  (threads.step cfg s.radio l).map fun x => ({ s with radio := x.1 }, x.2)

def feedStep (cfg : threads.Config) (acfg : Config) (s : Feed) :
    FeedLabel → Option (Feed × List threads.Event)
  | .recv m nread =>
    if isIdle s.radio ∧ s.todo.isEmpty ∧ s.ends = false ∧ s.radio.ack ≠ .aborted then
      let (rcv, todo, ends) := turn acfg s.rcv (athCodePkt m nread)
      some (⟨s.radio, rcv, todo, ends⟩, [])
    else none
  | .next =>
    match s.todo with
    | [] => none
    | e :: todo =>
      if isIdle s.radio then
        match radioLabel e with
        | some l => stepRadio cfg { s with todo } l
        | none => some ({ s with todo }, [])
      else none
  | .other l => if isOther l ∧ s.over = false then stepRadio cfg s l else none

def Feed.Fresh (s : Feed) : Prop := s.radio.Fresh ∧ s.rcv.Fresh ∧ s.todo = [] ∧ s.ends = false

def downlink (cfg : threads.Config) (acfg : Config) : Machine Feed FeedLabel threads.Event where
  init := Feed.Fresh
  step := feedStep cfg acfg

/-! ## The calls of one packet -/

/-- A call that starts no batch. -/
def Quiet : Event → Prop
  | .setBatchInfo _ _ _ _ _ _ => False
  | .setDecodingDone d => d = true
  | _ => True

/-- The calls of a turn: none of them starts a batch, or one of them starts a
newer batch, at a number that no batch before it was past. -/
def Calls (s t : RcvAth) (out : List Event) : Prop :=
  (t.batch_id = s.batch_id ∧ t.start_seq = s.start_seq ∧ ∀ e ∈ out, Quiet e) ∨
  (s.batch_id < t.batch_id ∧ s.start_seq ≤ t.start_seq ∧ 0 < t.start_seq ∧
    t.start_seq < 2 ^ 32 ∧ ∃ pre ind n us post,
      out = pre ++ .setBatchInfo t.batch_id (sub32 t.start_seq 1) false ind n us :: post ∧
        (∀ e ∈ pre, Quiet e) ∧ ∀ e ∈ post, Quiet e)

theorem lateBefore_quiet (s : RcvAth) (p : AthCodePkt) (d : fec.CodeInfo) (is : List Nat) :
    ∀ e ∈ lateBefore s p d is, Quiet e := by
  induction is generalizing d with
  | nil => nofun
  | cons i is ih =>
    unfold lateBefore
    split
    · split
      · nofun
      · intro e he
        rcases List.mem_cons.mp he with rfl | he
        · trivial
        · exact ih _ e he
    · exact ih _

/-- A loop that goes through makes these calls. -/
theorem enqueueLate_calls {s : RcvAth} {p : AthCodePkt} {d d' : fec.CodeInfo} {is : List Nat}
    {out : List Event} (h : enqueueLate s p d is = .ok (d', out)) : lateBefore s p d is = out := by
  induction is generalizing d out with
  | nil =>
    cases h
    rfl
  | cons i is ih =>
    unfold enqueueLate at h
    unfold lateBefore
    by_cases hind : (!isIndExist s.early_decoding_inds s.early_decoding_cnt i) = true
    · rw [if_pos hind] at h ⊢
      cases hpop : fec.popPkt d with
      | none =>
        rw [hpop] at h
        cases h
      | some x =>
        rw [hpop] at h
        obtain ⟨y, hrest, h⟩ := ok_of_bind h
        cases h
        exact congrArg (List.cons _) (ih hrest)
    · rw [if_neg hind] at h ⊢
      exact ih h

theorem decodedBefore_quiet (s : RcvAth) (p : AthCodePkt) :
    ∀ e ∈ decodedBefore s p, Quiet e := by
  unfold decodedBefore
  split
  · nofun
  · intro e he
    rcases List.mem_cons.mp he with rfl | he
    · trivial
    · exact lateBefore_quiet _ _ _ _ e he

theorem decodeLate_calls {s : RcvAth} {p : AthCodePkt} {d : fec.CodeInfo} {out : List Event}
    (h : decodeLate s p = .ok (d, out)) : decodedBefore s p = out := by
  unfold decodeLate at h
  unfold decodedBefore
  cases hdec : fec.decodeBatch s.decoder with
  | none =>
    rw [hdec] at h
    cases h
  | some x =>
    rw [hdec] at h
    obtain ⟨y, hlate, h⟩ := ok_of_bind h
    cases h
    exact congrArg (List.cons _) (enqueueLate_calls hlate)

theorem finishBatch_quiet {s t : RcvAth} {p : AthCodePkt} {out : List Event}
    (h : finishBatch s p = .ok (t, out)) :
    t.batch_id = s.batch_id ∧ t.start_seq = s.start_seq ∧ ∀ e ∈ out, Quiet e := by
  have hlast : ∀ (late : List Event), (∀ e ∈ late, Quiet e) →
      ∀ e ∈ late ++ [.setDecodingDone true], Quiet e := by
    intro late hl e he
    rcases List.mem_append.mp he with he | he
    · exact hl e he
    · rw [List.mem_singleton.mp he]
      trivial
  unfold finishBatch at h
  by_cases hk : s.early_decoding_cnt ≠ p.k
  · rw [if_pos hk] at h
    obtain ⟨x, hlate, h⟩ := ok_of_bind h
    cases h
    exact ⟨rfl, rfl, hlast _ (decodeLate_calls hlate ▸ decodedBefore_quiet s p)⟩
  · rw [if_neg hk] at h
    cases h
    exact ⟨rfl, rfl, hlast [] nofun⟩

theorem enqueueNative_quiet (s : RcvAth) (p : AthCodePkt) :
    (enqueueNative s p).1.batch_id = s.batch_id ∧ (enqueueNative s p).1.start_seq = s.start_seq ∧
      ∀ e ∈ (enqueueNative s p).2, Quiet e := by
  unfold enqueueNative
  split
  · refine ⟨rfl, rfl, fun e he => ?_⟩
    rw [List.mem_singleton.mp he]
    trivial
  · exact ⟨rfl, rfl, nofun⟩

theorem pushCoded_quiet {cfg : Config} {s t : RcvAth} {p : AthCodePkt} {out : List Event}
    (h : pushCoded cfg s p = .ok (t, out)) :
    t.batch_id = s.batch_id ∧ t.start_seq = s.start_seq ∧ ∀ e ∈ out, Quiet e := by
  unfold pushCoded at h
  split at h
  · cases h
  · cases h
  · rename_i d hpush
    obtain ⟨hb, hs, hq⟩ := enqueueNative_quiet { s with decoder := d } p
    generalize enqueueNative { s with decoder := d } p = x at h hb hs hq
    obtain ⟨s1, out1⟩ := x
    simp only at h hb hs hq
    split at h
    · obtain ⟨y, hfin, h⟩ := ok_of_bind h
      cases h
      obtain ⟨hb', hs', hq'⟩ := finishBatch_quiet hfin
      refine ⟨hb'.trans hb, hs'.trans hs, fun e he => ?_⟩
      exact (List.mem_append.mp he).elim (hq e) (hq' e)
    · cases h
      exact ⟨hb, hs, hq⟩

theorem pushedBefore_quiet (cfg : Config) (s : RcvAth) (p : AthCodePkt) :
    ∀ e ∈ pushedBefore cfg s p, Quiet e := by
  unfold pushedBefore
  split
  · rename_i decoder hpush
    obtain ⟨-, -, hnative⟩ := enqueueNative_quiet { s with decoder } p
    dsimp only
    split
    · intro e he
      exact (List.mem_append.mp he).elim (hnative e) (decodedBefore_quiet _ p e)
    · exact hnative
  · nofun

theorem newBatch_calls {s t : RcvAth} {p : AthCodePkt} {dur : Nat} {out : List Event}
    (h : newBatch s p dur = .ok (t, out)) :
    t.batch_id = p.batch_id ∧ t.start_seq = max s.start_seq p.start_seq ∧
      out = [.setBatchInfo t.batch_id (sub32 t.start_seq 1) false p.ind p.n dur] := by
  unfold newBatch at h
  split at h
  · cases h
  · cases h
    refine ⟨rfl, ?_, rfl⟩
    dsimp only
    split <;> omega

/-- The promise of a turn whose packet has a start number of its type. -/
theorem Calls.new {s t u : RcvAth} {p : AthCodePkt} {dur : Nat} {start post : List Event}
    (hstart : newBatch s p dur = .ok (t, start)) (hlt : s.batch_id < p.batch_id)
    (hpos : 0 < p.start_seq) (hfit : p.start_seq < 2 ^ 32) (hs : s.start_seq < 2 ^ 32)
    (hb : u.batch_id = t.batch_id) (hq : u.start_seq = t.start_seq)
    (hpost : ∀ e ∈ post, Quiet e) : Calls s u (start ++ post) := by
  obtain ⟨hid, hmax, rfl⟩ := newBatch_calls hstart
  refine .inr ⟨by omega, by omega, by omega, by omega, [], p.ind, p.n, dur, post, ?_, nofun, hpost⟩
  rw [hb, hq]
  rfl

/-- The calls at the top of a turn change nothing. -/
theorem Calls.after {s t : RcvAth} {raw_seq : Nat} {bs_id : Int} {out : List Event}
    (h : Calls s t out) : Calls s t (.pushPkts raw_seq :: .setBsId bs_id :: out) := by
  have htop : ∀ (l : List Event), (∀ e ∈ l, Quiet e) →
      ∀ e ∈ .pushPkts raw_seq :: .setBsId bs_id :: l, Quiet e := by
    intro l hl e he
    rcases List.mem_cons.mp he with rfl | he
    · trivial
    · rcases List.mem_cons.mp he with rfl | he
      · trivial
      · exact hl e he
  rcases h with ⟨hb, hq, hquiet⟩ | ⟨hlt, hle, hpos, hfit, pre, ind, n, us, post, rfl, hpre, hpost⟩
  · exact .inl ⟨hb, hq, htop _ hquiet⟩
  · exact .inr ⟨hlt, hle, hpos, hfit, _ :: _ :: pre, ind, n, us, post, rfl, htop _ hpre, hpost⟩

theorem Calls.append {s t : RcvAth} {out post : List Event} (h : Calls s t out)
    (hpost : ∀ e ∈ post, Quiet e) : Calls s t (out ++ post) := by
  rcases h with ⟨hb, hq, hquiet⟩ | ⟨hlt, hle, hpos, hfit, pre, ind, n, us, rest, rfl, hpre, hrest⟩
  · exact .inl ⟨hb, hq, fun e he => (List.mem_append.mp he).elim (hquiet e) (hpost e)⟩
  · refine .inr ⟨hlt, hle, hpos, hfit, pre, ind, n, us, rest ++ post, ?_, hpre,
      fun e he => (List.mem_append.mp he).elim (hrest e) (hpost e)⟩
    rw [List.append_assoc, List.cons_append]

theorem rcvBatch_calls {cfg : Config} {s t : RcvAth} {p : AthCodePkt} {dur : Nat}
    {out : List Event} (h : rcvBatch cfg s p dur = .ok (t, out)) (hpos : 0 < p.start_seq)
    (hfit : p.start_seq < 2 ^ 32) (hs : s.start_seq < 2 ^ 32) : Calls s t out := by
  unfold rcvBatch at h
  split at h
  · cases h
    exact .inl ⟨rfl, rfl, nofun⟩
  · split at h
    · rename_i hlt
      obtain ⟨x, hnew, h⟩ := ok_of_bind h
      obtain ⟨y, hpush, h⟩ := ok_of_bind h
      cases h
      obtain ⟨hb, hq, hquiet⟩ := pushCoded_quiet hpush
      exact .new hnew hlt hpos hfit hs hb hq hquiet
    · have hout : ∀ e ∈ (if s.decoding_done = true then [] else
          [Event.updateTimeLeft p.ind p.n dur]), Quiet e := by
        intro e he
        split at he
        · cases he
        · rw [List.mem_singleton.mp he]
          trivial
      dsimp only at h
      generalize (if s.decoding_done = true then [] else
          [Event.updateTimeLeft p.ind p.n dur]) = early at h hout
      split at h
      · cases h
        exact .inl ⟨rfl, rfl, hout⟩
      · obtain ⟨y, hpush, h⟩ := ok_of_bind h
        cases h
        obtain ⟨hb, hq, hquiet⟩ := pushCoded_quiet hpush
        exact .inl ⟨hb, hq, fun e he => (List.mem_append.mp he).elim (hout e) (hquiet e)⟩

theorem parseHeader_start {p : AthCodePkt} (h : parseHeader p = true) : 0 < p.start_seq := by
  unfold parseHeader at h
  rw [Bool.and_eq_true, decide_eq_true_eq, decide_eq_true_eq] at h
  exact h.2.2.1

theorem rxRcvAth_calls {cfg : Config} {s t : RcvAth} {p : AthCodePkt} {out : List Event}
    (h : rxRcvAth cfg s p = .ok (t, out)) (hfit : p.start_seq < 2 ^ 32)
    (hs : s.start_seq < 2 ^ 32) : Calls s t out := by
  unfold rxRcvAth at h
  split at h
  · cases h
    exact .inl ⟨rfl, rfl, nofun⟩
  · split at h
    · cases h
    · rename_i hparse
      rw [Bool.not_eq_true', Bool.not_eq_false] at hparse
      split at h
      · cases h
        exact .inl ⟨rfl, rfl, nofun⟩
      · split at h
        · cases h
        · split at h
          · cases h
          · rename_i rate hrate
            obtain ⟨x, hbatch, h⟩ := ok_of_bind h
            cases h
            have hcalls := rcvBatch_calls hbatch (parseHeader_start hparse) hfit hs
            exact hcalls.after

theorem startBatch_calls {s : RcvAth} {p : AthCodePkt} {dur : Nat} (hpos : 0 < p.start_seq)
    (hfit : p.start_seq < 2 ^ 32) (hs : s.start_seq < 2 ^ 32) :
    Calls s (startBatch s p dur).1 (startBatch s p dur).2 := by
  unfold startBatch
  split
  · rename_i hlt
    split
    · rename_i x hnew
      have hcalls := @Calls.new s x.1 x.1 p dur x.2 [] hnew hlt hpos hfit hs rfl rfl nofun
      rwa [List.append_nil] at hcalls
    · exact .inl ⟨rfl, rfl, nofun⟩
  · split
    · refine .inl ⟨rfl, rfl, fun e he => ?_⟩
      rw [List.mem_singleton.mp he]
      trivial
    · exact .inl ⟨rfl, rfl, nofun⟩

/-- Every turn keeps the promise, also one that ends the process. -/
theorem turn_calls {cfg : Config} {s : RcvAth} {p : AthCodePkt} (hfit : p.start_seq < 2 ^ 32)
    (hs : s.start_seq < 2 ^ 32) : Calls s (turn cfg s p).1 (turn cfg s p).2.1 := by
  unfold turn
  split
  · rename_i t out hok
    exact rxRcvAth_calls hok hfit hs
  · unfold callsBefore
    split
    · rename_i hchecks
      split
      · rename_i rate hrate
        have hstart := @startBatch_calls s p (perPktDuration p.nread rate)
          (parseHeader_start hchecks.2.1) hfit hs
        refine (hstart.append ?_).after
        split
        · exact pushedBefore_quiet _ _ _
        · nofun
      · exact Calls.after (.inl ⟨rfl, rfl, nofun⟩)
    · exact .inl ⟨rfl, rfl, nofun⟩

/-! ## The calls that are still to come -/

/-- The batch information, once the calls are made, is that of the thread. -/
def Agrees (batch_id highest : Nat) (r : RcvAth) : List Event → Prop
  | [] => batch_id = r.batch_id ∧ highest = r.start_seq - 1
  | .setBatchInfo b q d _ _ _ :: todo =>
    d = false ∧ batch_id < b ∧ highest ≤ q ∧ q < 2 ^ 32 ∧ Agrees b q r todo
  | .setDecodingDone d :: todo => d = true ∧ Agrees batch_id highest r todo
  | _ :: todo => Agrees batch_id highest r todo

theorem agrees_quiet {b h : Nat} {r : RcvAth} {pre todo : List Event}
    (hpre : ∀ e ∈ pre, Quiet e) : Agrees b h r (pre ++ todo) ↔ Agrees b h r todo := by
  induction pre with
  | nil => exact Iff.rfl
  | cons e pre ih =>
    have he := hpre e List.mem_cons_self
    have ih := ih fun x hx => hpre x (List.mem_cons_of_mem _ hx)
    cases e with
    | setBatchInfo => exact absurd he id
    | setDecodingDone d => exact (and_iff_right he).trans ih
    | _ => exact ih

/-- A turn of a thread that the radio agrees with. -/
theorem Calls.agrees {s t : RcvAth} {out : List Event} (h : Calls s t out) :
    Agrees s.batch_id (s.start_seq - 1) t out := by
  rcases h with ⟨hb, hq, hquiet⟩ | ⟨hlt, hle, hpos, hfit, pre, ind, n, us, post, rfl, hpre, hpost⟩
  · rw [← List.append_nil out, agrees_quiet hquiet]
    exact ⟨hb.symm, by rw [hq]⟩
  · rw [agrees_quiet hpre]
    have hsub : sub32 t.start_seq 1 = t.start_seq - 1 := sub32_of_le hpos hfit
    refine ⟨rfl, hlt, by omega, by omega, ?_⟩
    rw [← List.append_nil post, agrees_quiet hpost]
    exact ⟨rfl, hsub⟩

theorem Calls.start_lt {s t : RcvAth} {out : List Event} (h : Calls s t out)
    (hs : s.start_seq < 2 ^ 32) : t.start_seq < 2 ^ 32 := by
  rcases h with ⟨-, hq, -⟩ | ⟨-, -, -, hfit, -⟩
  · rw [hq]
    exact hs
  · exact hfit

/-! ## The run of the radio -/

/-- The step of the radio in a step of the whole. -/
def radioStep (s : Feed) : FeedLabel → Option Label
  | .recv _ _ => none
  | .next =>
    match s.todo with
    | [] => none
    | e :: _ => radioLabel e
  | .other l => some l

abbrev FeedLog := List (Entry Feed FeedLabel threads.Event)

/-- The steps of the radio in a log. -/
def radioLog (log : FeedLog) : Log :=
  log.filterMap fun e => (radioStep e.state e.label).map fun l => ⟨e.state.radio, l, e.events⟩

/-- A guard on the steps of the radio. -/
def lift (ok : Log → Radio → Label → Prop) (log : FeedLog) (s : Feed) (l : FeedLabel) : Prop :=
  ∀ k, radioStep s l = some k → ok (radioLog log) s.radio k

/-- What `RxRcvAth` promises: the ids of the batches and the numbers before them
grow, and a batch that is done stays done. -/
def RcvCalls (_ : Log) (s : Radio) : Label → Prop
  | .setBatchInfo b q d _ _ _ => d = false ∧ s.batch_info.batch_id < b ∧
      s.batch_info.highest_decoded_seq ≤ q ∧ q < 2 ^ 32
  | .setDecodingDone d => d = true
  | _ => True

/-- The numbers that `RxRcvAth` gives out are `uint32`. -/
theorem seqFits_of_rcvCalls {log : Log} {tr : List threads.Event} {s : Radio} {l : Label}
    (h : RcvCalls log s l) : threads.SeqFits tr s l := by
  cases l with
  | setBatchInfo => exact h.2.2.2
  | _ => trivial

/-- The batch information agrees with the thread, and its numbers are `uint32`. -/
structure Sync (s : Feed) : Prop where
  start_lt : s.rcv.start_seq < 2 ^ 32
  highest_lt : s.radio.batch_info.highest_decoded_seq < 2 ^ 32
  agrees : Agrees s.radio.batch_info.batch_id s.radio.batch_info.highest_decoded_seq s.rcv s.todo

theorem stepRadio_eq {cfg : threads.Config} {s t : Feed} {l : Label} {out : List threads.Event}
    (h : stepRadio cfg s l = some (t, out)) :
    ∃ r, threads.step cfg s.radio l = some (r, out) ∧ t = { s with radio := r } := by
  obtain ⟨⟨r, o⟩, hs, he⟩ := Option.map_eq_some_iff.mp h
  cases he
  exact ⟨r, hs, rfl⟩

/-- What one step is for the thread and for the radio. -/
inductive FeedMove (cfg : threads.Config) (acfg : Config) (s : Feed) :
    FeedLabel → Feed → List threads.Event → Prop
  | recv {m nread} (h : s.todo = []) :
      FeedMove cfg acfg s (.recv m nread)
        ⟨s.radio, (turn acfg s.rcv (athCodePkt m nread)).1,
          (turn acfg s.rcv (athCodePkt m nread)).2.1,
          (turn acfg s.rcv (athCodePkt m nread)).2.2⟩ []
  | call {e todo l r out} (h : s.todo = e :: todo) (hl : radioLabel e = some l)
      (hs : threads.step cfg s.radio l = some (r, out)) :
      FeedMove cfg acfg s .next { s with radio := r, todo } out
  | skip {e todo} (h : s.todo = e :: todo) (hl : radioLabel e = none) :
      FeedMove cfg acfg s .next { s with todo } []
  | other {l r out} (hl : isOther l = true) (hs : threads.step cfg s.radio l = some (r, out)) :
      FeedMove cfg acfg s (.other l) { s with radio := r } out

theorem feed_move {cfg : threads.Config} {acfg : Config} {s t : Feed} {l : FeedLabel}
    {out : List threads.Event} (h : feedStep cfg acfg s l = some (t, out)) :
    FeedMove cfg acfg s l t out := by
  unfold feedStep at h
  split at h
  · split at h
    · rename_i hidle
      cases h
      exact .recv (List.isEmpty_iff.mp hidle.2.1)
    · cases h
  · split at h
    · cases h
    · rename_i e todo htodo
      split at h
      · split at h
        · rename_i l hl
          obtain ⟨r, hs, rfl⟩ := stepRadio_eq h
          exact .call htodo hl hs
        · rename_i hl
          cases h
          exact .skip htodo hl
      · cases h
  · split at h
    · rename_i hl
      obtain ⟨r, hs, rfl⟩ := stepRadio_eq h
      exact .other hl.1 hs
    · cases h

theorem fresh_sync {s : Feed} (h : s.Fresh) : Sync s := by
  obtain ⟨⟨-, ⟨hb, hq, -⟩, -⟩, hr, htodo, -⟩ := h
  refine ⟨?_, ?_, ?_⟩
  · rw [hr.start_seq]
    decide
  · rw [hq]
    decide
  · rw [htodo]
    exact ⟨by rw [hb, hr.batch_id], by rw [hq, hr.start_seq]⟩

/-- A step of the radio that starts no batch keeps the agreement. -/
theorem Sync.keep {cfg : threads.Config} {s : Feed} {r : Radio} {l : Label}
    {out : List threads.Event} {todo : List Event} (h : Sync s)
    (hs : threads.step cfg s.radio l = some (r, out))
    (hl : ∀ b q d i n us, l ≠ .setBatchInfo b q d i n us)
    (ha : Agrees s.radio.batch_info.batch_id s.radio.batch_info.highest_decoded_seq s.rcv todo) :
    Sync { s with radio := r, todo } := by
  have hb := (threads.step_move hs).batch_info_eq
  obtain ⟨hhigh, hid⟩ := threads.batchAfter_keeps (s := s.radio) hl
  rw [← hb] at hid hhigh
  refine ⟨h.start_lt, ?_, ?_⟩
  · show r.batch_info.highest_decoded_seq < 2 ^ 32
    rw [hhigh]
    exact h.highest_lt
  · show Agrees r.batch_info.batch_id r.batch_info.highest_decoded_seq s.rcv todo
    rw [hid, hhigh]
    exact ha

/-- Each step keeps the agreement, and each call of `RxRcvAth` keeps the promise. -/
theorem FeedMove.sync {cfg : threads.Config} {acfg : Config} {s t : Feed} {l : FeedLabel}
    {out : List threads.Event} (h : Sync s) (m : FeedMove cfg acfg s l t out) :
    Sync t ∧ ∀ k, radioStep s l = some k → ∀ log, RcvCalls log s.radio k := by
  have ha := h.agrees
  cases m with
  | @recv m nread htodo =>
    rw [htodo] at ha
    obtain ⟨hb, hq⟩ := ha
    have hcalls := @turn_calls acfg s.rcv (athCodePkt m nread) (read_lt m START_SEQ 4) h.start_lt
    have hag := hcalls.agrees
    rw [← hb, ← hq] at hag
    exact ⟨⟨hcalls.start_lt h.start_lt, h.highest_lt, hag⟩, nofun⟩
  | @call e todo k r out htodo hk hs =>
    rw [htodo] at ha
    have hstep : radioStep s .next = some k := by
      unfold radioStep
      rw [htodo]
      exact hk
    cases e with
    | setBatchInfo b q d ind n us =>
      cases hk
      obtain ⟨hd, hlt, hle, hfit, ha⟩ := ha
      have hb := (threads.step_move hs).batch_info_eq
      refine ⟨⟨h.start_lt, ?_, ?_⟩, fun k hk log => ?_⟩
      · show r.batch_info.highest_decoded_seq < 2 ^ 32
        rw [hb]
        exact hfit
      · show Agrees r.batch_info.batch_id r.batch_info.highest_decoded_seq s.rcv todo
        rw [hb]
        exact ha
      · rw [hstep] at hk
        cases hk
        exact ⟨hd, hlt, hle, hfit⟩
    | setDecodingDone d =>
      cases hk
      refine ⟨h.keep hs nofun ha.2, fun k hk log => ?_⟩
      rw [hstep] at hk
      cases hk
      exact ha.1
    | updateTimeLeft ind n us =>
      cases hk
      refine ⟨h.keep hs nofun ha, fun k hk log => ?_⟩
      rw [hstep] at hk
      cases hk
      trivial
    | enqueuePkt b p =>
      cases hk
      refine ⟨h.keep hs nofun ha, fun k hk log => ?_⟩
      rw [hstep] at hk
      cases hk
      trivial
    | _ => cases hk
  | @skip e todo htodo hk =>
    rw [htodo] at ha
    have hstep : radioStep s .next = none := by
      unfold radioStep
      rw [htodo]
      exact hk
    refine ⟨⟨h.start_lt, h.highest_lt, ?_⟩, fun k hk => ?_⟩
    · cases e with
      | pushPkts | setBsId | decodeBatch => exact ha
      | _ => cases hk
    · rw [hstep] at hk
      cases hk
  | @other k r out hk hs =>
    refine ⟨h.keep hs ?_ ha, fun k' hk' log => ?_⟩
    · rintro b q d i n us rfl
      cases hk
    · cases hk'
      cases k with
      | setBatchInfo | setDecodingDone => cases hk
      | _ => trivial

theorem radioLog_append (log log' : FeedLog) :
    radioLog (log ++ log') = radioLog log ++ radioLog log' := List.filterMap_append

/-- The log of the radio after one more step. -/
theorem FeedMove.onRadio {cfg : threads.Config} {acfg : Config} {s t : Feed} {l : FeedLabel}
    {out : List threads.Event} (m : FeedMove cfg acfg s l t out) :
    (radioStep s l = none ∧ t.radio = s.radio ∧ out = []) ∨
    ∃ k, radioStep s l = some k ∧ threads.step cfg s.radio k = some (t.radio, out) := by
  cases m with
  | recv => exact .inl ⟨rfl, rfl, rfl⟩
  | call h hl hs =>
    refine .inr ⟨_, ?_, hs⟩
    unfold radioStep
    rw [h]
    exact hl
  | skip h hl =>
    refine .inl ⟨?_, rfl, rfl⟩
    unfold radioStep
    rw [h]
    exact hl
  | other hl hs => exact .inr ⟨_, rfl, hs⟩

/-- Every run of the whole is a run of the radio in which `RxRcvAth` keeps its promise. -/
theorem run_feed {cfg : threads.Config} {acfg : Config} {ok : Log → Radio → Label → Prop}
    {s : Feed} {log : FeedLog} (r : Run (logged (downlink cfg acfg)) (lift ok) s log) :
    Sync s ∧ Run (logged (threads.radio cfg)) (fun log r l => RcvCalls log r l ∧ ok log r l)
      s.radio (radioLog log) ∧ eventsOf (radioLog log) = eventsOf log := by
  refine r.invariant (fun s log => Sync s ∧ Run (logged (threads.radio cfg))
    (fun log r l => RcvCalls log r l ∧ ok log r l) s.radio (radioLog log) ∧
      eventsOf (radioLog log) = eventsOf log)
    (fun s (h : s.Fresh) => ⟨fresh_sync h, .start h.1, rfl⟩) fun s log l t es r ih hok hs => ?_
  obtain ⟨hsync, hrun, hev⟩ := ih
  obtain ⟨out, hstep, rfl⟩ := logged_step hs
  have m := feed_move hstep
  obtain ⟨ht, hcalls⟩ := m.sync hsync
  refine ⟨ht, ?_⟩
  rw [radioLog_append]
  rcases m.onRadio with ⟨hk, hradio, rfl⟩ | ⟨k, hk, hradio⟩
  · have hnone : radioLog [⟨s, l, []⟩] = [] := by
      unfold radioLog
      rw [List.filterMap_cons_none (by rw [hk]; rfl), List.filterMap_nil]
    rw [hnone, List.append_nil, hradio]
    refine ⟨hrun, hev.trans ?_⟩
    unfold eventsOf
    rw [List.flatMap_append, List.flatMap_singleton, List.append_nil]
  · have hone : radioLog [⟨s, l, out⟩] = [⟨s.radio, k, out⟩] := by
      unfold radioLog
      rw [List.filterMap_cons_some (by rw [hk]; rfl), List.filterMap_nil]
    rw [hone]
    refine ⟨.next hrun ⟨hcalls k hk _, hok k hk⟩ (Option.map_eq_some_iff.mpr ⟨_, hradio, rfl⟩), ?_⟩
    unfold eventsOf at hev ⊢
    rw [List.flatMap_append, List.flatMap_append, hev, List.flatMap_singleton,
      List.flatMap_singleton]

/-! ## Runs from start-up -/

instance (ok : Log → Radio → Label → Prop) [∀ log s l, Decidable (ok log s l)] (log : FeedLog)
    (s : Feed) (l : FeedLabel) : Decidable (lift ok log s l) :=
  match h : radioStep s l with
  | none => isTrue fun k hk => by rw [h] at hk; cases hk
  | some k => decidable_of_iff (ok (radioLog log) s.radio k) (by simp [lift, h])

def Feed.atStart : Feed := ⟨.atStart, newRcvAth, [], false⟩

theorem atStart_fresh : Feed.atStart.Fresh :=
  ⟨threads.atStart_fresh, newRcvAth_fresh, rfl, rfl⟩

theorem uint8_int (n : UInt8) : (n.toNat : Int) < 2 ^ 31 := by
  have hlt := n.toNat_lt
  omega

/-- A header for client 1 from radio 1 at 6 Mbps. -/
def header (batch_id start_seq : UInt32) (ind k : Nat) (n : UInt8) : HeaderArgs :=
  ⟨batch_id.toNat, start_seq.toNat, BitVec.ofNat 8 ATH_CODE, ind, k, n.toNat, fun _ => 1, 1, 1,
    batch_id.toNat_lt, start_seq.toNat_lt, uint8_int n, fun _ => by decide, one_int, one_int⟩

/-- The packet of a header, with one byte of payload. -/
def packet (a : HeaderArgs) : FeedLabel :=
  .recv ((setHeader (write (write (fun _ => 0) RATE 2 0x0B) IS_GOOD 1 1) a).getD fun _ => 0)
    (ATH_CODE_HEADER_SIZE + 2 * a.k.toNat + 1)

end wspace_client.feed

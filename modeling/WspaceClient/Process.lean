-- The downlink of the whole process: `RxRcvAth`, `RxWriteTun` and `RxCreateDataAck`
-- of every radio, `RxRcvCell`, which feeds all of them, the one filter before the TUN
-- device, and one clock.
import WspaceClient.AckThread
import WspaceClient.Feed
import WspaceClient.Lengths
import WspaceClient.Radios
import WspaceClient.WriteTun

namespace wspace_client.process

open machine bytes code_header rcv_ath feed
open threads (Radio Producer withPrev)
open write_tun (Writers)
open ack_thread (AckThread)

/-! ## `RxRcvCell` -/

/-- What `RxRcvCell` does with a packet of the cellular link. -/
inductive CellTurn
  /-- The packet is of another type. -/
  | skip
  /-- An assertion ends the process. -/
  | aborts
  | enqueuePkt (radio_id : Int) (x : NativePkt)

def rxRcvCell (client_id : Int) (p : AthCodePkt) : CellTurn :=
  if p.type ≠ ATH_CODE then .skip
  else if !parseHeader p then .aborts
  else if client_id ≠ p.client_id then .aborts
  else if p.ind < p.k then .enqueuePkt p.bs_id ⟨add32 p.start_seq p.ind, p.lens p.ind, p.payload⟩
  else .aborts

/-! ## The process -/

/-- What the options set. The ids are of the type `int`. -/
structure Config where
  client_id : Int
  radio_ids : List Int
  block_time : Int
  client_id_int : -2 ^ 31 ≤ client_id ∧ client_id < 2 ^ 31
  radio_ids_int : ∀ r ∈ radio_ids, -2 ^ 31 ≤ r ∧ r < 2 ^ 31

/-- The arguments of `FindNackSeqNum`. -/
def Config.acks (cfg : Config) : threads.Config := ⟨cfg.block_time, rx_raw_buf.ACK_WINDOW⟩

/-- What ended the process. -/
inductive Ended
  /-- An assertion of `RxRcvAth`. -/
  | rxRcvAth
  /-- An assertion of `RxRcvCell`, or its null pointer. -/
  | rxRcvCell
  /-- `assert(end_pt < tail_pt)` in `FindNackSeqNum`. -/
  | findNackSeqNum
  /-- An assertion of `RxCreateDataAck` behind it. -/
  | dataAck (e : ack_thread.Abort)
  /-- The assertions of `Tun::Write` in `RxWriteTun`. -/
  | writeTun
  deriving DecidableEq

/-- The radios by their ids, with the variables that they share. -/
structure Process where
  batch_id_prev : Nat
  feeds : Int → Feed
  acks : Int → AckThread
  writers : Writers Int
  ended : Option Ended

inductive Event
  | radio (radio_id : Int) (e : threads.Event)
  | tun (e : write_tun.Event Int)
  /-- `RxCreateDataAck` sent a datagram to the controller. -/
  | dataAck (radio_id : Int) (datagram : List Byte)
  deriving DecidableEq

/-- A step of a thread of one radio, a packet of the cellular link, a step of a
writer after its `DequeuePkt`, the turn of `RxCreateDataAck` behind its
`FindNackSeqNum`, or one of the clock. -/
inductive Label
  | feed (radio_id : Int) (l : FeedLabel)
  | cell (m : Mem)
  | tun (l : write_tun.Label Int)
  | dataAck (radio_id nwrite : Int)
  | tick (us : Nat)

def Process.Fresh (s : Process) : Prop :=
  s.batch_id_prev = 0 ∧ (∀ r, (s.feeds r).Fresh) ∧ (∀ r, (s.acks r).returned = none) ∧
    s.writers.Fresh ∧ s.ended = none ∧
    ∀ r r', (s.feeds r).radio.now = (s.feeds r').radio.now

/-- A radio as its threads see it. -/
def Process.view (s : Process) (r : Int) : Feed :=
  { s.feeds r with radio := withPrev s.batch_id_prev (s.feeds r).radio }

def writerIdle : write_tun.WriterPc → Bool
  | .idle => true
  | _ => false

/-- The steps that a thread of the radio makes by itself. `RxWriteTun` calls
`DequeuePkt` when it is through with the packet before, and `RxCreateDataAck` calls
`FindNackSeqNum` when it sent the list before. -/
def mayStep (s : Process) (r : Int) : FeedLabel → Bool
  | .recv _ _ | .next | .other (.prod _ _) => true
  | .other .ack => (s.acks r).returned.isNone
  | .other (.cons _) => writerIdle (s.writers.pc r)
  | .other (.call _ _) | .other (.setBatchInfo _ _ _ _ _ _) | .other (.updateTimeLeft _ _ _)
  | .other (.setDecodingDone _) | .other (.tick _) => false

/-- What `DequeuePkt` returns goes to the test of its header. -/
def handOver (client_id r : Int) (w : Writers Int) : threads.Event → Option (Writers Int)
  | .delivered _ _ bs => (write_tun.step client_id w (.dequeuePkt r bs)).map Prod.fst
  | _ => some w

/-- How a step of a radio ends the process. -/
def endOf (f : Feed) : Option Ended :=
  if f.radio.ack = .aborted then some .findNackSeqNum
  else if f.over then some .rxRcvAth
  else none

/-- The process after a step of a radio. -/
def Process.fed (s : Process) (r : Int) (f : Feed) (out : List threads.Event) (w : Writers Int) :
    Process where
  batch_id_prev := f.radio.batch_id_prev
  feeds := Function.update s.feeds r f
  acks := Function.update s.acks r ((s.acks r).take out)
  writers := w
  ended := endOf f

def stepFeed (cfg : Config) (s : Process) (r : Int) (l : FeedLabel) :
    Option (Process × List Event) := do
  let (f, out) ← feedStep cfg.acks (lengths.athConfig cfg.client_id r) (s.view r) l
  let w ← out.foldlM (handOver cfg.client_id r) s.writers
  return (s.fed r f out w, out.map (.radio r))

/-- `RxRcvCell` is in no call of `EnqueuePkt`. -/
def cellIdle (cfg : Config) (s : Process) : Bool :=
  cfg.radio_ids.all fun r => match (s.feeds r).radio.prod .rcvCell with
    | .idle => true
    | _ => false

/-- A packet for a radio that the table does not have: the entry is a null pointer. -/
def stepCell (cfg : Config) (s : Process) (m : Mem) : Option (Process × List Event) :=
  match rxRcvCell cfg.client_id (athCodePkt m 0) with
  | .skip => some (s, [])
  | .aborts => some ({ s with ended := some .rxRcvCell }, [])
  | .enqueuePkt r x =>
    if r ∈ cfg.radio_ids then stepFeed cfg s r (.other (.call .rcvCell (enqueueArgs x)))
    else some ({ s with ended := some .rxRcvCell }, [])

def stepTun (cfg : Config) (s : Process) : write_tun.Label Int → Option (Process × List Event)
  | .dequeuePkt _ _ => none
  | l => (write_tun.step cfg.client_id s.writers l).map fun (w, out) =>
    ({ s with writers := w, ended := if w.aborted then some .writeTun else none },
      out.map .tun)

/-- `RxCreateDataAck` sends the list that `FindNackSeqNum` returned. The base station
of a radio has the id of the radio. -/
def stepDataAck (cfg : Config) (s : Process) (r nwrite : Int) : Option (Process × List Event) :=
  match (s.acks r).returned with
  | none => none
  | some (nack_seq_arr, end_seq) =>
    match (s.acks r).send cfg.client_id r nwrite nack_seq_arr end_seq with
    | .error e => some ({ s with ended := some (.dataAck e) }, [])
    | .ok (a, datagram) =>
      some ({ s with acks := Function.update s.acks r a }, [.dataAck r datagram])

def Process.wait (us : Nat) (s : Process) : Process :=
  { s with feeds := fun r => { s.feeds r with radio := (s.feeds r).radio.wait us } }

def step (cfg : Config) (s : Process) (l : Label) : Option (Process × List Event) :=
  if s.ended.isSome then none
  else match l with
  | .feed r l => if r ∈ cfg.radio_ids ∧ mayStep s r l then stepFeed cfg s r l else none
  | .cell m => if cellIdle cfg s then stepCell cfg s m else none
  | .tun l => stepTun cfg s l
  | .dataAck r nwrite => if r ∈ cfg.radio_ids then stepDataAck cfg s r nwrite else none
  | .tick us => some (s.wait us, [])

def client (cfg : Config) : Machine Process Label Event where
  init := Process.Fresh
  step := step cfg

/-! ## What a step can do -/

/-- The ways a step of the process can go. -/
inductive Move (cfg : Config) (s : Process) : Label → Process → List Event → Prop
  | feed {r l f out w} (hr : r ∈ cfg.radio_ids) (hl : mayStep s r l = true)
      (hf : feedStep cfg.acks (lengths.athConfig cfg.client_id r) (s.view r) l = some (f, out))
      (hw : out.foldlM (handOver cfg.client_id r) s.writers = some w) :
      Move cfg s (.feed r l) (s.fed r f out w) (out.map (.radio r))
  | cellSkip {m} (hm : rxRcvCell cfg.client_id (athCodePkt m 0) = .skip) :
      Move cfg s (.cell m) s []
  | cellEnds {m} (hm : rxRcvCell cfg.client_id (athCodePkt m 0) = .aborts ∨
        ∃ r x, rxRcvCell cfg.client_id (athCodePkt m 0) = .enqueuePkt r x ∧ r ∉ cfg.radio_ids) :
      Move cfg s (.cell m) { s with ended := some .rxRcvCell } []
  | cellCall {m r x f out w} (hr : r ∈ cfg.radio_ids)
      (hm : rxRcvCell cfg.client_id (athCodePkt m 0) = .enqueuePkt r x)
      (hf : feedStep cfg.acks (lengths.athConfig cfg.client_id r) (s.view r)
        (.other (.call .rcvCell (enqueueArgs x))) = some (f, out))
      (hw : out.foldlM (handOver cfg.client_id r) s.writers = some w) :
      Move cfg s (.cell m) (s.fed r f out w) (out.map (.radio r))
  | tun {l w out} (hl : ∀ r p, l ≠ .dequeuePkt r p)
      (hw : write_tun.step cfg.client_id s.writers l = some (w, out)) :
      Move cfg s (.tun l)
        { s with writers := w, ended := if w.aborted then some .writeTun else none }
        (out.map .tun)
  | ackSent {r nwrite nacks end_seq a datagram} (hr : r ∈ cfg.radio_ids)
      (hret : (s.acks r).returned = some (nacks, end_seq))
      (hsend : (s.acks r).send cfg.client_id r nwrite nacks end_seq =
        .ok (a, datagram)) :
      Move cfg s (.dataAck r nwrite) { s with acks := Function.update s.acks r a }
        [.dataAck r datagram]
  | ackEnds {r nwrite nacks end_seq e} (hr : r ∈ cfg.radio_ids)
      (hret : (s.acks r).returned = some (nacks, end_seq))
      (hsend : (s.acks r).send cfg.client_id r nwrite nacks end_seq = .error e) :
      Move cfg s (.dataAck r nwrite) { s with ended := some (.dataAck e) } []
  | tick {us} : Move cfg s (.tick us) (s.wait us) []

theorem stepFeed_some {cfg : Config} {s t : Process} {r : Int} {l : FeedLabel} {out : List Event}
    (h : stepFeed cfg s r l = some (t, out)) :
    ∃ f es w, feedStep cfg.acks (lengths.athConfig cfg.client_id r) (s.view r) l = some (f, es) ∧
      es.foldlM (handOver cfg.client_id r) s.writers = some w ∧
      t = s.fed r f es w ∧ out = es.map (.radio r) := by
  obtain ⟨⟨f, es⟩, hf, h⟩ := Option.bind_eq_some_iff.mp h
  obtain ⟨w, hw, h⟩ := Option.bind_eq_some_iff.mp h
  cases h
  exact ⟨f, es, w, hf, hw, rfl, rfl⟩

theorem step_move {cfg : Config} {s t : Process} {l : Label} {out : List Event}
    (h : step cfg s l = some (t, out)) : s.ended = none ∧ Move cfg s l t out := by
  unfold step at h
  split at h
  · cases h
  · rename_i hover
    refine ⟨Option.not_isSome_iff_eq_none.mp hover, ?_⟩
    split at h
    · split at h
      · rename_i hr
        obtain ⟨f, es, w, hf, hw, rfl, rfl⟩ := stepFeed_some h
        exact .feed hr.1 hr.2 hf hw
      · cases h
    · split at h
      · unfold stepCell at h
        split at h
        · cases h
          exact .cellSkip ‹_›
        · cases h
          exact .cellEnds (.inl ‹_›)
        · rename_i r x hm
          split at h
          · obtain ⟨f, es, w, hf, hw, rfl, rfl⟩ := stepFeed_some h
            exact .cellCall ‹_› hm hf hw
          · cases h
            exact .cellEnds (.inr ⟨r, x, hm, ‹_›⟩)
      · cases h
    · unfold stepTun at h
      split at h
      · cases h
      · rename_i hl
        obtain ⟨⟨w, es⟩, hw, he⟩ := Option.map_eq_some_iff.mp h
        cases he
        exact .tun hl hw
    · split at h
      · rename_i hr
        unfold stepDataAck at h
        split at h
        · cases h
        · rename_i hret
          split at h
          · cases h
            exact .ackEnds hr hret ‹_›
          · cases h
            exact .ackSent hr hret ‹_›
      · cases h
    · cases h
      exact .tick

end wspace_client.process

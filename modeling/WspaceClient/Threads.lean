-- The threads of one radio around its `RxDataBuf`: two producers call
-- `EnqueuePkt`, one consumer calls `DequeuePkt`, and one thread calls
-- `FindNackSeqNum`. A step is one lock-protected section of a thread: from
-- the lock that starts it up to the next lock, or up to a wait. Only `EnqueuePkt`
-- takes `qlock_` and the lock of its slot in one step: the pointers that it reads
-- between the two change under `qlock_` alone.
import WspaceClient.BatchInfo
import WspaceClient.Machine
import WspaceClient.RxDataBuf

namespace wspace_client.threads

open machine batch_info rx_data_buf

/-- The threads that enqueue: `RxRcvAth` of the radio, and `RxRcvCell`. -/
inductive Producer
  | rcvAth
  | rcvCell
  deriving DecidableEq

def Producer.other : Producer → Producer
  | .rcvAth => .rcvCell
  | .rcvCell => .rcvAth

/-- Where a producer is in `EnqueuePkt`. A wait is marked once its signal came. -/
inductive ProducerPc
  /-- Not in a call. -/
  | idle
  /-- Before `LockQueue`. -/
  | start (c : EnqueueArgs)
  /-- In `WaitEmpty`. -/
  | waitEmpty (c : EnqueueArgs) (signalled : Bool)
  /-- In the loop that moves the tail, with `qlock_`. -/
  | clearing (seq_num index : Nat)

/-- Where the consumer is in `DequeuePkt`. -/
inductive ConsumerPc
  /-- Not in a call. -/
  | idle
  | waitFill (signalled : Bool)
  /-- Before `LockElement`, with `qlock_`. -/
  | lockElement (index : Slot)
  /-- Between `UnLockQueue` and `WaitElementAvail`, with the element lock. -/
  | beforeWait (index : Slot)
  | waitElement (index : Slot) (signalled : Bool)
  /-- Woken, with the element lock released, before `LockQueue`. -/
  | woken (index : Slot)
  deriving DecidableEq

/-- Where the acknowledgement thread is in `FindNackSeqNum`, with the local
variables that are still needed. -/
inductive AckPc
  /-- Not in a call. -/
  | idle
  | gotBatchID (batch_id : Nat)
  | waitFill (signalled : Bool)
  /-- `head_pt` and `tail_pt` are read. -/
  | gotPointers (head_pt tail_pt : Nat)
  /-- The batch is done, so the batch id is read once more. -/
  | gotBatchInfo (head_pt tail_pt end_seq : Nat)
  /-- At `assert(end_pt < tail_pt)`. -/
  | atAssert (head_pt tail_pt end_pt end_seq : Nat)
  | aborted
  /-- The loop over the slots up to `end_pt`. -/
  | scan (index end_pt tail_pt end_seq end_time : Nat) (nacks : List Nat)
  /-- The loop over the numbers past the tail. -/
  | extra (i end_seq : Nat) (nacks : List Nat)
  /-- The loop that drops every number of a list that is too long. -/
  | overflow (rest : List Nat) (end_seq : Nat)
  deriving DecidableEq

/-- The radio: its buffer, its batch information, its threads, and the time
in microseconds. -/
structure Radio where
  buf : RxDataBuf
  batch_info : BatchInfo
  batch_id_prev : Nat
  now : Nat
  prod : Producer → ProducerPc
  cons : ConsumerPc
  ack : AckPc

def Radio.Fresh (s : Radio) : Prop :=
  s.buf.Fresh ∧ s.batch_info.Fresh ∧ s.batch_id_prev = 0 ∧ (∀ p, s.prod p = .idle) ∧
    s.cons = .idle ∧ s.ack = .idle

/-- The radio at start-up, with nothing left to chance. -/
def Radio.atStart : Radio where
  buf := ⟨0, 0, fun _ => ⟨0, .kEmpty, 0, 0⟩, fun _ => 0⟩
  batch_info := ⟨0, 0, false, 0, 0⟩
  batch_id_prev := 0
  now := 0
  prod := fun _ => .idle
  cons := .idle
  ack := .idle

theorem atStart_fresh : Radio.atStart.Fresh :=
  ⟨⟨rfl, rfl, fun _ => rfl, fun _ => ⟨rfl, rfl, rfl⟩⟩, ⟨rfl, rfl, rfl⟩, rfl, fun _ => rfl, rfl, rfl⟩

/-- A call for a packet of one byte. -/
def onePkt (seq_num : UInt32) (x : Byte) : EnqueueArgs :=
  ⟨seq_num.toNat, 1, fun _ => x, seq_num.toNat_lt, by decide⟩

/-- What a step shows. `head_pt` is always the head at the step, and `status`
the status of the slot before it. -/
inductive Event
  /-- `EnqueuePkt` passed the full check with a number past the head, inside the window. -/
  | enqueued (seq_num : Nat) (bytes : List Byte)
  /-- `EnqueuePkt` passed the full check with a number past the window. -/
  | wrapped (seq_num : Nat) (bytes : List Byte)
  /-- `EnqueuePkt` gave up the head packet of a full buffer. -/
  | fullDropped (head_pt : Nat)
  /-- `DequeuePkt` returned true; `seq_num` is the number in the slot. -/
  | delivered (head_pt seq_num : Nat) (bytes : List Byte)
  /-- `DequeuePkt` returned false; `seq_num` is the number in the slot. -/
  | gaveUp (head_pt seq_num : Nat) (status : Status)
  /-- `FindNackSeqNum` read the pointers. -/
  | pointers (head_pt tail_pt : Nat)
  /-- `FindNackSeqNum` set the slot of `seq_num` to `kDrop`. -/
  | nackDropped (head_pt seq_num : Nat) (status : Status)
  /-- `FindNackSeqNum` returned. -/
  | acked (end_seq : Nat) (nacks : List Nat)
  deriving DecidableEq

/-- The choices of the scheduler where two threads wait for one signal. -/
structure Pick where
  ack_first : Bool
  first : Producer

/-- The acknowledgement thread first, and the producer `RxRcvAth` first. -/
def Pick.ath : Pick := ⟨true, .rcvAth⟩

/-- A step of a thread, or an operation of `RxRcvAth` on the batch information. -/
inductive Label
  | call (p : Producer) (c : EnqueueArgs)
  | prod (p : Producer) (pick : Pick)
  | cons (pick : Pick)
  | ack
  | setBatchInfo (batch_id seq : Nat) (done : Bool) (ind n pkt_duration : Nat)
  | updateTimeLeft (ind n pkt_duration : Nat)
  | setDecodingDone (done : Bool)
  | tick (us : Nat)

/-- The parameters of `FindNackSeqNum`; `block_time` is in milliseconds. -/
structure Config where
  block_time : Int
  max_num_nacks : Nat

/-! ## Locks and signals -/

def ProducerPc.holdsQueue : ProducerPc → Bool
  | .clearing _ _ => true
  | _ => false

def ConsumerPc.holdsQueue : ConsumerPc → Bool
  | .lockElement _ => true
  | _ => false

/-- No thread holds `qlock_`. -/
def queueFree (s : Radio) : Bool :=
  !s.cons.holdsQueue && !(s.prod .rcvAth).holdsQueue && !(s.prod .rcvCell).holdsQueue

/-- No other thread keeps the element lock. Only the consumer keeps one past
the end of a section. -/
def elementFree (s : Radio) (i : Slot) : Bool := s.cons != .beforeWait i

def setProd (s : Radio) (p : Producer) (pc : ProducerPc) : Radio :=
  { s with prod := Function.update s.prod p pc }

def ProducerPc.asleep : ProducerPc → Bool
  | .waitEmpty _ false => true
  | _ => false

def ProducerPc.signal : ProducerPc → ProducerPc
  | .waitEmpty c _ => .waitEmpty c true
  | pc => pc

/-- `SignalEmpty` wakes one producer in `WaitEmpty`, if there is one. -/
def signalEmpty (s : Radio) (pick : Pick) : Radio :=
  let p := if (s.prod pick.first).asleep then pick.first else pick.first.other
  setProd s p (s.prod p).signal

/-- `SignalFill` wakes one thread in `WaitFill`, if there is one. -/
def signalFill (s : Radio) (pick : Pick) : Radio :=
  if s.ack = .waitFill false ∧ (pick.ack_first ∨ s.cons ≠ .waitFill false) then
    { s with ack := .waitFill true }
  else if s.cons = .waitFill false then { s with cons := .waitFill true }
  else s

/-- `SignalElementAvail` wakes the consumer if it is in `WaitElementAvail`. -/
def signalElementAvail (s : Radio) : Radio :=
  match s.cons with
  | .waitElement i _ => { s with cons := .waitElement i true }
  | _ => s

/-! ## `EnqueuePkt` -/

/-- The section that finds the buffer full: it ends in `WaitEmpty`. Both
branches of the code signal the consumer. -/
def enqueueFull (s : Radio) (p : Producer) (c : EnqueueArgs) : Option (Radio × List Event) :=
  if elementFree s (headPtMod s.buf) then
    let out := if (s.buf.book_keep_arr (headPtMod s.buf)).status = .kBlock then
      [.fullDropped s.buf.head_pt] else []
    some (setProd (signalElementAvail { s with buf := fullDrop s.buf }) p (.waitEmpty c false),
      out)
  else none

/-- The section of a number past the window: the store, the jump of the
pointers and the clearing of the other slots. -/
def enqueueWrap (s : Radio) (p : Producer) (c : EnqueueArgs) (pick : Pick) :
    Radio × List Event :=
  let s1 := signalElementAvail { s with buf := wrapAround (store s.buf c) c }
  (setProd (signalEmpty (signalFill s1 pick) pick) p .idle, [.wrapped c.seq_num c.bytes])

/-- The section of a number inside the window: the store, with a signal when
the slot was waited for, and the start of the loop that moves the tail. -/
def enqueueStore (s : Radio) (p : Producer) (c : EnqueueArgs) : Radio × List Event :=
  let stat := (s.buf.book_keep_arr (seq2Ind c.seq_num)).status
  let s1 := { s with buf := store s.buf c }
  let s2 := if stat = .kBlock ∨ stat = .kDrop then signalElementAvail s1 else s1
  let pc := if c.seq_num > s.buf.tail_pt then .clearing c.seq_num s.buf.tail_pt else .idle
  (setProd s2 p pc, [.enqueued c.seq_num c.bytes])

/-- `EnqueuePkt` with `qlock_` just taken, and the lock of a slot where it needs one,
up to its first wait or its loop. -/
def enqueue (s : Radio) (p : Producer) (c : EnqueueArgs) (pick : Pick) :
    Option (Radio × List Event) :=
  if isFull s.buf then enqueueFull s p c
  else if c.seq_num > s.buf.head_pt then
    if elementFree s (seq2Ind c.seq_num) then
      if isWrap s.buf c.seq_num then some (enqueueWrap s p c pick)
      else some (enqueueStore s p c)
    else none
  else if c.seq_num > s.buf.tail_pt then
    some (setProd s p (.clearing c.seq_num s.buf.tail_pt), [])
  else some (setProd s p .idle, [])

def stepProducer (s : Radio) (p : Producer) (pick : Pick) : Option (Radio × List Event) :=
  match s.prod p with
  | .idle => none
  | .start c | .waitEmpty c _ => if queueFree s then enqueue s p c pick else none
  | .clearing seq_num index =>
    if index < seq_num then
      if elementFree s (indMod index) then
        some (setProd { s with buf := clearRead s.buf (indMod index) } p
          (.clearing seq_num (add32 index 1)), [])
      else none
    else
      some (setProd (signalFill { s with buf := { s.buf with tail_pt := seq_num } } pick) p .idle,
        [])

/-! ## `DequeuePkt` -/

/-- The `switch` on the status of the head slot, with both locks held. -/
def dequeue (s : Radio) (index : Slot) (pick : Pick) : Radio × List Event :=
  let k := s.buf.book_keep_arr index
  match k.status with
  | .kEmpty => ({ s with buf := block s.buf index s.now, cons := .beforeWait index }, [])
  | .kBlock => ({ s with cons := .beforeWait index }, [])
  | .kOccupiedNew =>
    (signalEmpty { s with buf := deliver s.buf index, cons := .idle } pick,
      [.delivered s.buf.head_pt k.seq_num (slotBytes s.buf index)])
  | .kRead | .kDrop =>
    (signalEmpty { s with buf := giveUp s.buf index, cons := .idle } pick,
      [.gaveUp s.buf.head_pt k.seq_num k.status])

def stepConsumer (s : Radio) (pick : Pick) : Option (Radio × List Event) :=
  match s.cons with
  | .idle | .waitFill _ =>
    if queueFree s then
      if isEmpty s.buf then some ({ s with cons := .waitFill false }, [])
      else some (signalFill { s with cons := .lockElement (headPtMod s.buf) } pick, [])
    else none
  | .lockElement index => some (dequeue s index pick)
  | .beforeWait index => some ({ s with cons := .waitElement index false }, [])
  | .waitElement index _ => some ({ s with cons := .woken index }, [])
  | .woken index =>
    if queueFree s then some ({ s with cons := .lockElement (relockIndex s.buf index) }, [])
    else none

/-! ## `FindNackSeqNum` -/

/-- The return of `FindNackSeqNum`. -/
def ackReturn (s : Radio) (end_seq : Nat) (nacks : List Nat) : Radio × List Event :=
  ({ s with ack := .idle }, [.acked end_seq nacks])

/-- `GetBatchInfo`, and the choice of `end_pt` and `end_seq` that follows. -/
def ackBatchInfo (s : Radio) (head_pt tail_pt : Nat) : Radio × List Event :=
  let (highest, done, batch_info) := getBatchInfo s.batch_info s.now
  let s := { s with batch_info }
  if !done then
    if highest = 0 then ackReturn s highest []
    else if highest < tail_pt then
      let end_pt := sub32 highest 1
      if head_pt > end_pt then ackReturn s highest []
      else ({ s with ack := .atAssert head_pt tail_pt end_pt highest }, [])
    else ({ s with ack := .atAssert head_pt tail_pt (sub32 tail_pt 1) highest }, [])
  else ({ s with ack := .gotBatchInfo head_pt tail_pt (max highest tail_pt) }, [])

/-- One turn of the scan: an overdue slot is dropped, another hole is listed. -/
def ackScan (cfg : Config) (s : Radio) (index end_pt tail_pt end_seq end_time : Nat)
    (nacks : List Nat) : Radio × List Event :=
  let k := s.buf.book_keep_arr (indMod index)
  let next := fun nacks => AckPc.scan (add32 index 1) end_pt tail_pt end_seq end_time nacks
  if isHole k then
    if isOverdue k cfg.block_time end_time then
      (signalElementAvail
        { s with buf := nackDrop s.buf (indMod index) (add32 index 1), ack := next nacks },
        [.nackDropped s.buf.head_pt (add32 index 1) k.status])
    else ({ s with ack := next (nacks ++ [add32 index 1]) }, [])
  else ({ s with ack := next nacks }, [])

def stepAck (cfg : Config) (s : Radio) : Option (Radio × List Event) :=
  match s.ack with
  | .idle => some ({ s with ack := .gotBatchID s.batch_info.batch_id }, [])
  | .gotBatchID batch_id =>
    if queueFree s then
      if batch_id ≤ s.batch_id_prev ∧ isEmpty s.buf then
        some ({ s with ack := .waitFill false }, [])
      else some ({ s with ack := .gotPointers s.buf.head_pt s.buf.tail_pt },
        [.pointers s.buf.head_pt s.buf.tail_pt])
    else none
  | .waitFill _ =>
    if queueFree s then
      some (signalFill { s with ack := .gotPointers s.buf.head_pt s.buf.tail_pt }
          ⟨false, .rcvAth⟩,
        [.pointers s.buf.head_pt s.buf.tail_pt])
    else none
  | .gotPointers head_pt tail_pt => some (ackBatchInfo s head_pt tail_pt)
  | .gotBatchInfo head_pt tail_pt end_seq =>
    some ({ s with
      batch_id_prev := max s.batch_id_prev s.batch_info.batch_id
      ack := .atAssert head_pt tail_pt (sub32 tail_pt 1) end_seq }, [])
  | .atAssert head_pt tail_pt end_pt end_seq =>
    if end_pt < tail_pt then
      some ({ s with ack := .scan head_pt end_pt tail_pt end_seq s.now [] }, [])
    else some ({ s with ack := .aborted }, [])
  | .aborted => none
  | .scan index end_pt tail_pt end_seq end_time nacks =>
    if index ≤ end_pt then
      if elementFree s (indMod index) then
        some (ackScan cfg s index end_pt tail_pt end_seq end_time nacks)
      else none
    else some ({ s with ack := .extra (add32 tail_pt 1) end_seq nacks }, [])
  | .extra i end_seq nacks =>
    if i ≤ end_seq then
      some ({ s with ack := .extra (add32 i 1) end_seq (nacks ++ [i]) }, [])
    else if nacks.length ≥ cfg.max_num_nacks then
      some ({ s with ack := .overflow nacks end_seq }, [])
    else some (ackReturn s end_seq nacks)
  | .overflow [] end_seq => some (ackReturn s end_seq [])
  | .overflow (q :: rest) end_seq =>
    if elementFree s (seq2Ind q) then
      some (signalElementAvail
          { s with buf := nackDrop s.buf (seq2Ind q) q, ack := .overflow rest end_seq },
        [.nackDropped s.buf.head_pt q (s.buf.book_keep_arr (seq2Ind q)).status])
    else none

/-! ## The radio -/

/-- One step of the radio. A failed assertion ends the process. -/
def step (cfg : Config) (s : Radio) (l : Label) : Option (Radio × List Event) :=
  if s.ack = .aborted then none
  else match l with
  | .call p c =>
    match s.prod p with
    | .idle => some (setProd s p (.start c), [])
    | _ => none
  | .prod p pick => stepProducer s p pick
  | .cons pick => stepConsumer s pick
  | .ack => stepAck cfg s
  | .setBatchInfo batch_id seq done ind n us =>
    some ({ s with batch_info := setBatchInfo s.batch_info s.now batch_id seq done ind n us }, [])
  | .updateTimeLeft ind n us =>
    some ({ s with batch_info := updateTimeLeft s.batch_info s.now ind n us }, [])
  | .setDecodingDone done =>
    some ({ s with batch_info := setDecodingDone s.batch_info done }, [])
  | .tick us => some ({ s with now := s.now + us }, [])

def radio (cfg : Config) : Machine Radio Label Event where
  init := Radio.Fresh
  step := step cfg

end wspace_client.threads

-- `BatchInfo`: what `RxRcvAth` tells the acknowledgement thread about the
-- batch it receives. Every function here runs under the lock of the object.
import WspaceClient.Words

namespace wspace_client.batch_info

/-- Times are in microseconds. The constructor leaves `cur_recv_time` and
`time_left` unset, so they can be anything until the first `setBatchInfo`. -/
structure BatchInfo where
  batch_id : Nat
  highest_decoded_seq : Nat
  decoding_done : Bool
  cur_recv_time : Int
  time_left : Int

/-- A `BatchInfo` as its constructor leaves it. -/
def BatchInfo.Fresh (b : BatchInfo) : Prop :=
  b.batch_id = 0 ∧ b.highest_decoded_seq = 0 ∧ b.decoding_done = false

/-- The duration of the packets that are still to come is a `uint32` product. -/
def updateTimeLeft (b : BatchInfo) (now : Nat) (ind n pkt_duration : Nat) : BatchInfo :=
  { b with time_left := u32 (pkt_duration * (n - ind - 1)), cur_recv_time := now }

def setBatchInfo (b : BatchInfo) (now : Nat) (batch_id seq : Nat) (decoding_done : Bool)
    (ind n pkt_duration : Nat) : BatchInfo :=
  updateTimeLeft { b with batch_id, highest_decoded_seq := seq, decoding_done } now ind n
    pkt_duration

def isTimeOut (b : BatchInfo) (now : Nat) : Bool :=
  decide ((now : Int) - b.cur_recv_time > b.time_left)

/-- `decoding_done()` keeps a timeout that it sees. -/
def decodingDone (b : BatchInfo) (now : Nat) : BatchInfo :=
  if b.decoding_done then b else { b with decoding_done := isTimeOut b now }

/-- `GetBatchInfo`: the highest sequence number of the batches before this
one, whether the batch is done, and the object after the read. -/
def getBatchInfo (b : BatchInfo) (now : Nat) : Nat × Bool × BatchInfo :=
  let b' := decodingDone b now
  (b.highest_decoded_seq, b'.decoding_done, b')

def setDecodingDone (b : BatchInfo) (decoding_done : Bool) : BatchInfo :=
  { b with decoding_done }

@[simp] theorem decodingDone_batch_id (b : BatchInfo) (now : Nat) :
    (decodingDone b now).batch_id = b.batch_id := by
  unfold decodingDone
  split <;> rfl

@[simp] theorem decodingDone_highest (b : BatchInfo) (now : Nat) :
    (decodingDone b now).highest_decoded_seq = b.highest_decoded_seq := by
  unfold decodingDone
  split <;> rfl

end wspace_client.batch_info

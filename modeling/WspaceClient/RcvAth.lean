-- `RxRcvAth`: what the client does with one packet of the downlink. The shared
-- objects of the radio are used through events, in the order of the calls.
import WspaceClient.CodeInfo

namespace wspace_client

/-- A computation returns only after its first part has. -/
theorem ok_of_bind {ε α β : Type} {x : Except ε α} {f : α → Except ε β} {r : β}
    (h : x >>= f = .ok r) : ∃ a, x = .ok a ∧ f a = .ok r := by
  cases x with
  | error e => cases h
  | ok a => exact ⟨a, rfl, h⟩

end wspace_client

namespace wspace_client.rcv_ath

open fec

/-- The size where `tun.h` was read last. -/
def PKT_SIZE : Nat := 2000

def MAX_BATCH_SIZE : Nat := 10

def ATH_CODE : Nat := 2

/-- A packet of the downlink. `lens` and `payload` are what stands behind the
header, and `nread` is the length that was read. -/
structure AthCodePkt where
  is_good : Bool
  type : Nat
  raw_seq : Nat
  rate : Nat
  bs_id : Int
  client_id : Int
  batch_id : Nat
  start_seq : Nat
  ind : Nat
  k : Nat
  n : Nat
  lens : Nat → Nat
  payload : Nat → Gf
  nread : Nat

/-- The client, the radio, and the size of the header in memory. -/
structure Config where
  client_id : Int
  radio_id : Int
  ATH_CODE_HEADER_SIZE : Nat

/-- The length that `PushPkt` gets, which is a `uint16`. -/
def payloadLen (cfg : Config) (p : AthCodePkt) : Nat :=
  (((p.nread : Int) - (cfg.ATH_CODE_HEADER_SIZE + p.k * 2 : Nat)) % 2 ^ 16).toNat

/-- The assertions of `ParseHeader`. -/
def parseHeader (p : AthCodePkt) : Bool :=
  p.type = ATH_CODE && decide (p.batch_id > 0 ∧ p.start_seq > 0 ∧ p.ind < p.n ∧ p.k ≤ p.n ∧
    p.k > 0 ∧ p.k ≤ MAX_BATCH_SIZE)

/-- The rate times 10. Another code ends the process. -/
def getRate (rate : Nat) : Option Nat :=
  match rate with
  | 0x1B => some 10
  | 0x1A => some 20
  | 0x19 => some 55
  | 0x18 => some 110
  | 0x0B => some 60
  | 0x0F => some 90
  | 0x0A => some 120
  | 0x0E => some 180
  | 0x09 => some 240
  | 0x0D => some 360
  | 0x08 => some 480
  | 0x0C => some 540
  | _ => none

def DIFS_80211ag : Nat := 28

def SLOT_TIME : Nat := 9

/-- In microseconds. The quotient is a double in the source, cut to a `uint32`. -/
def perPktDuration (nread rate : Nat) : Nat :=
  u32 (nread * 80 / rate + DIFS_80211ag + SLOT_TIME * 5)

def isIndExist (arr : Nat → Nat) (len val : Nat) : Bool := (List.range len).any fun i => arr i = val

/-- How the thread ends the process. -/
inductive Abort
  /-- An assertion of `ParseHeader`. -/
  | parseHeader
  /-- `assert(*radio_id == bs_id)`. -/
  | radioId
  /-- An invalid rate. -/
  | getRate
  /-- `assert(k_ > 0)` of `CopyLens`, or a copy past the end of `lens_`. -/
  | copyLens
  /-- `assert` of `PushPkt`. -/
  | pushPkt
  /-- A copy of `PushPkt` past the end of a buffer. -/
  | overflow
  /-- `DecodeBatch` without a code. -/
  | noCode
  /-- `assert` of `PopPkt`. -/
  | popPkt
  deriving DecidableEq

/-- A packet for `EnqueuePkt`: the first `len` elements of `buf`. -/
structure NativePkt where
  seq_num : Nat
  len : Nat
  buf : Nat → Gf

/-- A call on a shared object. `batch_id` is the current batch. -/
inductive Event
  /-- `PushPkts` of `raw_pkt_buf`. -/
  | pushPkts (raw_seq : Nat)
  | setBsId (bs_id : Int)
  | setBatchInfo (batch_id seq : Nat) (decoding_done : Bool) (ind n pkt_duration : Nat)
  | updateTimeLeft (ind n pkt_duration : Nat)
  | setDecodingDone (decoding_done : Bool)
  | enqueuePkt (batch_id : Nat) (p : NativePkt)
  /-- `DecodeBatch`, with the indices before it and the batch after it. -/
  | decodeBatch (batch_id : Nat) (inds : List Nat) (batch : Nat → Nat → Gf)

/-- The local variables of the thread, and its decoder. -/
structure RcvAth where
  batch_id : Nat
  start_seq : Nat
  decoding_done : Bool
  early_decoding_cnt : Nat
  early_decoding_inds : Nat → Nat
  decoder : CodeInfo

/-- Before the first packet. The arrays of the decoder can hold anything. -/
structure RcvAth.Fresh (s : RcvAth) : Prop where
  batch_id : s.batch_id = 0
  start_seq : s.start_seq = 0
  decoding_done : s.decoding_done = false
  early : s.early_decoding_cnt = 0
  codec : s.decoder.codec_type = .kDecoder
  max_batch_size : s.decoder.max_batch_size = MAX_BATCH_SIZE
  pkt_size : s.decoder.pkt_size = PKT_SIZE
  cur_ind : s.decoder.cur_ind = 0

/-- A packet of a newer batch starts that batch. -/
def newBatch (s : RcvAth) (p : AthCodePkt) (per_pkt_duration : Nat) :
    Except Abort (RcvAth × List Event) :=
  match copyLens (setCodeInfo (clearInfo s.decoder) p.k p.n p.start_seq) p.lens with
  | none => .error .copyLens
  | some decoder =>
    let start_seq := if p.start_seq > s.start_seq then p.start_seq else s.start_seq
    .ok (⟨p.batch_id, start_seq, false, 0, fun _ => 0, decoder⟩,
      [.setBatchInfo p.batch_id (sub32 start_seq 1) false p.ind p.n per_pkt_duration])

/-- A native packet is enqueued before the batch is decoded. -/
def enqueueNative (s : RcvAth) (p : AthCodePkt) : RcvAth × List Event :=
  if p.ind < p.k then
    ({ s with
        early_decoding_inds := Function.update s.early_decoding_inds s.early_decoding_cnt p.ind
        early_decoding_cnt := s.early_decoding_cnt + 1 },
      [.enqueuePkt s.batch_id ⟨add32 p.start_seq p.ind, s.decoder.lens p.ind, p.payload⟩])
  else (s, [])

/-- The loop over the native packets that did not come as themselves. -/
def enqueueLate (s : RcvAth) (p : AthCodePkt) :
    CodeInfo → List Nat → Except Abort (CodeInfo × List Event)
  | d, [] => .ok (d, [])
  | d, i :: is =>
    if !isIndExist s.early_decoding_inds s.early_decoding_cnt i then
      match popPkt d with
      | none => .error .popPkt
      | some (buf, len, d) => do
        let (d, out) ← enqueueLate s p d is
        return (d, .enqueuePkt s.batch_id ⟨add32 p.start_seq i, len, buf⟩ :: out)
    else enqueueLate s p (moveToNextPkt d) is

def decodeLate (s : RcvAth) (p : AthCodePkt) : Except Abort (CodeInfo × List Event) :=
  match decodeBatch s.decoder with
  | none => .error .noCode
  | some (_, decoder) => do
    let (d, out) ← enqueueLate s p decoder (List.range p.k)
    return (d, .decodeBatch s.batch_id ((List.range p.k).map s.decoder.inds) decoder.coded_batch
      :: out)

/-- There are `k` coded packets. -/
def finishBatch (s : RcvAth) (p : AthCodePkt) : Except Abort (RcvAth × List Event) := do
  let (decoder, out) ← if s.early_decoding_cnt ≠ p.k then decodeLate s p else pure (s.decoder, [])
  return ({ s with decoder, decoding_done := true }, out ++ [.setDecodingDone true])

/-- A coded packet that is of use for its batch. -/
def pushCoded (cfg : Config) (s : RcvAth) (p : AthCodePkt) : Except Abort (RcvAth × List Event) :=
  match pushPkt s.decoder (payloadLen cfg p) p.payload p.ind with
  | none => .error .overflow
  | some (false, _) => .error .pushPkt
  | some (true, decoder) =>
    let (s, out) := enqueueNative { s with decoder } p
    if s.decoder.cur_ind ≥ p.k then do
      let (s, out') ← finishBatch s p
      return (s, out ++ out')
    else .ok (s, out)

/-- The choice between a stale batch, a new one and the current one. -/
def rcvBatch (cfg : Config) (s : RcvAth) (p : AthCodePkt) (per_pkt_duration : Nat) :
    Except Abort (RcvAth × List Event) :=
  if s.batch_id > p.batch_id then .ok (s, [])
  else if s.batch_id < p.batch_id then do
    let (s, out) ← newBatch s p per_pkt_duration
    let (s, out') ← pushCoded cfg s p
    return (s, out ++ out')
  else
    let out := if s.decoding_done then [] else [.updateTimeLeft p.ind p.n per_pkt_duration]
    if s.decoding_done || isIndExist s.decoder.inds s.decoder.cur_ind p.ind then .ok (s, out)
    else do
      let (s, out') ← pushCoded cfg s p
      return (s, out ++ out')

/-- One turn of the loop of `RxRcvAth`. -/
def rxRcvAth (cfg : Config) (s : RcvAth) (p : AthCodePkt) : Except Abort (RcvAth × List Event) :=
  if !p.is_good then .ok (s, [])
  else if !parseHeader p then .error .parseHeader
  else if p.client_id ≠ cfg.client_id then .ok (s, [])
  else if cfg.radio_id ≠ p.bs_id then .error .radioId
  else match getRate p.rate with
    | none => .error .getRate
    | some rate => do
      let (s, out) ← rcvBatch cfg s p (perPktDuration p.nread rate)
      return (s, .pushPkts p.raw_seq :: .setBsId p.bs_id :: out)

/-- The packets of a whole sequence. -/
def receive (cfg : Config) : RcvAth → List AthCodePkt → Except Abort (RcvAth × List Event)
  | s, [] => .ok (s, [])
  | s, p :: ps => do
    let (s, out) ← rxRcvAth cfg s p
    let (s, out') ← receive cfg s ps
    return (s, out ++ out')

end wspace_client.rcv_ath

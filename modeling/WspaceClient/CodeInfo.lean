-- `CodeInfo`: the batch of packets around the erasure code. What an encoder
-- codes, a decoder gives back, from any `k` coded packets.
import WspaceClient.Erasure

namespace wspace_client.fec

inductive Codec
  | kEncoder
  | kDecoder
  deriving DecidableEq

/-- A batch. A buffer of packets holds `pkt_size` elements for each packet. -/
structure CodeInfo where
  codec_type : Codec
  max_batch_size : Nat
  pkt_size : Nat
  k : Nat
  n : Nat
  sz : Nat
  start_seq : Nat
  inds : Nat → Nat
  lens : Nat → Nat
  cur_ind : Nat
  original_batch : Nat → Nat → Gf
  coded_batch : Nat → Nat → Gf

def clearInfo (c : CodeInfo) : CodeInfo :=
  { c with
    k := 0, n := 0, sz := 0, start_seq := 0, cur_ind := 0
    original_batch := match c.codec_type with
      | .kEncoder => fun _ _ => 0
      | .kDecoder => c.original_batch
    coded_batch := fun _ _ => 0
    inds := fun _ => 0
    lens := fun _ => 0 }

def setCodeInfo (c : CodeInfo) (k n start_seq : Nat) : CodeInfo := { c with k, n, start_seq }

/-- Stores a packet as the next one of its batch. -/
def CodeInfo.storeNext (c : CodeInfo) (len : Nat) (src : Nat → Gf) : CodeInfo :=
  let store := fun batch : Nat → Nat → Gf =>
    Function.update batch c.cur_ind (bcopy src (batch c.cur_ind) len)
  let c := match c.codec_type with
    | .kEncoder => { c with original_batch := store c.original_batch }
    | .kDecoder => { c with coded_batch := store c.coded_batch }
  { c with sz := if c.sz < len then len else c.sz, cur_ind := c.cur_ind + 1 }

/-- The packets that fit in the batch of a push. -/
def CodeInfo.rows (c : CodeInfo) : Nat :=
  match c.codec_type with
  | .kEncoder => c.max_batch_size
  | .kDecoder => GF_SIZE + 1

/-- The result tells whether the packet was accepted. There is none when the
copy would leave the buffers. -/
def pushPkt (c : CodeInfo) (len : Nat) (src : Nat → Gf) (ind : Nat) : Option (Bool × CodeInfo) :=
  if len ≤ 0 then some (false, c)
  else match c.codec_type with
    | .kEncoder =>
      if ind ≠ 0 ∨ c.cur_ind ≥ c.k then some (false, c)
      else if c.cur_ind ≥ c.rows ∨ len > c.pkt_size then none
      else
        let c := { c with lens := Function.update c.lens c.cur_ind len }
        some (true, c.storeNext len src)
    | .kDecoder =>
      if ind ≥ c.n ∨ c.cur_ind ≥ c.n then some (false, c)
      else if c.cur_ind ≥ c.rows ∨ len > c.pkt_size then none
      else
        let c := { c with inds := Function.update c.inds c.cur_ind ind }
        some (true, c.storeNext len src)

/-- A packet of the coded batch, with its length, or nothing at the end. -/
def popPkt (c : CodeInfo) : Option ((Nat → Gf) × Nat × CodeInfo) :=
  match c.codec_type with
  | .kEncoder =>
    if c.cur_ind ≥ c.n then none
    else some (c.coded_batch c.cur_ind, c.sz, { c with cur_ind := c.cur_ind + 1 })
  | .kDecoder =>
    if c.cur_ind ≥ c.k then none
    else some (c.coded_batch c.cur_ind, c.lens c.cur_ind, { c with cur_ind := c.cur_ind + 1 })

/-- One turn of the loop of `EncodeBatch`. -/
def encodePkt (code : FecParms) (c : CodeInfo) (i : Nat) : CodeInfo :=
  let inds := Function.update c.inds i i
  let coded := fecEncode code c.original_batch (c.coded_batch i) (inds i) c.sz
  { c with inds, coded_batch := Function.update c.coded_batch i coded }

/-- There is no result when `fec_new` gives no code. -/
def encodeBatch (c : CodeInfo) : Option CodeInfo := do
  let code ← fecNew c.k c.n
  let c := (List.range c.n).foldl (encodePkt code) c
  return { c with cur_ind := 0 }

/-- The first result is the error of `fec_decode`. -/
def decodeBatch (c : CodeInfo) : Option (Bool × CodeInfo) := do
  let code ← fecNew c.k c.n
  let (error, coded_batch, inds) := fecDecode code c.coded_batch c.inds c.sz
  return (error, { c with coded_batch, inds, cur_ind := 0 })

/-- There is no result when `assert(k_ > 0)` fails, or the copy leaves the array. -/
def copyLens (c : CodeInfo) (lens : Nat → Nat) : Option CodeInfo :=
  if c.k = 0 ∨ c.k > c.max_batch_size then none
  else some { c with lens := fun i => if i < c.k then lens i else c.lens i }

def moveToNextPkt (c : CodeInfo) : CodeInfo := { c with cur_ind := c.cur_ind + 1 }

/-! ## The pushes and pops that are accepted -/

theorem pushPkt_encoder {c : CodeInfo} {len : Nat} (src : Nat → Gf) (hc : c.codec_type = .kEncoder)
    (hcur : c.cur_ind < c.k) (hrows : c.k ≤ c.max_batch_size) (hlen : 1 ≤ len)
    (hpkt : len ≤ c.pkt_size) :
    pushPkt c len src 0 = some (true, { c with
      lens := Function.update c.lens c.cur_ind len
      original_batch := Function.update c.original_batch c.cur_ind
        (bcopy src (c.original_batch c.cur_ind) len)
      sz := if c.sz < len then len else c.sz
      cur_ind := c.cur_ind + 1 }) := by
  have hroom : ¬(c.cur_ind ≥ c.rows ∨ len > c.pkt_size) := by
    simp only [CodeInfo.rows, hc]
    omega
  unfold pushPkt
  rw [if_neg (by omega)]
  simp only [hc, CodeInfo.storeNext]
  rw [if_neg (by omega), if_neg hroom]

theorem pushPkt_decoder {c : CodeInfo} {len ind : Nat} (src : Nat → Gf)
    (hc : c.codec_type = .kDecoder) (hind : ind < c.n) (hcur : c.cur_ind < c.n)
    (hn : c.n ≤ GF_SIZE + 1) (hlen : 1 ≤ len) (hpkt : len ≤ c.pkt_size) :
    pushPkt c len src ind = some (true, { c with
      inds := Function.update c.inds c.cur_ind ind
      coded_batch := Function.update c.coded_batch c.cur_ind
        (bcopy src (c.coded_batch c.cur_ind) len)
      sz := if c.sz < len then len else c.sz
      cur_ind := c.cur_ind + 1 }) := by
  have hroom : ¬(c.cur_ind ≥ c.rows ∨ len > c.pkt_size) := by
    simp only [CodeInfo.rows, hc]
    omega
  unfold pushPkt
  rw [if_neg (by omega)]
  simp only [hc, CodeInfo.storeNext]
  rw [if_neg (by omega), if_neg hroom]

theorem popPkt_decoder {c : CodeInfo} (hc : c.codec_type = .kDecoder) (hcur : c.cur_ind < c.k) :
    popPkt c = some (c.coded_batch c.cur_ind, c.lens c.cur_ind,
      { c with cur_ind := c.cur_ind + 1 }) := by
  unfold popPkt
  simp only [hc]
  exact if_neg (by omega)

theorem decodeBatch_some {c : CodeInfo} {code : FecParms} (hcode : fecNew c.k c.n = some code) :
    ∃ error coded_batch inds,
      decodeBatch c = some (error, { c with coded_batch, inds, cur_ind := 0 }) := by
  unfold decodeBatch
  rw [hcode]
  exact ⟨_, _, _, rfl⟩

end wspace_client.fec

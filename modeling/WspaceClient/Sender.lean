-- The other side of the downlink, as the code of the client's own libraries
-- makes it: a sender numbers its packets, codes runs of them with `CodeInfo`, and
-- puts an `AthCodeHeader` before each coded packet.
import WspaceClient.CodeHeader
import WspaceClient.RoundTrip
import WspaceClient.RxDataBuf

namespace wspace_client.sender

open bytes code_header rcv_ath fec

/-! ## Batches -/

/-- A batch of the packets `start_seq`, ..., `start_seq + k - 1` of a sender. -/
structure Batch (pkt : Nat → List Byte) where
  batch_id : Nat
  start_seq : Nat
  k : Nat
  n : Nat
  bs_id : Int
  client_id : Int
  batch_id_pos : 0 < batch_id
  batch_id_lt : batch_id < 2 ^ 32
  start_seq_pos : 0 < start_seq
  fits : start_seq + k ≤ 2 ^ 32
  k_pos : 1 ≤ k
  k_max : k ≤ MAX_BATCH_SIZE
  k_le : k ≤ n
  n_le : n ≤ 255
  bs_id_int : -2 ^ 31 ≤ bs_id ∧ bs_id < 2 ^ 31
  client_id_int : -2 ^ 31 ≤ client_id ∧ client_id < 2 ^ 31
  /-- No packet is empty or longer than a slot of the client. -/
  lens : ∀ i < k, 1 ≤ (pkt (start_seq + i)).length ∧
    (pkt (start_seq + i)).length ≤ rx_data_buf.PKT_SIZE

variable {pkt : Nat → List Byte}

/-- The bytes of a packet, as the elements that are coded. -/
def toGf (p : List Byte) : List Gf := p

theorem toGf_length (p : List Byte) : (toGf p).length = p.length := rfl

/-- The packet `i` of a batch. -/
def Batch.native (b : Batch pkt) (i : Nat) : List Gf := toGf (pkt (b.start_seq + i))

/-- The packets of a batch, in the order of their numbers. -/
def Batch.pkts (b : Batch pkt) : List (List Gf) := (List.range b.k).map b.native

/-- An encoder with the sizes of the client's code. -/
structure IsEncoder (e : CodeInfo) : Prop where
  codec : e.codec_type = .kEncoder
  max_batch_size : e.max_batch_size = MAX_BATCH_SIZE
  pkt_size : e.pkt_size = PKT_SIZE

theorem Batch.n_int (b : Batch pkt) : (b.n : Int) < 2 ^ 31 := by
  have hn := b.n_le
  omega

theorem Batch.start_seq_lt (b : Batch pkt) : b.start_seq < 2 ^ 32 := by
  have hk := b.k_pos
  have hfits := b.fits
  omega

/-- The arguments of `SetHeader` for the coded packet `i`. -/
def Batch.header (b : Batch pkt) (lens : Nat → Nat) (i : Nat) : HeaderArgs where
  batch_id := b.batch_id
  start_seq := b.start_seq
  type := BitVec.ofNat 8 ATH_CODE
  ind := i
  k := b.k
  n := b.n
  len_arr := fun j => lens j % 2 ^ 16
  bs_id := b.bs_id
  client_id := b.client_id
  batch_id_lt := b.batch_id_lt
  start_seq_lt := b.start_seq_lt
  n_lt := b.n_int
  len_lt := fun _ => Nat.mod_lt _ (Nat.two_pow_pos 16)
  bs_id_int := b.bs_id_int
  client_id_int := b.client_id_int

/-- A header in memory, with `len` bytes of payload behind it. -/
def withPayload (m : Mem) (a : HeaderArgs) (len : Nat) (payload : Nat → Byte) : Option Mem :=
  (setHeader m a).map fun m => copy m (getPayloadStart m) len payload

/-- The memory and the length of the coded packet `i` of a batch. What stood in
the memory before, and what the encoder held before, can be anything. -/
def Datagram (b : Batch pkt) (i : Nat) (m : Mem) (nread : Nat) : Prop :=
  ∃ m0 e0 e, IsEncoder e0 ∧ encoded e0 b.n b.start_seq b.pkts = some e ∧ i < b.n ∧
    withPayload m0 (b.header e.lens i) e.sz (e.coded_batch i) = some m ∧
    nread = ATH_CODE_HEADER_SIZE + 2 * b.k + e.sz

/-- The memory of the native packet `i` as the cellular link carries it. -/
def Duplicate (b : Batch pkt) (i : Nat) (m : Mem) : Prop :=
  ∃ m0 lens, (∀ j < b.k, lens j = (b.native j).length) ∧ i < b.k ∧
    withPayload m0 (b.header lens i) (b.native i).length (bytes (b.native i)) = some m

/-! ## Every encoder codes a batch the same way -/

theorem Batch.pkts_length (b : Batch pkt) : b.pkts.length = b.k := by simp [Batch.pkts]

theorem Batch.pkts_get (b : Batch pkt) {i : Nat} (hi : i < b.k) :
    b.pkts[i]? = some (b.native i) := by
  unfold Batch.pkts
  rw [List.getElem?_map, List.getElem?_range hi]
  rfl

/-- The packets fit the buffers of the encoder. -/
theorem Batch.pkt_fits (b : Batch pkt) {p : List Gf} (hp : p ∈ b.pkts) :
    1 ≤ p.length ∧ p.length ≤ PKT_SIZE := by
  obtain ⟨i, hi, rfl⟩ := List.mem_map.mp hp
  obtain ⟨h1, h2⟩ := b.lens i (List.mem_range.mp hi)
  refine ⟨h1, ?_⟩
  unfold rx_data_buf.PKT_SIZE at h2
  unfold PKT_SIZE
  exact Nat.le_trans h2 (by decide)

theorem Batch.code_made (b : Batch pkt) :
    ∃ code, fecNew b.pkts.length b.n = some code ∧ code.Made b.pkts.length b.n := by
  have hk := b.k_pos
  have hkn := b.k_le
  have hn := b.n_le
  rw [b.pkts_length]
  exact fecNew_made hk hkn (by unfold GF_SIZE GF_BITS; omega)

/-- Whatever an encoder held before, it codes the packets of the batch. -/
theorem Batch.encoded_some (b : Batch pkt) {e0 : CodeInfo} (he : IsEncoder e0) {code : FecParms}
    (hcode : fecNew b.pkts.length b.n = some code) (hmade : code.Made b.pkts.length b.n) :
    ∃ e, encoded e0 b.n b.start_seq b.pkts = some e ∧ Coded code b.pkts e := by
  have hlen := b.pkts_length
  have hk := b.k_pos
  have hmax := b.k_max
  refine encoded_coded b.start_seq he.codec ?_ ?_ ?_ hcode hmade
  · intro hnil
    rw [hnil, List.length_nil] at hlen
    omega
  · rw [hlen, he.max_batch_size]
    exact hmax
  · intro p hp
    rw [he.pkt_size]
    exact b.pkt_fits hp

/-- The batch as an encoder of the constructor leaves it. -/
def Batch.coded (b : Batch pkt) : CodeInfo :=
  (encoded (newCodeInfo .kEncoder) b.n b.start_seq b.pkts).getD (newCodeInfo .kEncoder)

theorem newCodeInfo_isEncoder : IsEncoder (newCodeInfo .kEncoder) := ⟨rfl, rfl, rfl⟩

theorem Batch.coded_spec (b : Batch pkt) {code : FecParms}
    (hcode : fecNew b.pkts.length b.n = some code) (hmade : code.Made b.pkts.length b.n) :
    Coded code b.pkts b.coded := by
  obtain ⟨e, he, hcoded⟩ := b.encoded_some newCodeInfo_isEncoder hcode hmade
  unfold Batch.coded
  rw [he]
  exact hcoded

theorem Coded.sz_eq {code : FecParms} {pkts : List (List Gf)} {e e' : CodeInfo}
    (h : Coded code pkts e) (h' : Coded code pkts e') : e.sz = e'.sz := by
  have hle : ∀ {e e' : CodeInfo}, Coded code pkts e → Coded code pkts e' → e.sz ≤ e'.sz := by
    intro e e' h h'
    obtain ⟨p, hp, hsz⟩ := h.sz_mem
    obtain ⟨i, hi⟩ := List.mem_iff_getElem?.mp hp
    rw [hsz]
    exact (h'.lens i p hi).2
  exact Nat.le_antisymm (hle h h') (hle h' h)

/-- What two encoders make of a batch is the same, as far as it is sent. -/
structure SameCoding (k n : Nat) (e e' : CodeInfo) : Prop where
  sz : e.sz = e'.sz
  lens : ∀ i < k, e.lens i = e'.lens i
  batch : ∀ i < n, ∀ t < e'.sz, e.coded_batch i t = e'.coded_batch i t

/-- An encoder keeps nothing of the batches before. -/
theorem Batch.encoded_same (b : Batch pkt) {e0 e : CodeInfo} (he0 : IsEncoder e0)
    (he : encoded e0 b.n b.start_seq b.pkts = some e) : SameCoding b.k b.n e b.coded := by
  obtain ⟨code, hcode, hmade⟩ := b.code_made
  obtain ⟨e1, he1, hcoded⟩ := b.encoded_some he0 hcode hmade
  rw [he] at he1
  cases he1
  have hspec := b.coded_spec hcode hmade
  have hsz := Coded.sz_eq hcoded hspec
  refine ⟨hsz, fun i hi => ?_, fun i hi t ht => ?_⟩
  · rw [(hcoded.lens i _ (b.pkts_get hi)).1, (hspec.lens i _ (b.pkts_get hi)).1]
  · have hi : i < code.n := by
      rw [hmade.eq_n]
      exact hi
    rw [hcoded.batch i hi t (by omega), hspec.batch i hi t ht]

theorem Batch.coded_lens (b : Batch pkt) {i : Nat} (hi : i < b.k) :
    b.coded.lens i = (b.native i).length ∧ (b.native i).length ≤ b.coded.sz := by
  obtain ⟨code, hcode, hmade⟩ := b.code_made
  exact (b.coded_spec hcode hmade).lens i _ (b.pkts_get hi)

theorem Batch.coded_sz (b : Batch pkt) : 1 ≤ b.coded.sz ∧ b.coded.sz ≤ rx_data_buf.PKT_SIZE := by
  obtain ⟨code, hcode, hmade⟩ := b.code_made
  obtain ⟨p, hp, hsz⟩ := (b.coded_spec hcode hmade).sz_mem
  obtain ⟨i, hi, rfl⟩ := List.mem_map.mp hp
  rw [hsz]
  exact b.lens i (List.mem_range.mp hi)

/-- The first `k` coded packets are the packets themselves. -/
theorem Batch.coded_native (b : Batch pkt) {i t : Nat} (hi : i < b.k)
    (ht : t < (b.native i).length) : b.coded.coded_batch i t = bytes (b.native i) t := by
  obtain ⟨code, hcode, hmade⟩ := b.code_made
  have hspec := b.coded_spec hcode hmade
  have hle := (b.coded_lens hi).2
  have hlen := b.pkts_length
  have hk := hmade.eq_k
  have hkn := b.k_le
  have hin : i < code.n := by
    rw [hmade.eq_n]
    omega
  have hik : i < code.k := by omega
  rw [hspec.batch i hin t (by omega), Finset.sum_eq_single (⟨i, hik⟩ : Fin code.k)]
  · rw [hmade.top i (by omega), if_pos rfl, one_mul, List.getD_eq_getElem?_getD, b.pkts_get hi]
    rfl
  · intro l _ hne
    have hne' : i ≠ l := fun he => hne (Fin.ext he.symm)
    rw [hmade.top i (by omega), if_neg hne', zero_mul]
  · intro hno
    exact absurd (Finset.mem_univ _) hno

/-! ## What the client reads -/

/-- A packet with the header of the batch and the index `i`. -/
structure HeaderOf (b : Batch pkt) (i : Nat) (p : AthCodePkt) : Prop where
  parsed : parseHeader p = true
  batch_id : p.batch_id = b.batch_id
  start_seq : p.start_seq = b.start_seq
  ind : p.ind = i
  k : p.k = b.k
  n : p.n = b.n
  bs_id : p.bs_id = b.bs_id
  client_id : p.client_id = b.client_id
  lens : ∀ j < b.k, p.lens j = (b.native j).length

/-- A packet of the downlink, as the client takes it apart. -/
structure CodedPkt (b : Batch pkt) (p : AthCodePkt) : Prop where
  header : HeaderOf b p.ind p
  ind_lt : p.ind < b.n
  payload : ∀ t < b.coded.sz, p.payload t = b.coded.coded_batch p.ind t
  nread : p.nread = ATH_CODE_HEADER_SIZE + 2 * b.k + b.coded.sz

theorem Batch.header_admitted (b : Batch pkt) (lens : Nat → Nat) {i : Nat} (hi : i < b.n) :
    (b.header lens i).Admitted := by
  have hb := b.batch_id_pos
  have hs := b.start_seq_pos
  have hk := b.k_le
  unfold HeaderArgs.Admitted Batch.header
  dsimp only
  omega

/-- Every packet of a batch can be made, over any memory. -/
theorem Batch.withPayload_made (b : Batch pkt) (lens : Nat → Nat) {i : Nat} (hi : i < b.n)
    (len : Nat) (payload : Nat → Byte) (m old : Mem) :
    withPayload m (b.header lens i) len payload =
      some ((withPayload m (b.header lens i) len payload).getD old) := by
  unfold withPayload setHeader
  rw [if_pos (b.header_admitted lens hi)]
  rfl

/-- A memory depends on the lengths and the bytes that are sent. -/
theorem Batch.withPayload_congr (b : Batch pkt) {lens lens' : Nat → Nat}
    (hl : ∀ j < b.k, lens j = lens' j) {len : Nat} {payload payload' : Nat → Byte}
    (hp : ∀ t < len, payload t = payload' t) (m : Mem) (i : Nat) :
    withPayload m (b.header lens i) len payload =
      withPayload m (b.header lens' i) len payload' := by
  have hk : read (setFields m (b.header lens i)) K 1 = b.k := by
    have hmax := b.k_max
    rw [(setFields_fields m (b.header lens i)).k]
    exact Int.ofNat_inj.mp (uint8_eq (x := (b.header lens i).k) (Int.natCast_nonneg b.k)
      (by show (b.k : Int) < 2 ^ 8; unfold MAX_BATCH_SIZE at hmax; omega))
  have hset : setHeader m (b.header lens i) = setHeader m (b.header lens' i) := by
    unfold setHeader
    refine if_congr Iff.rfl (congrArg some ?_) rfl
    show copy _ _ (2 * read (setFields m (b.header lens i)) K 1) _ = _
    refine copy_congr fun t ht => ?_
    rw [hk] at ht
    show byteOf (lens (t / 2) % 2 ^ 16) _ = byteOf (lens' (t / 2) % 2 ^ 16) _
    rw [hl (t / 2) (by omega)]
  unfold withPayload
  rw [hset]
  exact congrArg (fun f => Option.map f _) (funext fun _ => copy_congr hp)

/-- The header and the payload read back, whatever stood in the memory. -/
theorem Batch.read_withPayload (b : Batch pkt) {lens : Nat → Nat} {i len : Nat} {m0 m : Mem}
    {payload : Nat → Byte} (hl : ∀ j < b.k, lens j = (b.native j).length) (hi : i < b.n)
    (hm : withPayload m0 (b.header lens i) len payload = some m) (nread : Nat) :
    HeaderOf b i (athCodePkt m nread) ∧
      ∀ t < len, (athCodePkt m nread).payload t = payload t := by
  have hk := b.k_pos
  have hmax := b.k_max
  have hn := b.n_le
  have hadm := b.header_admitted lens hi
  obtain ⟨m1, hm1, rfl⟩ := Option.map_eq_some_iff.mp hm
  unfold setHeader at hm1
  rw [if_pos hadm, Option.some.injEq] at hm1
  have hset := (setFields_fields m0 (b.header lens i)).copy (Nat.le_refl _)
    (2 * read (setFields m0 (b.header lens i)) K 1) (halves (b.header lens i).len_arr)
  rw [hm1] at hset
  have hkEq : uint8 (b.header lens i).k = b.k := by
    have hu := uint8_eq (x := (b.header lens i).k) (Int.natCast_nonneg b.k)
      (by show (b.k : Int) < 2 ^ 8; unfold MAX_BATCH_SIZE at hmax; omega)
    exact Int.ofNat_inj.mp hu
  have hstart : getPayloadStart m1 = ATH_CODE_HEADER_SIZE + 2 * b.k := by
    rw [hset.payloadStart, hkEq]
  have hsize : ATH_CODE_HEADER_SIZE ≤ getPayloadStart m1 := by omega
  have hfields := hset.copy hsize len payload
  have hlens : ∀ j : Nat, j < (b.header lens i).k →
      read (copy m1 (getPayloadStart m1) len payload) (ATH_CODE_HEADER_SIZE + 2 * j) 2 =
        (b.header lens i).len_arr j := by
    intro j hj
    have hj : j < b.k := Int.ofNat_lt.mp hj
    rw [read_copy (by omega), ← hm1, (setFields_fields m0 (b.header lens i)).k, hkEq]
    exact read_halves hj ((b.header lens i).len_lt j)
  have hback := hfields.readsBack nread hadm rfl (Int.ofNat_le.mpr hk) (Int.ofNat_le.mpr hmax)
    (Int.ofNat_le.mpr hn) hlens
  refine ⟨⟨hback.parsed, hback.batch_id, hback.start_seq, Int.ofNat_inj.mp hback.ind,
    Int.ofNat_inj.mp hback.k, Int.ofNat_inj.mp hback.n, hback.bs_id, hback.client_id,
    fun j hj => ?_⟩, fun t ht => ?_⟩
  · obtain ⟨-, hfit⟩ := b.lens j hj
    have hlt : (b.native j).length < 2 ^ 16 := by
      unfold rx_data_buf.PKT_SIZE at hfit
      unfold Batch.native
      rw [toGf_length]
      omega
    rw [hback.lens j (Int.ofNat_lt.mpr hj)]
    show lens j % 2 ^ 16 = _
    rw [hl j hj, Nat.mod_eq_of_lt hlt]
  · show copy m1 (getPayloadStart m1) len payload
      (getPayloadStart (copy m1 (getPayloadStart m1) len payload) + t) = payload t
    rw [hfields.payloadStart, ← hset.payloadStart]
    exact copy_inside ht

theorem SameCoding.lens_eq {b : Batch pkt} {e : CodeInfo} (h : SameCoding b.k b.n e b.coded) :
    ∀ j < b.k, e.lens j = (b.native j).length := fun j hj =>
  (h.lens j hj).trans (b.coded_lens hj).1

/-- A datagram of a batch is one of its coded packets. -/
theorem Datagram.codedPkt {b : Batch pkt} {i nread : Nat} {m : Mem} (h : Datagram b i m nread) :
    CodedPkt b (athCodePkt m nread) := by
  obtain ⟨m0, e0, e, he0, he, hi, hm, rfl⟩ := h
  have hsame := b.encoded_same he0 he
  obtain ⟨hheader, hpayload⟩ := b.read_withPayload hsame.lens_eq hi hm
    (ATH_CODE_HEADER_SIZE + 2 * b.k + e.sz)
  have hind := hheader.ind
  refine ⟨by rwa [hind], by rwa [hind], fun t ht => ?_, ?_⟩
  · rw [hpayload t (by rwa [hsame.sz]), hind]
    exact hsame.batch i hi t ht
  · show _ + _ + e.sz = _
    rw [hsame.sz]

theorem Datagram.ind {b : Batch pkt} {i nread : Nat} {m : Mem} (h : Datagram b i m nread) :
    (athCodePkt m nread).ind = i := by
  obtain ⟨m0, e0, e, he0, he, hi, hm, -⟩ := h
  exact (b.read_withPayload (b.encoded_same he0 he).lens_eq hi hm nread).1.ind

/-- A packet of the cellular link is a native packet of its batch. -/
theorem Duplicate.read {b : Batch pkt} {i : Nat} {m : Mem} (h : Duplicate b i m) (nread : Nat) :
    i < b.k ∧ HeaderOf b i (athCodePkt m nread) ∧
      ∀ t < (b.native i).length, (athCodePkt m nread).payload t = bytes (b.native i) t := by
  obtain ⟨m0, lens, hl, hi, hm⟩ := h
  have hkn := b.k_le
  exact ⟨hi, b.read_withPayload hl (by omega) hm nread⟩

/-- The length that `PushPkt` gets is that of the coded packets. -/
theorem CodedPkt.payloadLen {b : Batch pkt} {p : AthCodePkt} (h : CodedPkt b p) {cfg : Config}
    (hcfg : cfg.ATH_CODE_HEADER_SIZE = ATH_CODE_HEADER_SIZE) :
    payloadLen cfg p = b.coded.sz := by
  have hsz := b.coded_sz.2
  unfold rx_data_buf.PKT_SIZE at hsz
  unfold rcv_ath.payloadLen
  rw [h.nread, hcfg, h.header.k]
  omega

end wspace_client.sender

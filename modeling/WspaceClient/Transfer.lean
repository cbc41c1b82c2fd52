-- `RxRcvAth` on the datagrams of a sender: whatever is lost, repeated or out of
-- order, no assertion fails, each packet that it enqueues is the sender's, and a
-- batch that it calls done is whole.
import WspaceClient.Batches
import WspaceClient.Sender

namespace wspace_client.sender

open bytes code_header rcv_ath fec

variable {pkt : Nat → List Byte} {cfg : Config}

/-! ## A sender -/

/-- The batches of a sender for the client and the radio of `cfg`. An id is
given to one batch only. -/
structure Sender (pkt : Nat → List Byte) (cfg : Config) where
  batches : Batch pkt → Prop
  ids : ∀ b b', batches b → batches b' → b.batch_id = b'.batch_id → b = b'
  client : ∀ b, batches b → b.client_id = cfg.client_id
  radio : ∀ b, batches b → b.bs_id = cfg.radio_id

/-- What comes over the downlink: a packet that is dropped, one for another
client, or one of the sender. -/
def Arrives (S : Sender pkt cfg) (p : AthCodePkt) : Prop :=
  p.is_good = false ∨ (parseHeader p = true ∧ p.client_id ≠ cfg.client_id) ∨
    ∃ b, S.batches b ∧ CodedPkt b p ∧ (getRate p.rate).isSome

/-- A packet for `EnqueuePkt` is one of the sender, with its number, its length
and its bytes. -/
def Genuine (S : Sender pkt cfg) (x : NativePkt) : Prop :=
  ∃ b i, S.batches b ∧ i < b.k ∧ x.seq_num = b.start_seq + i ∧ x.len = (b.native i).length ∧
    ∀ t < x.len, x.buf t = bytes (b.native i) t

def GenuineCall (S : Sender pkt cfg) : Event → Prop
  | .enqueuePkt _ x => Genuine S x
  | _ => True

/-- The native packet `i` of a batch was enqueued. -/
def Enqueued (b : Batch pkt) (i : Nat) (tr : List Event) : Prop :=
  ∃ x, .enqueuePkt b.batch_id x ∈ tr ∧ x.seq_num = b.start_seq + i

theorem Enqueued.append {b : Batch pkt} {i : Nat} {tr : List Event} (h : Enqueued b i tr)
    (out : List Event) : Enqueued b i (tr ++ out) := by
  obtain ⟨x, hx, hseq⟩ := h
  exact ⟨x, List.mem_append_left out hx, hseq⟩

/-! ## The state while a batch is current -/

/-- The sizes of the client's decoder. -/
structure IsDecoder (d : CodeInfo) : Prop where
  codec : d.codec_type = .kDecoder
  max_batch_size : d.max_batch_size = MAX_BATCH_SIZE
  pkt_size : d.pkt_size = PKT_SIZE

/-- The decoder holds the coded packets of these indices, and the native ones
among them were enqueued. -/
structure Collects (b : Batch pkt) (s : RcvAth) (inds : List Nat) (tr : List Event) : Prop where
  nodup : inds.Nodup
  lt : ∀ i ∈ inds, i < b.n
  received : Received b.k b.n b.coded inds s.decoder
  early : (List.range s.early_decoding_cnt).map s.early_decoding_inds =
    inds.filter fun i => i < b.k
  enqueued : ∀ i ∈ inds, i < b.k → Enqueued b i tr

/-- The batch of the thread: it still collects coded packets, or all of its
native packets were enqueued. -/
structure Holding (b : Batch pkt) (s : RcvAth) (tr : List Event) : Prop where
  batch_id : s.batch_id = b.batch_id
  decoder : IsDecoder s.decoder
  undone : s.decoding_done = false → ∃ inds, Collects b s inds tr ∧ inds.length < b.k
  done : s.decoding_done = true → ∀ i < b.k, Enqueued b i tr

/-- The indices that the decoder has. -/
def collected (s : RcvAth) : List Nat := (List.range s.decoder.cur_ind).map s.decoder.inds

theorem Collects.collected_eq {b : Batch pkt} {s : RcvAth} {inds : List Nat} {tr : List Event}
    (hc : Collects b s inds tr) : collected s = inds := by
  have h := hc.received
  unfold collected
  rw [h.cur]
  refine List.ext_getElem (by simp) fun j hj hj' => ?_
  rw [List.getElem_map, List.getElem_range]
  exact (h.stored j _ (List.getElem?_eq_getElem hj')).1

/-! ## A push -/

theorem bcopy_congr {src src' : Nat → Gf} {len : Nat} (h : ∀ t < len, src t = src' t)
    (dst : Nat → Gf) : bcopy src dst len = bcopy src' dst len := by
  funext t
  unfold bcopy
  split
  · exact h t ‹_›
  · rfl

/-- `PushPkt` reads the packet up to its length. -/
theorem pushPkt_congr {c : CodeInfo} {len ind : Nat} {src src' : Nat → Gf}
    (h : ∀ t < len, src t = src' t) : pushPkt c len src ind = pushPkt c len src' ind := by
  unfold pushPkt CodeInfo.storeNext
  simp only [bcopy_congr h]

/-- The native packet of a batch, with its bytes, under any name of its number. -/
theorem genuine_native {S : Sender pkt cfg} {b : Batch pkt} (hb : S.batches b) {i len : Nat}
    {buf : Nat → Gf} (hi : i < b.k) (hlen : len = b.coded.lens i)
    (hbuf : ∀ t < (b.native i).length, buf t = bytes (b.native i) t) :
    Genuine S ⟨add32 b.start_seq i, len, buf⟩ ∧ add32 b.start_seq i = b.start_seq + i := by
  have hfits := b.fits
  have hadd : add32 b.start_seq i = b.start_seq + i := add32_of_lt (by omega)
  rw [(b.coded_lens hi).1] at hlen
  subst hlen
  exact ⟨⟨b, i, hb, hi, hadd, rfl, hbuf⟩, hadd⟩

/-- All native packets came as themselves, so all were enqueued early. -/
theorem Collects.all_enqueued {b : Batch pkt} {s : RcvAth} {inds : List Nat} {tr : List Event}
    (hc : Collects b s inds tr) (hfull : inds.length = b.k) (hall : s.early_decoding_cnt = b.k)
    {i : Nat} (hi : i < b.k) : Enqueued b i tr := by
  have hcount : (inds.filter fun i => i < b.k).length = inds.length := by
    have hlen := congrArg List.length hc.early
    rw [List.length_map, List.length_range, hall] at hlen
    rw [← hlen, hfull]
  rw [List.length_filter_eq_length_iff] at hcount
  have hsub : inds ⊆ List.range b.k := fun j hj =>
    List.mem_range.mpr (of_decide_eq_true (hcount j hj))
  have hperm := (List.subperm_of_subset hc.nodup hsub).perm_of_length_le
    (by rw [List.length_range, hfull])
  exact hc.enqueued i (hperm.mem_iff.mpr (List.mem_range.mpr hi)) hi

/-- `DecodeBatch` recovers the batch, and the decoder keeps its sizes. -/
theorem Collects.decoded {b : Batch pkt} {s : RcvAth} {inds : List Nat} {tr : List Event}
    (hd : IsDecoder s.decoder) (hc : Collects b s inds tr) (hfull : inds.length = b.k) :
    ∃ d, decodeBatch s.decoder = some (false, d) ∧ Recovered b.pkts b.coded d ∧ IsDecoder d := by
  obtain ⟨code, hcode, hmade⟩ := b.code_made
  have hlen := b.pkts_length
  have hrec := hc.received
  rw [← hlen] at hrec
  obtain ⟨d, hdec, hd'⟩ := decodeBatch_recovered (by rw [hlen]; exact b.k_pos)
    (by rw [hlen]; exact b.k_le) (by have := b.n_le; unfold GF_SIZE GF_BITS; omega) hcode hmade
    (b.coded_spec hcode hmade) (by rw [hfull, hlen]) hc.nodup hc.lt hrec
  obtain ⟨error, coded_batch, inds', hsome⟩ :=
    decodeBatch_some (c := s.decoder) (by rw [hrec.eq_k, hrec.eq_n]; exact hcode)
  rw [hdec, Option.some.injEq, Prod.mk.injEq] at hsome
  obtain rfl := hsome.2
  exact ⟨_, hdec, hd', hd'.codec, hd.max_batch_size, hd.pkt_size⟩

/-- A native packet of a recovered batch, under its number. -/
theorem recovered_genuine {S : Sender pkt cfg} {b : Batch pkt} (hb : S.batches b) {d : CodeInfo}
    (h : Recovered b.pkts b.coded d) {i : Nat} (hi : i < b.k) :
    Genuine S ⟨add32 b.start_seq i, d.lens i, d.coded_batch i⟩ ∧
      add32 b.start_seq i = b.start_seq + i := by
  have hlen := b.pkts_length
  refine genuine_native hb hi (h.lens i (by rw [hlen]; exact hi)) fun t ht => ?_
  have hle := (b.coded_lens hi).2
  rw [h.batch i (by rw [hlen]; exact hi) t (by omega), List.getD_eq_getElem?_getD, b.pkts_get hi]
  rfl

/-- The packets that did not come as themselves are decoded and enqueued. -/
theorem decodeLate_genuine {S : Sender pkt cfg} {b : Batch pkt} (hb : S.batches b) {s : RcvAth}
    {p : AthCodePkt} {inds : List Nat} {tr : List Event} (hp : HeaderOf b p.ind p)
    (hid : s.batch_id = b.batch_id) (hd : IsDecoder s.decoder) (hc : Collects b s inds tr)
    (hfull : inds.length = b.k) :
    ∃ d out, decodeLate s p = .ok (d, out) ∧ (∀ e ∈ out, GenuineCall S e) ∧ IsDecoder d ∧
      ∀ i < b.k, Enqueued b i (tr ++ out) := by
  obtain ⟨d, hdec, hrec, hdd⟩ := hc.decoded hd hfull
  obtain ⟨d1, hlate, hcodec, hmax, hsize, -⟩ := enqueueLate_ok s p (d := d) hrec.codec
    (by rw [hrec.eq_k, b.pkts_length, hp.k]) (by rw [hrec.cur]; exact Nat.zero_add _)
  rw [hrec.cur, ← List.range_eq_range', hc.early, hp.k, hp.start_seq] at hlate
  unfold decodeLate
  rw [hdec, hp.k]
  simp only [bind, Except.bind, hlate, pure, Except.pure]
  refine ⟨_, _, rfl, fun e he => ?_,
    ⟨hcodec, hmax.trans hdd.max_batch_size, hsize.trans hdd.pkt_size⟩, fun i hi => ?_⟩
  · simp only [List.mem_cons, List.mem_map, List.mem_filter, List.mem_range] at he
    rcases he with rfl | ⟨i, ⟨hi, -⟩, rfl⟩
    · trivial
    · exact (recovered_genuine hb hrec hi).1
  · by_cases hin : i ∈ inds
    · exact (hc.enqueued i hin hi).append _
    · refine ⟨⟨add32 b.start_seq i, d.lens i, d.coded_batch i⟩, List.mem_append_right tr ?_,
        (recovered_genuine hb hrec hi).2⟩
      simp only [List.mem_cons, List.mem_map, List.mem_filter, List.mem_range]
      refine .inr ⟨i, ⟨hi, ?_⟩, by rw [hid]⟩
      simp [hin]

/-- The end of a batch: every native packet of it is enqueued. -/
theorem finishBatch_genuine {S : Sender pkt cfg} {b : Batch pkt} (hb : S.batches b) {s : RcvAth}
    {p : AthCodePkt} {inds : List Nat} {tr : List Event} (hp : HeaderOf b p.ind p)
    (hid : s.batch_id = b.batch_id) (hd : IsDecoder s.decoder) (hc : Collects b s inds tr)
    (hfull : inds.length = b.k) :
    ∃ t out, finishBatch s p = .ok (t, out) ∧ (∀ e ∈ out, GenuineCall S e) ∧
      Holding b t (tr ++ out) ∧ t.decoding_done = true := by
  unfold finishBatch
  by_cases hall : s.early_decoding_cnt = p.k
  · rw [if_neg (not_not_intro hall)]
    refine ⟨_, _, rfl, ?_, ⟨hid, hd, nofun, fun _ i hi => ?_⟩, rfl⟩
    · intro e he
      rw [List.nil_append, List.mem_singleton] at he
      rw [he]
      trivial
    · exact (hc.all_enqueued hfull (hall.trans hp.k) hi).append _
  · rw [if_pos hall]
    obtain ⟨d, out, hlate, hout, hd', henq⟩ := decodeLate_genuine hb hp hid hd hc hfull
    rw [hlate]
    refine ⟨_, _, rfl, fun e he => ?_, ⟨hid, hd', nofun, fun _ i hi => ?_⟩, rfl⟩
    · rcases List.mem_append.mp he with he | he
      · exact hout e he
      · rw [List.mem_singleton.mp he]
        trivial
    · rw [← List.append_assoc]
      exact (henq i hi).append _

/-- The early enqueue of a packet that the decoder just took. -/
theorem enqueueNative_genuine {S : Sender pkt cfg} {b : Batch pkt} (hb : S.batches b) {s : RcvAth}
    {p : AthCodePkt} {inds : List Nat} {tr : List Event} (hp : CodedPkt b p)
    (hid : s.batch_id = b.batch_id)
    (hnodup : (inds ++ [p.ind]).Nodup) (hlt : ∀ i ∈ inds ++ [p.ind], i < b.n)
    (hrec : Received b.k b.n b.coded (inds ++ [p.ind]) s.decoder)
    (hearly : (List.range s.early_decoding_cnt).map s.early_decoding_inds =
      inds.filter fun i => i < b.k)
    (henq : ∀ i ∈ inds, i < b.k → Enqueued b i tr) :
    ∃ t out, enqueueNative s p = (t, out) ∧ (∀ e ∈ out, GenuineCall S e) ∧
      t.batch_id = s.batch_id ∧ t.decoder = s.decoder ∧ t.decoding_done = s.decoding_done ∧
      Collects b t (inds ++ [p.ind]) (tr ++ out) := by
  unfold enqueueNative
  by_cases hk : p.ind < p.k
  · have hik : p.ind < b.k := by rwa [hp.header.k] at hk
    have hbuf : ∀ t < (b.native p.ind).length, p.payload t = bytes (b.native p.ind) t := by
      intro t ht
      have hle := (b.coded_lens hik).2
      rw [hp.payload t (by omega)]
      exact b.coded_native hik ht
    have hg := genuine_native hb hik (hrec.lens p.ind hik) hbuf
    rw [if_pos hk]
    refine ⟨_, _, rfl, fun e he => ?_, rfl, rfl, rfl, hnodup, hlt, hrec, ?_, fun i hi hik' => ?_⟩
    · rw [List.mem_singleton.mp he, hp.header.start_seq]
      exact hg.1
    · rw [range_update, hearly, List.filter_append, List.filter_cons_of_pos (by simpa using hik),
        List.filter_nil]
    · rcases List.mem_append.mp hi with hi | hi
      · exact (henq i hi hik').append _
      · rw [List.mem_singleton.mp hi, hid]
        refine ⟨_, List.mem_append_right tr (List.mem_singleton_self _), ?_⟩
        rw [← hg.2, hp.header.start_seq]
  · have hik : ¬p.ind < b.k := by rwa [hp.header.k] at hk
    rw [if_neg hk]
    refine ⟨_, _, rfl, nofun, rfl, rfl, rfl, hnodup, hlt, hrec, ?_, fun i hi hik' => ?_⟩
    · rw [hearly, List.filter_append, List.filter_cons_of_neg (by simpa using hik),
        List.filter_nil, List.append_nil]
    · rcases List.mem_append.mp hi with hi | hi
      · exact (henq i hi hik').append _
      · rw [List.mem_singleton.mp hi] at hik'
        exact absurd hik' hik

/-- The decoder takes a coded packet. -/
theorem Collects.pushPkt {b : Batch pkt} {s : RcvAth} {p : AthCodePkt} {inds : List Nat}
    {tr : List Event} (hcfg : cfg.ATH_CODE_HEADER_SIZE = ATH_CODE_HEADER_SIZE)
    (hp : CodedPkt b p) (hd : IsDecoder s.decoder) (hc : Collects b s inds tr)
    (hroom : inds.length < b.k) :
    ∃ d, pushPkt s.decoder (payloadLen cfg p) p.payload p.ind = some (true, d) ∧
      Received b.k b.n b.coded (inds ++ [p.ind]) d ∧ IsDecoder d := by
  have hkn := b.k_le
  have hn := b.n_le
  have hsz := b.coded_sz
  have hfit : b.coded.sz ≤ s.decoder.pkt_size := by
    have hmax := hsz.2
    unfold rx_data_buf.PKT_SIZE at hmax
    rw [hd.pkt_size]
    unfold PKT_SIZE
    omega
  have hgf : b.n ≤ GF_SIZE + 1 := by
    unfold GF_SIZE GF_BITS
    omega
  obtain ⟨d, hpush, hrec, -⟩ := hc.received.push hp.ind_lt (by omega) hgf hsz.1 hfit
  have hp0 := pushPkt_decoder (b.coded.coded_batch p.ind) hd.codec
    (by rw [hc.received.eq_n]; exact hp.ind_lt) (by rw [hc.received.eq_n, hc.received.cur]; omega)
    (by rw [hc.received.eq_n]; exact hgf) hsz.1 hfit
  rw [hpush, Option.some.injEq, Prod.mk.injEq] at hp0
  refine ⟨d, ?_, hrec, ?_⟩
  · rw [hp.payloadLen hcfg, pushPkt_congr hp.payload]
    exact hpush
  · rw [hp0.2]
    exact ⟨hd.codec, hd.max_batch_size, hd.pkt_size⟩

/-- A coded packet with a new index, for a batch that still collects. -/
theorem pushCoded_genuine {S : Sender pkt cfg}
    (hcfg : cfg.ATH_CODE_HEADER_SIZE = ATH_CODE_HEADER_SIZE) {b : Batch pkt} (hb : S.batches b)
    {s : RcvAth} {p : AthCodePkt} {inds : List Nat} {tr : List Event} (hp : CodedPkt b p)
    (hid : s.batch_id = b.batch_id) (hd : IsDecoder s.decoder) (hundone : s.decoding_done = false)
    (hc : Collects b s inds tr) (hroom : inds.length < b.k) (hnew : p.ind ∉ inds) :
    ∃ t out, pushCoded cfg s p = .ok (t, out) ∧ (∀ e ∈ out, GenuineCall S e) ∧
      Holding b t (tr ++ out) ∧ (t.decoding_done = false → collected t = inds ++ [p.ind]) := by
  obtain ⟨d, hpush, hrec, hdec⟩ := hc.pushPkt hcfg hp hd hroom
  have hnodup : (inds ++ [p.ind]).Nodup := by
    rw [List.nodup_append']
    refine ⟨hc.nodup, List.nodup_singleton _, fun i hi hi' => hnew ?_⟩
    rwa [List.mem_singleton.mp hi'] at hi
  have hlt : ∀ i ∈ inds ++ [p.ind], i < b.n := by
    intro i hi
    rcases List.mem_append.mp hi with hi | hi
    · exact hc.lt i hi
    · rw [List.mem_singleton.mp hi]
      exact hp.ind_lt
  obtain ⟨t, out, hnat, hout, htid, htd, htdone, hct⟩ := enqueueNative_genuine hb
    (s := { s with decoder := d }) hp hid hnodup hlt hrec hc.early hc.enqueued
  have hlen : (inds ++ [p.ind]).length = inds.length + 1 := by simp
  have hcur : t.decoder.cur_ind = inds.length + 1 := by rw [hct.received.cur, hlen]
  unfold pushCoded
  rw [hpush]
  simp only [hnat]
  by_cases hfull : t.decoder.cur_ind ≥ p.k
  · rw [if_pos hfull]
    rw [hcur, hp.header.k] at hfull
    obtain ⟨u, out', hfin, hout', hu, hdone⟩ := finishBatch_genuine hb hp.header
      (htid.trans hid) (by rw [htd]; exact hdec) hct (by omega)
    simp only [bind, Except.bind, hfin]
    refine ⟨u, _, rfl, fun e he => ?_, ?_, fun hu => ?_⟩
    · exact (List.mem_append.mp he).elim (hout e) (hout' e)
    · rwa [← List.append_assoc]
    · rw [hdone] at hu
      cases hu
  · rw [if_neg hfull]
    rw [hcur, hp.header.k] at hfull
    refine ⟨t, out, rfl, hout, ⟨htid.trans hid, by rw [htd]; exact hdec, fun _ =>
      ⟨_, hct, by omega⟩, fun hdone => ?_⟩, fun _ => hct.collected_eq⟩
    rw [htdone, hundone] at hdone
    cases hdone

/-! ## A turn of the loop -/

/-- The thread between two packets. -/
structure Ready (S : Sender pkt cfg) (s : RcvAth) (tr : List Event) : Prop where
  decoder : IsDecoder s.decoder
  current : s.batch_id = 0 ∨ ∃ b, S.batches b ∧ Holding b s tr

theorem Fresh.ready (S : Sender pkt cfg) {s : RcvAth} (h : s.Fresh) : Ready S s [] :=
  ⟨⟨h.codec, h.max_batch_size, h.pkt_size⟩, .inl h.batch_id⟩

theorem Holding.append {b : Batch pkt} {s : RcvAth} {tr : List Event} (h : Holding b s tr)
    (out : List Event) : Holding b s (tr ++ out) := by
  refine ⟨h.batch_id, h.decoder, fun hu => ?_, fun hd i hi => (h.done hd i hi).append out⟩
  obtain ⟨inds, hc, hroom⟩ := h.undone hu
  exact ⟨inds, ⟨hc.nodup, hc.lt, hc.received, hc.early,
    fun i hi hk => (hc.enqueued i hi hk).append out⟩, hroom⟩

theorem Ready.append {S : Sender pkt cfg} {s : RcvAth} {tr : List Event} (h : Ready S s tr)
    (out : List Event) : Ready S s (tr ++ out) :=
  ⟨h.decoder, h.current.imp id fun ⟨b, hb, hh⟩ => ⟨b, hb, hh.append out⟩⟩

/-- A new batch starts with nothing collected. -/
theorem newBatch_collects {b : Batch pkt} {s : RcvAth} {p : AthCodePkt} (hp : HeaderOf b p.ind p)
    (hd : IsDecoder s.decoder) (dur : Nat) :
    ∃ t seq, newBatch s p dur = .ok (t, [.setBatchInfo p.batch_id seq false p.ind p.n dur]) ∧
      t.batch_id = b.batch_id ∧ IsDecoder t.decoder ∧ t.decoding_done = false ∧
      ∀ tr, Collects b t [] tr := by
  have hk := b.k_pos
  have hmax := b.k_max
  let d0 := setCodeInfo (clearInfo s.decoder) p.k p.n p.start_seq
  let d := { d0 with lens := fun i => if i < p.k then p.lens i else 0 }
  have hroom : ¬(d0.k = 0 ∨ d0.k > d0.max_batch_size) := by
    show ¬(p.k = 0 ∨ p.k > s.decoder.max_batch_size)
    rw [hp.k, hd.max_batch_size]
    omega
  have hlens : copyLens d0 p.lens = some d := if_neg hroom
  unfold newBatch
  rw [hlens]
  refine ⟨_, _, rfl, hp.batch_id, ⟨hd.codec, hd.max_batch_size, hd.pkt_size⟩, rfl,
    fun tr => ⟨.nil, nofun, ⟨hd.codec, hp.k, hp.n, rfl, fun i hi => ?_, by simp, nofun,
      Nat.zero_le _⟩, rfl, nofun⟩⟩
  show (if i < p.k then p.lens i else 0) = _
  rw [if_pos (by rw [hp.k]; exact hi), hp.lens i hi, (b.coded_lens hi).1]

/-- The packet belongs to the batch of the thread, and the batch is done or the
packet is collected, with all that was collected before. -/
structure Took (s t : RcvAth) (p : AthCodePkt) : Prop where
  batch_id : t.batch_id = p.batch_id
  ind : t.decoding_done = false → p.ind ∈ collected t
  kept : s.batch_id = p.batch_id → t.decoding_done = false →
    s.decoding_done = false ∧ ∀ i ∈ collected s, i ∈ collected t

theorem rcvBatch_genuine {S : Sender pkt cfg}
    (hcfg : cfg.ATH_CODE_HEADER_SIZE = ATH_CODE_HEADER_SIZE) {b : Batch pkt} (hb : S.batches b)
    {s : RcvAth} {p : AthCodePkt} {tr : List Event} (hp : CodedPkt b p) (hs : Ready S s tr)
    (dur : Nat) :
    ∃ t out, rcvBatch cfg s p dur = .ok (t, out) ∧ (∀ e ∈ out, GenuineCall S e) ∧
      Ready S t (tr ++ out) ∧
      (s.batch_id > p.batch_id ∧ t = s ∨ s.batch_id ≤ p.batch_id ∧ Took s t p) := by
  have hpos := b.batch_id_pos
  have hpid := hp.header.batch_id
  unfold rcvBatch
  by_cases hstale : s.batch_id > p.batch_id
  · rw [if_pos hstale]
    exact ⟨s, [], rfl, nofun, hs.append [], .inl ⟨hstale, rfl⟩⟩
  · rw [if_neg hstale]
    by_cases hnew : s.batch_id < p.batch_id
    · rw [if_pos hnew]
      obtain ⟨s1, seq, h1, hid, hd, hundone, hc⟩ := newBatch_collects hp.header hs.decoder dur
      obtain ⟨t, out, h2, hout, ht, hcol⟩ := pushCoded_genuine hcfg hb hp hid hd hundone
        (hc (tr ++ [.setBatchInfo p.batch_id seq false p.ind p.n dur]))
        (by rw [List.length_nil]; exact b.k_pos) List.not_mem_nil
      simp only [bind, Except.bind, h1, h2]
      refine ⟨t, _, rfl, fun e he => ?_, ⟨ht.decoder, .inr ⟨b, hb, ?_⟩⟩,
        .inr ⟨by omega, by rw [ht.batch_id, hpid], fun hu => ?_, fun heq => ?_⟩⟩
      · rcases List.mem_append.mp he with he | he
        · rw [List.mem_singleton.mp he]
          trivial
        · exact hout e he
      · rwa [← List.append_assoc]
      · rw [hcol hu]
        exact List.mem_append_right _ (List.mem_singleton_self _)
      · omega
    · rw [if_neg hnew]
      -- The batch of the thread has the id of the packet, so it is the packet's batch.
      obtain ⟨b', hb', hh⟩ := hs.current.resolve_left (by omega)
      have hbb : b' = b := S.ids b' b hb' hb (by have := hh.batch_id; omega)
      subst hbb
      have hquiet : ∀ e ∈ (if s.decoding_done then [] else [Event.updateTimeLeft p.ind p.n dur]),
          GenuineCall S e := by
        intro e he
        split at he
        · cases he
        · rw [List.mem_singleton.mp he]
          trivial
      generalize (if s.decoding_done then [] else [Event.updateTimeLeft p.ind p.n dur]) = early
        at hquiet
      dsimp only
      split
      · rename_i huse
        rw [Bool.or_eq_true] at huse
        refine ⟨s, early, rfl, hquiet, hs.append early, .inr ⟨by omega,
          by rw [hh.batch_id, hpid], fun hu => ?_, fun _ hu => ⟨hu, fun i hi => hi⟩⟩⟩
        exact (isIndExist_iff _ _ _).mp (huse.resolve_left (by simp [hu]))
      · rename_i huse
        rw [Bool.or_eq_true, not_or, Bool.not_eq_true] at huse
        obtain ⟨inds, hc, hroom⟩ := (hh.append early).undone huse.1
        have hin : p.ind ∉ inds := fun hin =>
          huse.2 ((isIndExist_iff _ _ _).mpr (by rwa [← hc.collected_eq] at hin))
        obtain ⟨t, out, h2, hout, ht, hcol⟩ := pushCoded_genuine hcfg hb hp hh.batch_id hh.decoder
          huse.1 hc hroom hin
        simp only [bind, Except.bind, h2]
        refine ⟨t, _, rfl, fun e he => ?_, ⟨ht.decoder, .inr ⟨b', hb, ?_⟩⟩,
          .inr ⟨by omega, by rw [ht.batch_id, hpid], fun hu => ?_, fun _ hu => ⟨huse.1, ?_⟩⟩⟩
        · exact (List.mem_append.mp he).elim (hquiet e) (hout e)
        · rwa [← List.append_assoc]
        · rw [hcol hu]
          exact List.mem_append_right _ (List.mem_singleton_self _)
        · rw [hcol hu, hc.collected_eq]
          exact fun i hi => List.mem_append_left _ hi

/-- The packet is dropped or for another client. -/
def skipped (cfg : Config) (p : AthCodePkt) : Bool :=
  !p.is_good || decide (p.client_id ≠ cfg.client_id)

/-- What a turn does with the batch of the thread. -/
def Turn (cfg : Config) (s t : RcvAth) (p : AthCodePkt) : Prop :=
  if skipped cfg p then t = s
  else s.batch_id > p.batch_id ∧ t = s ∨ s.batch_id ≤ p.batch_id ∧ Took s t p

theorem Turn.skip {s : RcvAth} {p : AthCodePkt} (h : skipped cfg p = true) : Turn cfg s s p := by
  unfold Turn
  rw [if_pos h]

/-- One packet of the downlink: no assertion fails, and every call is genuine. -/
theorem rxRcvAth_genuine {S : Sender pkt cfg}
    (hcfg : cfg.ATH_CODE_HEADER_SIZE = ATH_CODE_HEADER_SIZE) {s : RcvAth} {p : AthCodePkt}
    {tr : List Event} (hp : Arrives S p) (hs : Ready S s tr) :
    ∃ t out, rxRcvAth cfg s p = .ok (t, out) ∧ (∀ e ∈ out, GenuineCall S e) ∧
      Ready S t (tr ++ out) ∧ Turn cfg s t p := by
  unfold rxRcvAth
  by_cases hgood : p.is_good
  · have hskip : ¬(!p.is_good) = true := by simp [hgood]
    rw [if_neg hskip]
    rcases hp.resolve_left (by simp [hgood]) with ⟨hparse, hclient⟩ | ⟨b, hb, hcoded, hrate⟩
    · rw [if_neg (by simp [hparse]), if_pos hclient]
      exact ⟨s, [], rfl, nofun, hs.append [], .skip (by simp [skipped, hclient])⟩
    · obtain ⟨rate, hrate⟩ := Option.isSome_iff_exists.mp hrate
      have hclient : p.client_id = cfg.client_id := by
        rw [hcoded.header.client_id, S.client b hb]
      have hradio : cfg.radio_id = p.bs_id := by rw [hcoded.header.bs_id, S.radio b hb]
      rw [if_neg (by simp [hcoded.header.parsed]), if_neg (not_not_intro hclient),
        if_neg (not_not_intro hradio), hrate]
      obtain ⟨t, out, h, hout, ht, hturn⟩ := rcvBatch_genuine hcfg hb hcoded
        (hs.append [.pushPkts p.raw_seq, .setBsId p.bs_id]) (perPktDuration p.nread rate)
      simp only [bind, Except.bind, h]
      have hours : ¬skipped cfg p := by simp [skipped, hgood, hclient]
      refine ⟨t, _, rfl, fun e he => ?_, ?_, (if_neg hours).mpr hturn⟩
      · rcases List.mem_cons.mp he with rfl | he
        · trivial
        · rcases List.mem_cons.mp he with rfl | he
          · trivial
          · exact hout e he
      · rwa [List.append_assoc] at ht
  · rw [if_pos (by simpa using hgood)]
    exact ⟨s, [], rfl, nofun, hs.append [], .skip (by simp [skipped, hgood])⟩

/-! ## Whole sequences -/

/-- The packets that are looked at. -/
def ours (cfg : Config) (ps : List AthCodePkt) : List AthCodePkt :=
  ps.filter fun p => !skipped cfg p

/-- The indices of a batch that came before any packet of a newer batch. -/
def arrived (cfg : Config) (b : Batch pkt) (ps : List AthCodePkt) : List Nat :=
  (arrivals b.batch_id (ours cfg ps)).map (·.ind)

/-- The thread after a sequence of packets. -/
structure Progress (S : Sender pkt cfg) (ps : List AthCodePkt) (s : RcvAth) (tr : List Event) :
    Prop where
  ready : Ready S s tr
  genuine : ∀ e ∈ tr, GenuineCall S e
  newest : ∀ q ∈ ours cfg ps, q.batch_id ≤ s.batch_id
  seen : s.batch_id = 0 ∨ ∃ q ∈ ours cfg ps, q.batch_id = s.batch_id
  current : ∀ b : Batch pkt, b.batch_id = s.batch_id → s.decoding_done = false →
    ∀ i ∈ arrived cfg b ps, i ∈ collected s
  complete : ∀ b, S.batches b → b.k ≤ (arrived cfg b ps).dedup.length →
    ∀ i < b.k, Enqueued b i tr

theorem Fresh.progress (S : Sender pkt cfg) {s : RcvAth} (h : s.Fresh) : Progress S [] s [] := by
  refine ⟨Fresh.ready S h, nofun, nofun, .inl h.batch_id, fun _ _ _ _ => nofun, fun b hb hk => ?_⟩
  have hpos := b.k_pos
  have hnil : (arrived cfg b []).dedup.length = 0 := rfl
  omega

theorem ours_snoc (ps : List AthCodePkt) (p : AthCodePkt) :
    ours cfg (ps ++ [p]) = if skipped cfg p then ours cfg ps else ours cfg ps ++ [p] := by
  unfold ours
  rw [List.filter_append]
  by_cases hskip : skipped cfg p
  · rw [if_pos hskip, List.filter_cons_of_neg (by simp [hskip]), List.filter_nil, List.append_nil]
  · rw [if_neg hskip, List.filter_cons_of_pos (by simpa using hskip), List.filter_nil]

theorem arrived_skipped {b : Batch pkt} {ps : List AthCodePkt} {p : AthCodePkt}
    (h : skipped cfg p = true) : arrived cfg b (ps ++ [p]) = arrived cfg b ps := by
  unfold arrived
  rw [ours_snoc, if_pos h]

/-- A packet of another batch, or one that is late, adds nothing to a batch. -/
theorem arrived_late {b : Batch pkt} {ps : List AthCodePkt} {p : AthCodePkt}
    (hp : skipped cfg p = false)
    (h : p.batch_id ≠ b.batch_id ∨ ∃ q ∈ ours cfg ps, b.batch_id < q.batch_id) :
    arrived cfg b (ps ++ [p]) = arrived cfg b ps := by
  unfold arrived
  rw [ours_snoc, if_neg (by simp [hp]), arrivals_append, if_neg]
  rintro ⟨hle, hb⟩
  rcases h with h | ⟨q, hq, hlt⟩
  · exact h hb
  · have := hle q hq
    omega

theorem arrived_current {b : Batch pkt} {ps : List AthCodePkt} {p : AthCodePkt}
    (hp : skipped cfg p = false) (hb : p.batch_id = b.batch_id)
    (hle : ∀ q ∈ ours cfg ps, q.batch_id ≤ b.batch_id) :
    arrived cfg b (ps ++ [p]) = arrived cfg b ps ++ [p.ind] := by
  unfold arrived
  rw [ours_snoc, if_neg (by simp [hp]), arrivals_append, if_pos ⟨hle, hb⟩, List.map_append]
  rfl

theorem not_mem_arrived {b : Batch pkt} {ps : List AthCodePkt} {i : Nat}
    (h : ∀ q ∈ ours cfg ps, q.batch_id < b.batch_id) : i ∉ arrived cfg b ps := by
  intro hi
  obtain ⟨q, hq, -⟩ := List.mem_map.mp hi
  obtain ⟨hq, hb⟩ := mem_of_mem_arrivals hq
  have := h q hq
  omega

/-- The packet that the thread took is the newest of its batch. -/
theorem Progress.took {S : Sender pkt cfg} {ps : List AthCodePkt} {s t : RcvAth}
    {tr out : List Event} {p : AthCodePkt} (h : Progress S ps s tr)
    (hskip : skipped cfg p = false) (hle : s.batch_id ≤ p.batch_id) (ht : Took s t p)
    (hready : Ready S t (tr ++ out)) (hout : ∀ e ∈ out, GenuineCall S e) :
    Progress S (ps ++ [p]) t (tr ++ out) := by
  have hours : ours cfg (ps ++ [p]) = ours cfg ps ++ [p] := by
    rw [ours_snoc, if_neg (by simp [hskip])]
  have hcurrent : ∀ b : Batch pkt, b.batch_id = t.batch_id → t.decoding_done = false →
      ∀ i ∈ arrived cfg b (ps ++ [p]), i ∈ collected t := by
    intro b hb hu i hi
    have hbp : p.batch_id = b.batch_id := by rw [hb, ht.batch_id]
    rw [arrived_current hskip hbp fun q hq => by have := h.newest q hq; omega] at hi
    rcases List.mem_append.mp hi with hi | hi
    · by_cases heq : s.batch_id = p.batch_id
      · obtain ⟨hsu, hkept⟩ := ht.kept heq hu
        exact hkept i (h.current b (by omega) hsu i hi)
      · exact absurd hi (not_mem_arrived fun q hq => by have := h.newest q hq; omega)
    · rw [List.mem_singleton.mp hi]
      exact ht.ind hu
  refine ⟨hready, fun e he => ?_, fun q hq => ?_, .inr ⟨p, ?_, ht.batch_id.symm⟩, hcurrent,
    fun b hb hk i hi => ?_⟩
  · exact (List.mem_append.mp he).elim (h.genuine e) (hout e)
  · rw [hours] at hq
    rw [ht.batch_id]
    rcases List.mem_append.mp hq with hq | hq
    · exact Nat.le_trans (h.newest q hq) hle
    · rw [List.mem_singleton.mp hq]
  · rw [hours]
    exact List.mem_append_right _ (List.mem_singleton_self _)
  · by_cases hbp : b.batch_id = t.batch_id
    · have hpos := b.batch_id_pos
      obtain ⟨b', hb', hh⟩ := hready.current.resolve_left (by omega)
      have hbb : b' = b := S.ids b' b hb' hb (by rw [← hh.batch_id, hbp])
      subst hbb
      cases hu : t.decoding_done with
      | true => exact hh.done hu i hi
      | false =>
        -- What came is collected, so fewer than `k` indices came.
        obtain ⟨inds, hc, hroom⟩ := hh.undone hu
        have hsub : (arrived cfg b' (ps ++ [p])).dedup ⊆ inds := by
          intro j hj
          rw [← hc.collected_eq]
          exact hcurrent b' hbp hu j (List.mem_dedup.mp hj)
        have hlen := (List.subperm_of_subset (List.nodup_dedup _) hsub).length_le
        omega
    · rw [arrived_late hskip (.inl fun he => hbp (by rw [← he, ht.batch_id]))] at hk
      exact (h.complete b hb hk i hi).append out

theorem Progress.next {S : Sender pkt cfg}
    (hcfg : cfg.ATH_CODE_HEADER_SIZE = ATH_CODE_HEADER_SIZE) {ps : List AthCodePkt} {s : RcvAth}
    {tr : List Event} {p : AthCodePkt} (h : Progress S ps s tr) (hp : Arrives S p) :
    ∃ t out, rxRcvAth cfg s p = .ok (t, out) ∧ Progress S (ps ++ [p]) t (tr ++ out) := by
  obtain ⟨t, out, hrx, hout, hready, hturn⟩ := rxRcvAth_genuine hcfg hp h.ready
  refine ⟨t, out, hrx, ?_⟩
  have hgenuine : ∀ e ∈ tr ++ out, GenuineCall S e := fun e he =>
    (List.mem_append.mp he).elim (h.genuine e) (hout e)
  unfold Turn at hturn
  cases hskip : skipped cfg p with
  | true =>
    rw [if_pos hskip] at hturn
    subst hturn
    have hours : ours cfg (ps ++ [p]) = ours cfg ps := by rw [ours_snoc, if_pos hskip]
    refine ⟨hready, hgenuine, ?_, ?_, fun b hb hu => ?_, fun b hb hk i hi => ?_⟩
    · rw [hours]
      exact h.newest
    · rw [hours]
      exact h.seen
    · rw [arrived_skipped hskip]
      exact h.current b hb hu
    · rw [arrived_skipped hskip] at hk
      exact (h.complete b hb hk i hi).append out
  | false =>
    rw [if_neg (by simp [hskip])] at hturn
    rcases hturn with ⟨hstale, rfl⟩ | ⟨hle, htook⟩
    · -- A newer batch was seen, so the packet counts for no batch.
      obtain ⟨q, hq, hqb⟩ := h.seen.resolve_left (by omega)
      have hlate : ∀ b : Batch pkt, arrived cfg b (ps ++ [p]) = arrived cfg b ps := by
        intro b
        by_cases hb : p.batch_id = b.batch_id
        · exact arrived_late hskip (.inr ⟨q, hq, by omega⟩)
        · exact arrived_late hskip (.inl hb)
      have hours : ours cfg (ps ++ [p]) = ours cfg ps ++ [p] := by
        rw [ours_snoc, if_neg (by simp [hskip])]
      refine ⟨hready, hgenuine, fun r hr => ?_, .inr ⟨q, ?_, hqb⟩, fun b hb hu => ?_,
        fun b hb hk i hi => ?_⟩
      · rw [hours] at hr
        rcases List.mem_append.mp hr with hr | hr
        · exact h.newest r hr
        · rw [List.mem_singleton.mp hr]
          omega
      · rw [hours]
        exact List.mem_append_left _ hq
      · rw [hlate]
        exact h.current b hb hu
      · rw [hlate] at hk
        exact (h.complete b hb hk i hi).append out
    · exact h.took hskip hle htook hready hout

/-- Any number of packets. -/
theorem Progress.receive {S : Sender pkt cfg}
    (hcfg : cfg.ATH_CODE_HEADER_SIZE = ATH_CODE_HEADER_SIZE) {ps qs : List AthCodePkt}
    {s : RcvAth} {tr : List Event} (h : Progress S ps s tr) (hqs : ∀ p ∈ qs, Arrives S p) :
    ∃ t out, receive cfg s qs = .ok (t, out) ∧ Progress S (ps ++ qs) t (tr ++ out) := by
  induction qs generalizing ps s tr with
  | nil => exact ⟨s, [], rfl, by simpa using h⟩
  | cons p qs ih =>
    obtain ⟨t, out, hrx, ht⟩ := h.next hcfg (hqs p List.mem_cons_self)
    obtain ⟨u, out', hrest, hu⟩ := ih ht fun q hq => hqs q (List.mem_cons_of_mem _ hq)
    refine ⟨u, out ++ out', ?_, ?_⟩
    · rw [rcv_ath.receive]
      simp only [hrx, bind, Except.bind, hrest]
      rfl
    · rwa [List.append_assoc, List.singleton_append, List.append_assoc] at hu

/-- A datagram as it stands in memory: one that is dropped, one for another
client, or one of the sender. -/
def Incoming (S : Sender pkt cfg) (m : Mem) (nread : Nat) : Prop :=
  read m IS_GOOD 1 = 0 ∨
    (parseHeader (athCodePkt m nread) = true ∧
      ofWord (read m code_header.CLIENT_ID 4) ≠ cfg.client_id) ∨
    ∃ b i, S.batches b ∧ Datagram b i m nread ∧ (getRate (read m RATE 2)).isSome

theorem Incoming.arrives {S : Sender pkt cfg} {m : Mem} {nread : Nat} (h : Incoming S m nread) :
    Arrives S (athCodePkt m nread) := by
  rcases h with h | h | ⟨b, i, hb, hd, hrate⟩
  · exact .inl (decide_eq_false (not_not_intro h))
  · exact .inr (.inl h)
  · exact .inr (.inr ⟨b, hb, hd.codedPkt, hrate⟩)

theorem Genuine.bytes_eq {S : Sender pkt cfg} {x : NativePkt} (h : Genuine S x) :
    readOut (x.buf, x.len) = toGf (pkt x.seq_num) := by
  obtain ⟨b, i, -, -, hseq, hlen, hbuf⟩ := h
  rw [hlen, hseq]
  exact readOut_eq fun t ht => hbuf t (by rwa [hlen])

/-- Whatever datagrams come, in whatever order: no assertion fails, each packet
that is enqueued is the sender's packet of its number, and a batch of which `k`
different datagrams come while it is the newest one is enqueued whole. -/
theorem k_datagrams_bring_the_batch {S : Sender pkt cfg}
    (hcfg : cfg.ATH_CODE_HEADER_SIZE = ATH_CODE_HEADER_SIZE) {s : RcvAth} (hs : s.Fresh)
    {ds : List (Mem × Nat)} (hds : ∀ d ∈ ds, Incoming S d.1 d.2) :
    ∃ t tr, receive cfg s (ds.map fun d => athCodePkt d.1 d.2) = .ok (t, tr) ∧
      (∀ c x, .enqueuePkt c x ∈ tr →
        (∃ b, S.batches b ∧ b.start_seq ≤ x.seq_num ∧ x.seq_num < b.start_seq + b.k) ∧
          readOut (x.buf, x.len) = toGf (pkt x.seq_num)) ∧
      ∀ b, S.batches b →
        b.k ≤ (arrived cfg b (ds.map fun d => athCodePkt d.1 d.2)).dedup.length →
        ∀ i < b.k, ∃ x, .enqueuePkt b.batch_id x ∈ tr ∧ x.seq_num = b.start_seq + i := by
  have harr : ∀ p ∈ ds.map fun d => athCodePkt d.1 d.2, Arrives S p := by
    intro p hp
    obtain ⟨d, hd, rfl⟩ := List.mem_map.mp hp
    exact (hds d hd).arrives
  obtain ⟨t, tr, hrx, ht⟩ := (Fresh.progress S hs).receive hcfg harr
  rw [List.nil_append, List.nil_append] at ht
  refine ⟨t, tr, hrx, fun c x hx => ?_, ht.complete⟩
  have hg : Genuine S x := ht.genuine _ hx
  refine ⟨?_, hg.bytes_eq⟩
  obtain ⟨b, i, hb, hi, hseq, -⟩ := hg
  exact ⟨b, hb, by omega, by omega⟩

/-! ## Two packets -/

/-- A memory that is sent: good, at 6 Mbps. -/
def blank : Mem := write (write (fun _ => 0) RATE 2 0x0B) IS_GOOD 1 1

/-- What `SetHeader` leaves alone, a datagram keeps. -/
theorem read_sent {b : Batch pkt} {lens : Nat → Nat} {i len a : Nat} {payload : Nat → Byte}
    {m0 m : Mem} (hm : withPayload m0 (b.header lens i) len payload = some m)
    (ha : a = RATE ∨ a = IS_GOOD) (n : Nat) (hn : n ≤ 2) (hgood : a = IS_GOOD → n ≤ 1) :
    read m a n = read m0 a n := by
  obtain ⟨m1, hm1, rfl⟩ := Option.map_eq_some_iff.mp hm
  unfold setHeader at hm1
  split at hm1
  · cases hm1
    have hsmall : a + n ≤ ATH_CODE_HEADER_SIZE := by
      unfold RATE IS_GOOD at ha
      unfold ATH_CODE_HEADER_SIZE
      omega
    have hfar : ∀ x : Mem, a + n ≤ getPayloadStart x := fun x => by
      unfold getPayloadStart
      omega
    rw [read_copy (.inl (hfar _)), read_copy (.inl hsmall)]
    unfold setFields
    unfold RATE IS_GOOD at ha
    unfold IS_GOOD at hgood
    simp only [TYPE, BATCH_ID, START_SEQ, IND, K, N, BS_ID, CLIENT_ID]
    repeat rw [read_write (by omega)]
  · cases hm1

/-- Every coded packet of a batch can be sent. -/
theorem Batch.datagram_exists (b : Batch pkt) {i : Nat} (hi : i < b.n) : ∃ m nread,
    Datagram b i m nread ∧ read m RATE 2 = 0x0B ∧ read m IS_GOOD 1 = 1 := by
  obtain ⟨code, hcode, hmade⟩ := b.code_made
  obtain ⟨e, he, -⟩ := b.encoded_some newCodeInfo_isEncoder hcode hmade
  have hm := b.withPayload_made e.lens hi e.sz (e.coded_batch i) blank blank
  refine ⟨_, _, ⟨blank, _, e, newCodeInfo_isEncoder, he, hi, hm, rfl⟩, ?_, ?_⟩
  · rw [read_sent hm (.inl rfl) 2 (Nat.le_refl 2) (by decide)]
    decide
  · rw [read_sent hm (.inr rfl) 1 (by decide) fun _ => Nat.le_refl 1]
    decide

/-- The native packet `i` of a batch, as it is sent when all packets have `len` bytes. -/
def nativeMem (b : Batch pkt) (len i : Nat) : Mem :=
  (withPayload blank (b.header (fun _ => len) i) len (bytes (b.native i))).getD blank

theorem nativeMem_made (b : Batch pkt) (len : Nat) {i : Nat} (hi : i < b.k) :
    withPayload blank (b.header (fun _ => len) i) len (bytes (b.native i)) =
      some (nativeMem b len i) :=
  b.withPayload_made _ (Nat.lt_of_lt_of_le hi b.k_le) len _ blank blank

theorem native_is_sent (b : Batch pkt) {len i : Nat}
    (hlen : ∀ j < b.k, (b.native j).length = len) (hi : i < b.k) :
    Datagram b i (nativeMem b len i) (ATH_CODE_HEADER_SIZE + 2 * b.k + len) := by
  obtain ⟨code, hcode, hmade⟩ := b.code_made
  obtain ⟨e, he, hcoded⟩ := b.encoded_some newCodeInfo_isEncoder hcode hmade
  have hsame := b.encoded_same newCodeInfo_isEncoder he
  have hsz : e.sz = len := by
    obtain ⟨p, hp, hsz⟩ := hcoded.sz_mem
    obtain ⟨j, hj, rfl⟩ := List.mem_map.mp hp
    rw [hsz, hlen j (List.mem_range.mp hj)]
  have hin : i < b.n := Nat.lt_of_lt_of_le hi b.k_le
  refine ⟨blank, _, e, newCodeInfo_isEncoder, he, hin, ?_, by rw [hsz]⟩
  have hbytes : ∀ t < len, e.coded_batch i t = bytes (b.native i) t := fun t ht =>
    (hsame.batch i hin t (by rwa [← hsame.sz, hsz])).trans
      (b.coded_native hi (by rwa [hlen i hi]))
  have hlens : ∀ j < b.k, e.lens j = len := fun j hj => (hsame.lens_eq j hj).trans (hlen j hj)
  rw [hsz, b.withPayload_congr hlens hbytes blank i]
  exact nativeMem_made b len hi

/-- It comes to the client as a packet of the sender. -/
theorem native_incoming {S : Sender pkt cfg} {b : Batch pkt} (hb : S.batches b) {len i : Nat}
    (hlen : ∀ j < b.k, (b.native j).length = len) (hi : i < b.k) :
    Incoming S (nativeMem b len i) (ATH_CODE_HEADER_SIZE + 2 * b.k + len) := by
  refine .inr (.inr ⟨b, i, hb, native_is_sent b hlen hi, ?_⟩)
  rw [read_sent (nativeMem_made b len hi) (.inl rfl) 2 (Nat.le_refl 2) (by decide)]
  decide

/-- Packet 5 has two bytes, and every other packet has one. -/
def fivePkts (q : Nat) : List Byte := if q = 5 then [7, 8] else [9]

theorem fivePkts_lens (q : Nat) :
    1 ≤ (fivePkts q).length ∧ (fivePkts q).length ≤ rx_data_buf.PKT_SIZE := by
  unfold fivePkts
  split <;> decide

/-- The numbers that a sender may give a batch. -/
structure Sizes (batch_id start_seq k n : Nat) (bs_id client_id : Int) : Prop where
  batch_id_word : 0 < batch_id ∧ batch_id < 2 ^ 32
  start_seq_word : 0 < start_seq ∧ start_seq + k ≤ 2 ^ 32
  k_size : 1 ≤ k ∧ k ≤ MAX_BATCH_SIZE
  n_size : k ≤ n ∧ n ≤ 255
  bs_id_int : -2 ^ 31 ≤ bs_id ∧ bs_id < 2 ^ 31
  client_id_int : -2 ^ 31 ≤ client_id ∧ client_id < 2 ^ 31

def batchOf {pkt : Nat → List Byte} {batch_id start_seq k n : Nat} {bs_id client_id : Int}
    (h : Sizes batch_id start_seq k n bs_id client_id)
    (lens : ∀ i < k, 1 ≤ (pkt (start_seq + i)).length ∧
      (pkt (start_seq + i)).length ≤ rx_data_buf.PKT_SIZE) : Batch pkt :=
  ⟨batch_id, start_seq, k, n, bs_id, client_id, h.batch_id_word.1, h.batch_id_word.2,
    h.start_seq_word.1, h.start_seq_word.2, h.k_size.1, h.k_size.2, h.n_size.1, h.n_size.2,
    h.bs_id_int, h.client_id_int, lens⟩

theorem five_sizes : Sizes 1 5 2 3 1 1 := by
  constructor <;> decide

theorem five_lens : ∀ i < 2, 1 ≤ (fivePkts (5 + i)).length ∧
    (fivePkts (5 + i)).length ≤ rx_data_buf.PKT_SIZE :=
  fun i _ => fivePkts_lens (5 + i)

/-- The packets 5 and 6, in three coded packets. -/
def fiveBatch : Batch fivePkts := batchOf five_sizes five_lens

/-- A sender of one batch. -/
def oneBatch {pkt : Nat → List Byte} (b : Batch pkt) :
    Sender pkt ⟨b.client_id, b.bs_id, ATH_CODE_HEADER_SIZE⟩ where
  batches := fun b' => b' = b
  ids := fun _ _ h h' _ => h.trans h'.symm
  client := fun _ h => congrArg Batch.client_id h
  radio := fun _ h => congrArg Batch.bs_id h

/-- The last two datagrams bring both packets. -/
theorem five_and_six_arrive : ∃ t tr ds, receive ⟨1, 1, 36⟩ newRcvAth ds = .ok (t, tr) ∧
    arrived ⟨1, 1, 36⟩ fiveBatch ds = [1, 2] ∧
    (∃ x, .enqueuePkt 1 x ∈ tr ∧ x.seq_num = 5 ∧ readOut (x.buf, x.len) = toGf [7, 8]) ∧
    ∃ x, .enqueuePkt 1 x ∈ tr ∧ x.seq_num = 6 ∧ readOut (x.buf, x.len) = toGf [9] := by
  obtain ⟨m1, l1, h1, hr1, hg1⟩ := fiveBatch.datagram_exists (i := 1) (by decide)
  obtain ⟨m2, l2, h2, hr2, hg2⟩ := fiveBatch.datagram_exists (i := 2) (by decide)
  have hours : ∀ {i m l}, Datagram fiveBatch i m l → read m IS_GOOD 1 = 1 →
      skipped ⟨1, 1, 36⟩ (athCodePkt m l) = false := by
    intro i m l h hg
    have hclient : (athCodePkt m l).client_id = 1 := h.codedPkt.header.client_id
    have hgood : (athCodePkt m l).is_good = true := decide_eq_true (by rw [hg]; decide)
    simp [skipped, hclient, hgood]
  have harr : arrived ⟨1, 1, 36⟩ fiveBatch [athCodePkt m1 l1, athCodePkt m2 l2] = [1, 2] := by
    have hone : ours ⟨1, 1, 36⟩ [athCodePkt m1 l1] = [athCodePkt m1 l1] :=
      List.filter_cons_of_pos (by simp [hours h1 hg1])
    have hfirst : arrived ⟨1, 1, 36⟩ fiveBatch ([] ++ [athCodePkt m1 l1]) =
        [(athCodePkt m1 l1).ind] :=
      arrived_current (hours h1 hg1) h1.codedPkt.header.batch_id nofun
    have hsecond : arrived ⟨1, 1, 36⟩ fiveBatch ([athCodePkt m1 l1] ++ [athCodePkt m2 l2]) =
        arrived ⟨1, 1, 36⟩ fiveBatch [athCodePkt m1 l1] ++ [(athCodePkt m2 l2).ind] :=
      arrived_current (hours h2 hg2) h2.codedPkt.header.batch_id fun q hq => by
        rw [hone, List.mem_singleton] at hq
        rw [hq, h1.codedPkt.header.batch_id]
    rw [h1.ind] at hfirst
    rw [h2.ind] at hsecond
    exact hsecond.trans (congrArg (· ++ [2]) hfirst)
  have hds : ∀ d ∈ [(m1, l1), (m2, l2)], Incoming (oneBatch fiveBatch) d.1 d.2 := by
    intro d hd
    rw [List.mem_cons, List.mem_singleton] at hd
    rcases hd with rfl | rfl
    · exact .inr (.inr ⟨fiveBatch, 1, rfl, h1, by rw [hr1]; rfl⟩)
    · exact .inr (.inr ⟨fiveBatch, 2, rfl, h2, by rw [hr2]; rfl⟩)
  obtain ⟨t, tr, hrx, hgenuine, hall⟩ := k_datagrams_bring_the_batch rfl newRcvAth_fresh hds
  have hpkt := hall fiveBatch rfl (by
    show 2 ≤ (arrived ⟨1, 1, 36⟩ fiveBatch [athCodePkt m1 l1, athCodePkt m2 l2]).dedup.length
    rw [harr]
    decide)
  refine ⟨t, tr, _, hrx, harr, ?_, ?_⟩
  · obtain ⟨x, hx, hseq⟩ := hpkt 0 (by decide)
    have hseq : x.seq_num = 5 := hseq
    have hbytes := (hgenuine 1 x hx).2
    rw [hseq] at hbytes
    exact ⟨x, hx, hseq, hbytes⟩
  · obtain ⟨x, hx, hseq⟩ := hpkt 1 (by decide)
    have hseq : x.seq_num = 6 := hseq
    have hbytes := (hgenuine 1 x hx).2
    rw [hseq] at hbytes
    exact ⟨x, hx, hseq, hbytes⟩

end wspace_client.sender

-- The laws of reception: what one packet of the downlink does to its batch, and
-- what the state of the thread holds while the batch is current.
import WspaceClient.RcvAth

namespace wspace_client.rcv_ath

open fec

/-! ## What the events say of a batch -/

/-- The packets that a batch gave to `EnqueuePkt` while it was current. -/
def enqueues (b : Nat) (tr : List Event) : List NativePkt :=
  tr.filterMap fun | .enqueuePkt b' p => if b' = b then some p else none | _ => none

/-- The calls of `DecodeBatch` while a batch was current. -/
def decodes (b : Nat) (tr : List Event) : List (List Nat × (Nat → Nat → Gf)) :=
  tr.filterMap fun | .decodeBatch b' is out => if b' = b then some (is, out) else none | _ => none

/-- The packets of a batch that came before any packet of a newer batch. -/
def arrivals (b : Nat) (ps : List AthCodePkt) : List AthCodePkt :=
  (ps.takeWhile fun p => p.batch_id ≤ b).filter fun p => p.batch_id = b

/-- Keeps a packet if its index is new and fewer than `k` packets were kept. -/
def keepNew (us : List AthCodePkt) (p : AthCodePkt) : List AthCodePkt :=
  if us.length < p.k ∧ p.ind ∉ us.map (·.ind) then us ++ [p] else us

/-- The first `k` packets with distinct indices. -/
def used (ps : List AthCodePkt) : List AthCodePkt := ps.foldl keepNew []

def isNative (p : AthCodePkt) : Bool := p.ind < p.k

/-- The native packets that came as themselves. -/
def natives (us : List AthCodePkt) : List AthCodePkt := us.filter isNative

/-- A native packet, with its own payload. -/
def ownPkt (p : AthCodePkt) : NativePkt := ⟨add32 p.start_seq p.ind, p.lens p.ind, p.payload⟩

/-- The native packets that did not come, from a decoded batch. -/
def latePkts (p : AthCodePkt) (us : List AthCodePkt) (batch : Nat → Nat → Gf) : List NativePkt :=
  ((List.range p.k).filter fun i => i ∉ (natives us).map (·.ind)).map fun i =>
    ⟨add32 p.start_seq i, p.lens i, batch i⟩

/-- `k` packets came, and not all of them are native. -/
def NeedsDecoding (p : AthCodePkt) (us : List AthCodePkt) : Prop :=
  us.length = p.k ∧ (natives us).length ≠ p.k

/-- What the calls of a batch are, from the packets that it used. -/
def Outcome (us : List AthCodePkt) (ds : List (List Nat × (Nat → Nat → Gf)))
    (es : List NativePkt) : Prop :=
  ((∀ p ∈ us, ¬NeedsDecoding p us) ∧ ds = [] ∧ es = (natives us).map ownPkt) ∨
  ∃ p ∈ us, NeedsDecoding p us ∧ ∃ batch,
    ds = [(us.map (·.ind), batch)] ∧ es = (natives us).map ownPkt ++ latePkts p us batch

/-! ## What the client is promised -/

/-- A packet that passes the checks, with a payload that fits its buffer. -/
structure Downlink (cfg : Config) (p : AthCodePkt) : Prop where
  good : p.is_good = true
  parsed : parseHeader p = true
  client : p.client_id = cfg.client_id
  radio : p.bs_id = cfg.radio_id
  n_lt : p.n < 2 ^ 8
  len_pos : 1 ≤ payloadLen cfg p
  len_le : payloadLen cfg p ≤ PKT_SIZE

/-- Two packets with the same header, but for the index. -/
structure SameBatch (p q : AthCodePkt) : Prop where
  k : p.k = q.k
  n : p.n = q.n
  start_seq : p.start_seq = q.start_seq
  lens : ∀ i < p.k, p.lens i = q.lens i

def Consistent (ps : List AthCodePkt) : Prop :=
  ∀ p ∈ ps, ∀ q ∈ ps, p.batch_id = q.batch_id → SameBatch p q

structure Header (p : AthCodePkt) : Prop where
  batch_pos : 0 < p.batch_id
  ind_lt : p.ind < p.n
  k_le : p.k ≤ p.n
  k_pos : 0 < p.k
  k_max : p.k ≤ MAX_BATCH_SIZE

theorem Downlink.header {cfg : Config} {p : AthCodePkt} (h : Downlink cfg p) : Header p := by
  have hp := h.parsed
  simp only [parseHeader, Bool.and_eq_true, decide_eq_true_eq] at hp
  obtain ⟨-, hb, -, hi, hkn, hk, hmax⟩ := hp
  exact ⟨hb, hi, hkn, hk, hmax⟩

/-! ## The events of a list -/

theorem enqueues_append (b : Nat) (xs ys : List Event) :
    enqueues b (xs ++ ys) = enqueues b xs ++ enqueues b ys := List.filterMap_append

theorem decodes_append (b : Nat) (xs ys : List Event) :
    decodes b (xs ++ ys) = decodes b xs ++ decodes b ys := List.filterMap_append

theorem enqueues_enqueuePkt (b : Nat) (ps : List NativePkt) :
    enqueues b (ps.map (Event.enqueuePkt b)) = ps := by
  induction ps with
  | nil => rfl
  | cons p ps ih =>
    unfold enqueues at ih ⊢
    rw [List.map_cons, List.filterMap_cons, ih]
    simp only [if_pos]

theorem enqueues_enqueuePkt_of_ne {b b' : Nat} (h : b' ≠ b) (ps : List NativePkt) :
    enqueues b (ps.map (Event.enqueuePkt b')) = [] := by
  unfold enqueues
  rw [List.filterMap_eq_nil_iff]
  intro e he
  obtain ⟨p, -, rfl⟩ := List.mem_map.mp he
  exact if_neg h

theorem decodes_enqueuePkt (b b' : Nat) (ps : List NativePkt) :
    decodes b (ps.map (Event.enqueuePkt b')) = [] := by
  unfold decodes
  rw [List.filterMap_eq_nil_iff]
  intro e he
  obtain ⟨p, -, rfl⟩ := List.mem_map.mp he
  rfl

theorem decodes_decodeBatch (b : Nat) (is : List Nat) (batch : Nat → Nat → Gf) (tr : List Event) :
    decodes b (.decodeBatch b is batch :: tr) = (is, batch) :: decodes b tr := by
  unfold decodes
  rw [List.filterMap_cons]
  simp only [if_pos]

theorem enqueues_decodeBatch (b b' : Nat) (is : List Nat) (batch : Nat → Nat → Gf)
    (tr : List Event) : enqueues b (.decodeBatch b' is batch :: tr) = enqueues b tr := rfl

/-- A list of events that neither enqueues nor decodes for a batch. -/
structure Silent (b : Nat) (tr : List Event) : Prop where
  enqueues : enqueues b tr = []
  decodes : decodes b tr = []

theorem Silent.append {b : Nat} {xs ys : List Event} (hx : Silent b xs) (hy : Silent b ys) :
    Silent b (xs ++ ys) :=
  ⟨by rw [enqueues_append, hx.enqueues, hy.enqueues]; rfl,
    by rw [decodes_append, hx.decodes, hy.decodes]; rfl⟩

theorem isIndExist_iff (arr : Nat → Nat) (len val : Nat) :
    isIndExist arr len val = true ↔ val ∈ (List.range len).map arr := by
  simp [isIndExist]

/-! ## The state while a batch is current -/

/-- The decoder and the arrays hold the packets that the batch used. -/
structure Holds (s : RcvAth) (us : List AthCodePkt) : Prop where
  codec : s.decoder.codec_type = .kDecoder
  max_batch_size : s.decoder.max_batch_size = MAX_BATCH_SIZE
  pkt_size : s.decoder.pkt_size = PKT_SIZE
  head : ∀ p ∈ us, s.decoder.k = p.k ∧ s.decoder.n = p.n ∧ ∀ i < p.k, s.decoder.lens i = p.lens i
  early : (List.range s.early_decoding_cnt).map s.early_decoding_inds = (natives us).map (·.ind)
  inds : s.decoding_done = false →
    (List.range s.decoder.cur_ind).map s.decoder.inds = us.map (·.ind)
  done : s.decoding_done = true ↔ ∃ p ∈ us, us.length = p.k
  le : ∀ p ∈ us, us.length ≤ p.k

/-- The state right before a packet that is of use. -/
structure Open (s : RcvAth) (us : List AthCodePkt) (p : AthCodePkt) : Prop where
  codec : s.decoder.codec_type = .kDecoder
  max_batch_size : s.decoder.max_batch_size = MAX_BATCH_SIZE
  pkt_size : s.decoder.pkt_size = PKT_SIZE
  eq_k : s.decoder.k = p.k
  eq_n : s.decoder.n = p.n
  lens : ∀ i < p.k, s.decoder.lens i = p.lens i
  early : (List.range s.early_decoding_cnt).map s.early_decoding_inds = (natives us).map (·.ind)
  inds : (List.range s.decoder.cur_ind).map s.decoder.inds = us.map (·.ind)
  undone : s.decoding_done = false
  room : us.length < p.k
  new : p.ind ∉ us.map (·.ind)

theorem Open.cur_ind {s : RcvAth} {us : List AthCodePkt} {p : AthCodePkt} (h : Open s us p) :
    s.decoder.cur_ind = us.length := by
  have hlen := congrArg List.length h.inds
  simpa using hlen

/-! ## The native packet of a push -/

theorem natives_append (us vs : List AthCodePkt) :
    natives (us ++ vs) = natives us ++ natives vs := List.filter_append ..

theorem range_update {α : Type} (arr : Nat → α) (m : Nat) (x : α) :
    (List.range (m + 1)).map (Function.update arr m x) = (List.range m).map arr ++ [x] := by
  rw [List.range_succ, List.map_append, List.map_singleton, Function.update_self]
  congr 1
  apply List.map_congr_left
  intro i hi
  exact Function.update_of_ne (Nat.ne_of_lt (List.mem_range.mp hi)) x arr

/-- What the early enqueue leaves and shows. -/
theorem enqueueNative_ok {s : RcvAth} {p : AthCodePkt}
    (hlens : ∀ i < p.k, s.decoder.lens i = p.lens i) :
    ∃ s', enqueueNative s p = (s', ((natives [p]).map ownPkt).map (.enqueuePkt s.batch_id)) ∧
      s'.batch_id = s.batch_id ∧ s'.start_seq = s.start_seq ∧ s'.decoder = s.decoder ∧
      s'.decoding_done = s.decoding_done ∧
      (List.range s'.early_decoding_cnt).map s'.early_decoding_inds =
        (List.range s.early_decoding_cnt).map s.early_decoding_inds ++
          (natives [p]).map (·.ind) := by
  unfold enqueueNative natives isNative
  by_cases hk : p.ind < p.k
  · rw [if_pos hk, List.filter_cons_of_pos (by simpa using hk), hlens p.ind hk]
    exact ⟨_, rfl, rfl, rfl, rfl, rfl, range_update _ _ _⟩
  · rw [if_neg hk, List.filter_cons_of_neg (by simpa using hk)]
    exact ⟨_, rfl, rfl, rfl, rfl, rfl, (List.append_nil _).symm⟩

/-! ## The late packets -/

/-- The loop of the late packets: the decoder steps with it, and no pop fails. -/
theorem enqueueLate_ok (s : RcvAth) (p : AthCodePkt) {d : CodeInfo} {m : Nat}
    (hd : d.codec_type = .kDecoder) (hk : d.k = p.k) (hm : d.cur_ind + m = p.k) :
    ∃ d', enqueueLate s p d (List.range' d.cur_ind m) = .ok (d',
        ((List.range' d.cur_ind m).filter fun i =>
          i ∉ (List.range s.early_decoding_cnt).map s.early_decoding_inds).map fun i =>
            .enqueuePkt s.batch_id ⟨add32 p.start_seq i, d.lens i, d.coded_batch i⟩) ∧
      d'.codec_type = .kDecoder ∧ d'.max_batch_size = d.max_batch_size ∧
      d'.pkt_size = d.pkt_size ∧ d'.k = d.k ∧ d'.n = d.n ∧ d'.lens = d.lens := by
  induction m generalizing d with
  | zero => exact ⟨d, rfl, hd, rfl, rfl, rfl, rfl, rfl⟩
  | succ m ih =>
    obtain ⟨d', hd', hrest⟩ := ih (d := { d with cur_ind := d.cur_ind + 1 }) hd hk
      (by simp only; omega)
    refine ⟨d', ?_, hrest⟩
    rw [List.range'_succ, enqueueLate]
    by_cases hin : isIndExist s.early_decoding_inds s.early_decoding_cnt d.cur_ind
    · have hmem := (isIndExist_iff _ _ _).mp hin
      rw [hin, if_neg (by decide)]
      simp only [List.filter_cons, hmem, not_true_eq_false, decide_false]
      exact hd'
    · have hmem : d.cur_ind ∉ (List.range s.early_decoding_cnt).map s.early_decoding_inds :=
        fun h => hin ((isIndExist_iff _ _ _).mpr h)
      rw [Bool.not_eq_true] at hin
      have hpop := popPkt_decoder hd (by omega)
      rw [hin, if_pos (by decide), hpop]
      simp only [bind, Except.bind, hd', List.filter_cons, hmem, not_false_eq_true, decide_true]
      rfl

/-- The decoder keeps everything but the packets and the place in them. -/
structure SameCode (d' d : CodeInfo) : Prop where
  codec : d'.codec_type = d.codec_type
  max_batch_size : d'.max_batch_size = d.max_batch_size
  pkt_size : d'.pkt_size = d.pkt_size
  eq_k : d'.k = d.k
  eq_n : d'.n = d.n
  lens : d'.lens = d.lens

theorem SameCode.trans {a b c : CodeInfo} (h : SameCode a b) (h' : SameCode b c) : SameCode a c :=
  ⟨h.codec.trans h'.codec, h.max_batch_size.trans h'.max_batch_size,
    h.pkt_size.trans h'.pkt_size, h.eq_k.trans h'.eq_k, h.eq_n.trans h'.eq_n,
    h.lens.trans h'.lens⟩

/-- The end of a batch: it is decoded when some native packet did not come. -/
theorem finishBatch_ok {s : RcvAth} {us : List AthCodePkt} {p : AthCodePkt} (hp : Header p)
    (hn : p.n < 2 ^ 8) (hd : s.decoder.codec_type = .kDecoder) (hdk : s.decoder.k = p.k)
    (hdn : s.decoder.n = p.n) (hlens : ∀ i < p.k, s.decoder.lens i = p.lens i)
    (hearly : (List.range s.early_decoding_cnt).map s.early_decoding_inds =
      (natives us).map (·.ind)) :
    ∃ decoder out, finishBatch s p = .ok ({ s with decoder, decoding_done := true },
        out ++ [.setDecodingDone true]) ∧ SameCode decoder s.decoder ∧
      ((natives us).length = p.k ∧ out = [] ∨ (natives us).length ≠ p.k ∧ ∃ batch,
        out = .decodeBatch s.batch_id ((List.range p.k).map s.decoder.inds) batch ::
          (latePkts p us batch).map (.enqueuePkt s.batch_id)) := by
  have hcnt : s.early_decoding_cnt = (natives us).length := by
    have hlen := congrArg List.length hearly
    simpa using hlen
  unfold finishBatch
  by_cases hall : s.early_decoding_cnt = p.k
  · rw [if_neg (not_not_intro hall)]
    exact ⟨s.decoder, [], rfl, ⟨rfl, rfl, rfl, rfl, rfl, rfl⟩, .inl ⟨by omega, rfl⟩⟩
  · have hk := hp.k_pos
    have hkn := hp.k_le
    obtain ⟨code, hcode, -⟩ := fecNew_made (k := s.decoder.k) (n := s.decoder.n) (by omega)
      (by omega) (by unfold GF_SIZE GF_BITS; omega)
    obtain ⟨error, coded_batch, inds, hdec⟩ := decodeBatch_some hcode
    obtain ⟨d, hlate, hcodec, hmax, hsize, hk', hn', hl'⟩ := enqueueLate_ok s p
      (d := { s.decoder with coded_batch, inds, cur_ind := 0 }) hd hdk (Nat.zero_add _)
    rw [hearly, ← List.range_eq_range'] at hlate
    rw [if_pos hall]
    unfold decodeLate
    rw [hdec]
    simp only [bind, Except.bind, hlate]
    refine ⟨d, _, rfl, ⟨hcodec.trans hd.symm, hmax, hsize, hk', hn', hl'⟩,
      .inr ⟨by omega, coded_batch, ?_⟩⟩
    unfold latePkts
    rw [List.map_map, List.cons.injEq]
    refine ⟨rfl, List.map_congr_left fun i hi => ?_⟩
    have hik := List.mem_range.mp (List.mem_filter.mp hi).1
    simp only [Function.comp_apply, hlens i hik]

/-! ## A push -/

/-- The decoder takes a packet that is of use. -/
theorem Open.push {cfg : Config} {s : RcvAth} {us : List AthCodePkt} {p : AthCodePkt}
    (h : Open s us p) (hp : Downlink cfg p) :
    ∃ d, pushPkt s.decoder (payloadLen cfg p) p.payload p.ind = some (true, d) ∧
      SameCode d s.decoder ∧ d.cur_ind = us.length + 1 ∧
      (List.range d.cur_ind).map d.inds = (us ++ [p]).map (·.ind) := by
  have hind := hp.header.ind_lt
  have hkn := hp.header.k_le
  have hcur := h.cur_ind
  have hroom := h.room
  have hn := hp.n_lt
  have hdn := h.eq_n
  have hin : p.ind < s.decoder.n := by omega
  have hsize : payloadLen cfg p ≤ s.decoder.pkt_size := by
    rw [h.pkt_size]
    exact hp.len_le
  have hpush := pushPkt_decoder p.payload h.codec hin (by omega)
    (by unfold GF_SIZE GF_BITS; omega) hp.len_pos hsize
  refine ⟨_, hpush, ⟨rfl, rfl, rfl, rfl, rfl, rfl⟩, congrArg (· + 1) hcur, ?_⟩
  rw [List.map_append, ← h.inds]
  exact range_update _ _ _

/-- What a push shows: the native packet, and the late ones after a decoding. -/
def PushOut (b : Nat) (us : List AthCodePkt) (p : AthCodePkt) (out : List Event) : Prop :=
  ∃ ds es, out = ((natives [p]).map ownPkt).map (.enqueuePkt b) ++ (ds ++ es) ∧
    (¬NeedsDecoding p (us ++ [p]) ∧ ds = [] ∨ NeedsDecoding p (us ++ [p]) ∧ ∃ batch,
        ds = .decodeBatch b ((us ++ [p]).map (·.ind)) batch ::
          (latePkts p (us ++ [p]) batch).map (.enqueuePkt b)) ∧
    ∀ b', Silent b' es

/-- The state that a push leaves, when the batch is done as soon as it is full. -/
theorem Open.holds {s s' : RcvAth} {us : List AthCodePkt} {p : AthCodePkt} (h : Open s us p)
    (hsame : ∀ q ∈ us, SameBatch q p) (hd : SameCode s'.decoder s.decoder)
    (hearly : (List.range s'.early_decoding_cnt).map s'.early_decoding_inds =
      (natives (us ++ [p])).map (·.ind))
    (hinds : s'.decoding_done = false →
      (List.range s'.decoder.cur_ind).map s'.decoder.inds = (us ++ [p]).map (·.ind))
    (hdone : s'.decoding_done = true ↔ us.length + 1 = p.k) : Holds s' (us ++ [p]) := by
  have hroom := h.room
  have hk : ∀ q ∈ us ++ [p], q.k = p.k ∧ q.n = p.n ∧ ∀ i < p.k, q.lens i = p.lens i := by
    intro q hq
    rcases List.mem_append.mp hq with hq | hq
    · have hqp := hsame q hq
      exact ⟨hqp.k, hqp.n, fun i hi => hqp.lens i (by rw [hqp.k]; exact hi)⟩
    · rw [List.mem_singleton.mp hq]
      exact ⟨rfl, rfl, fun _ _ => rfl⟩
  refine ⟨hd.codec.trans h.codec, hd.max_batch_size.trans h.max_batch_size,
    hd.pkt_size.trans h.pkt_size, fun q hq => ?_, hearly, hinds, hdone.trans ⟨fun hk' => ?_, ?_⟩,
    fun q hq => ?_⟩
  · obtain ⟨hqk, hqn, hql⟩ := hk q hq
    refine ⟨?_, ?_, fun i hi => ?_⟩
    · rw [hd.eq_k, h.eq_k, hqk]
    · rw [hd.eq_n, h.eq_n, hqn]
    · rw [hqk] at hi
      rw [hd.lens, h.lens i hi, hql i hi]
  · refine ⟨p, List.mem_append_right us List.mem_cons_self, ?_⟩
    rw [List.length_append, List.length_singleton, hk']
  · rintro ⟨q, hq, hlen⟩
    rwa [(hk q hq).1, List.length_append, List.length_singleton] at hlen
  · rw [(hk q hq).1, List.length_append, List.length_singleton]
    omega

theorem pushCoded_ok {cfg : Config} {s : RcvAth} {us : List AthCodePkt} {p : AthCodePkt}
    (hp : Downlink cfg p) (hs : Open s us p) (hsame : ∀ q ∈ us, SameBatch q p) :
    ∃ s' out, pushCoded cfg s p = .ok (s', out) ∧ Holds s' (us ++ [p]) ∧
      s'.batch_id = s.batch_id ∧ PushOut s.batch_id us p out := by
  have hroom := hs.room
  obtain ⟨d, hpush, hd, hcur, hinds⟩ := hs.push hp
  obtain ⟨t, ht, hbatch, -, htd, htdone, hearly⟩ :=
    enqueueNative_ok (s := { s with decoder := d }) (p := p) (by rw [hd.lens]; exact hs.lens)
  rw [hs.early, ← List.map_append, ← natives_append] at hearly
  unfold pushCoded
  rw [hpush]
  simp only [ht]
  by_cases hfull : t.decoder.cur_ind ≥ p.k
  · rw [if_pos hfull]
    rw [htd, hcur] at hfull
    have hlens : ∀ i < p.k, t.decoder.lens i = p.lens i := by
      rw [htd, hd.lens]
      exact hs.lens
    obtain ⟨d', out, hfin, hd', hcases⟩ := finishBatch_ok hp.header hp.n_lt
      (by rw [htd, hd.codec, hs.codec]) (by rw [htd, hd.eq_k, hs.eq_k])
      (by rw [htd, hd.eq_n, hs.eq_n]) hlens hearly
    have hlen : us.length + 1 = p.k := by omega
    have hlen' : (us ++ [p]).length = p.k := by rw [List.length_append, List.length_singleton, hlen]
    rw [htd] at hd'
    simp only [bind, Except.bind, hfin]
    refine ⟨_, _, rfl, hs.holds hsame (hd'.trans hd) hearly nofun (iff_of_true rfl hlen), hbatch,
      out, [.setDecodingDone true], rfl, ?_, fun _ => ⟨rfl, rfl⟩⟩
    rcases hcases with ⟨hall, rfl⟩ | ⟨hall, batch, rfl⟩
    · exact .inl ⟨fun hneeds => hneeds.2 hall, rfl⟩
    · refine .inr ⟨⟨hlen', hall⟩, batch, ?_⟩
      rw [hbatch, ← hinds, hcur, hlen, htd]
  · rw [if_neg hfull]
    rw [htd, hcur] at hfull
    refine ⟨t, _, rfl, hs.holds hsame (by rw [htd]; exact hd) hearly (fun _ => ?_) ?_, hbatch,
      [], [], ?_, .inl ⟨?_, rfl⟩, fun _ => ⟨rfl, rfl⟩⟩
    · rw [htd]
      exact hinds
    · rw [htdone, hs.undone]
      exact iff_of_false Bool.false_ne_true (by omega)
    · rw [List.append_nil, List.append_nil]
    · intro hneeds
      have hlen := hneeds.1
      rw [List.length_append, List.length_singleton] at hlen
      omega

/-! ## A turn of the loop -/

/-- The events of a turn take a batch from the packets that it used before to
those that it used after. -/
structure Answers (b : Nat) (us us' : List AthCodePkt) (out : List Event) : Prop where
  others : ∀ b', b' ≠ b → Silent b' out
  outcome : ∀ ds es, Outcome us ds es →
    Outcome us' (ds ++ decodes b out) (es ++ enqueues b out)

theorem Answers.of_silent (b : Nat) (us : List AthCodePkt) {out : List Event}
    (h : ∀ b', Silent b' out) : Answers b us us out := by
  refine ⟨fun b' _ => h b', fun ds es ho => ?_⟩
  rw [(h b).enqueues, (h b).decodes, List.append_nil, List.append_nil]
  exact ho

theorem Answers.after_silent {b : Nat} {us us' : List AthCodePkt} {xs out : List Event}
    (hx : ∀ b', Silent b' xs) (h : Answers b us us' out) : Answers b us us' (xs ++ out) := by
  refine ⟨fun b' hb => (hx b').append (h.others b' hb), fun ds es ho => ?_⟩
  rw [enqueues_append, decodes_append, (hx b).enqueues, (hx b).decodes]
  exact h.outcome ds es ho

theorem PushOut.answers {b : Nat} {us : List AthCodePkt} {p : AthCodePkt} {out : List Event}
    (h : PushOut b us p out) (hsame : ∀ q ∈ us, SameBatch q p) (hroom : us.length < p.k) :
    Answers b us (us ++ [p]) out := by
  obtain ⟨ds', es', rfl, hcases, hsilent⟩ := h
  refine ⟨fun b' hb => ?_, fun ds es ho => ?_⟩
  · have hpkts : ∀ ps : List NativePkt, Silent b' (ps.map (.enqueuePkt b)) :=
      fun ps => ⟨enqueues_enqueuePkt_of_ne (Ne.symm hb) ps, decodes_enqueuePkt _ _ ps⟩
    refine (hpkts _).append (Silent.append ?_ (hsilent b'))
    rcases hcases with ⟨-, rfl⟩ | ⟨-, batch, rfl⟩
    · exact ⟨rfl, rfl⟩
    · have hdec : Silent b' [.decodeBatch b ((us ++ [p]).map (·.ind)) batch] :=
        ⟨rfl, List.filterMap_cons_none (if_neg (Ne.symm hb))⟩
      exact hdec.append (hpkts _)
  · -- A batch with room was not decoded yet.
    have hundone : ds = [] ∧ es = (natives us).map ownPkt := by
      rcases ho with ⟨-, hds, hes⟩ | ⟨q, hq, hneeds, -⟩
      · exact ⟨hds, hes⟩
      · have hk := (hsame q hq).k
        have hlen := hneeds.1
        omega
    obtain ⟨rfl, rfl⟩ := hundone
    rw [enqueues_append, enqueues_append, decodes_append, decodes_append, (hsilent b).enqueues,
      (hsilent b).decodes, enqueues_enqueuePkt, decodes_enqueuePkt, List.append_nil,
      List.append_nil, List.nil_append, List.nil_append, ← List.append_assoc, ← List.map_append,
      ← natives_append]
    have hp : p ∈ us ++ [p] := List.mem_append_right us List.mem_cons_self
    rcases hcases with ⟨hno, rfl⟩ | ⟨hneeds, batch, rfl⟩
    · refine .inl ⟨fun q hq hneeds => hno ?_, rfl, List.append_nil _⟩
      rcases List.mem_append.mp hq with hq | hq
      · exact ⟨hneeds.1.trans (hsame q hq).k, fun he => hneeds.2 (he.trans (hsame q hq).k.symm)⟩
      · rwa [List.mem_singleton.mp hq] at hneeds
    · refine .inr ⟨p, hp, hneeds, batch, ?_, ?_⟩
      · rw [decodes_decodeBatch, decodes_enqueuePkt]
      · rw [enqueues_decodeBatch, enqueues_enqueuePkt]

theorem newBatch_ok {s : RcvAth} {p : AthCodePkt} (hp : Header p) (dur : Nat)
    (hcodec : s.decoder.codec_type = .kDecoder)
    (hmax : s.decoder.max_batch_size = MAX_BATCH_SIZE) (hsize : s.decoder.pkt_size = PKT_SIZE) :
    ∃ s' seq, newBatch s p dur = .ok (s', [.setBatchInfo p.batch_id seq false p.ind p.n dur]) ∧
      s'.batch_id = p.batch_id ∧ Open s' [] p := by
  have hk := hp.k_pos
  have hkmax := hp.k_max
  let d0 := setCodeInfo (clearInfo s.decoder) p.k p.n p.start_seq
  let d := { d0 with lens := fun i => if i < p.k then p.lens i else 0 }
  have hroom : ¬(d0.k = 0 ∨ d0.k > d0.max_batch_size) := by
    show ¬(p.k = 0 ∨ p.k > s.decoder.max_batch_size)
    omega
  have hlens : copyLens d0 p.lens = some d := if_neg hroom
  unfold newBatch
  rw [hlens]
  refine ⟨_, _, rfl, rfl, hcodec, hmax, hsize, rfl, rfl, fun i hi => if_pos hi, rfl, rfl, rfl, hk,
    List.not_mem_nil⟩

/-- The choice of `keepNew` is the choice of the code. -/
theorem Holds.isUseful {s : RcvAth} {us : List AthCodePkt} {p q : AthCodePkt} (h : Holds s us)
    (hsame : ∀ q ∈ us, SameBatch q p) (hq : q ∈ us) :
    (s.decoding_done || isIndExist s.decoder.inds s.decoder.cur_ind p.ind) = true ↔
      ¬(us.length < p.k ∧ p.ind ∉ us.map (·.ind)) := by
  have hdone : s.decoding_done = true ↔ us.length = p.k := by
    refine h.done.trans ⟨fun ⟨q, hq, hlen⟩ => hlen.trans (hsame q hq).k, fun hlen => ?_⟩
    exact ⟨q, hq, hlen.trans (hsame q hq).k.symm⟩
  have hle : us.length ≤ p.k := (h.le q hq).trans_eq (hsame q hq).k
  rw [Bool.or_eq_true, hdone, isIndExist_iff, not_and_or, not_not]
  by_cases hfull : us.length = p.k
  · exact iff_of_true (.inl hfull) (.inl (by omega))
  · have hopen : s.decoding_done = false := by
      rw [← Bool.not_eq_true, hdone]
      exact hfull
    rw [h.inds hopen]
    exact or_congr_left (iff_of_false hfull (by omega))

theorem Holds.open {s : RcvAth} {us : List AthCodePkt} {p q : AthCodePkt} (h : Holds s us)
    (hsame : ∀ q ∈ us, SameBatch q p) (hq : q ∈ us) (hroom : us.length < p.k)
    (hnew : p.ind ∉ us.map (·.ind)) : Open s us p := by
  obtain ⟨hk, hn, hl⟩ := h.head q hq
  have hqp := hsame q hq
  have hundone : s.decoding_done = false := by
    rw [← Bool.not_eq_true, h.done]
    rintro ⟨r, hr, hlen⟩
    have hrk := (hsame r hr).k
    omega
  refine ⟨h.codec, h.max_batch_size, h.pkt_size, hk.trans hqp.k, hn.trans hqp.n, fun i hi => ?_,
    h.early, h.inds hundone, hundone, hroom, hnew⟩
  have hqi : i < q.k := by
    rw [hqp.k]
    exact hi
  exact (hl i hqi).trans (hqp.lens i hqi)

/-- A turn with a packet that is not stale. -/
theorem rcvBatch_ok {cfg : Config} {s : RcvAth} {us vs : List AthCodePkt} {p : AthCodePkt}
    (dur : Nat) (hp : Downlink cfg p) (hs : Holds s us) (hle : s.batch_id ≤ p.batch_id)
    (hvs : vs = if s.batch_id < p.batch_id then [] else us)
    (hne : s.batch_id = p.batch_id → us ≠ []) (hsame : ∀ q ∈ vs, SameBatch q p) :
    ∃ s' out, rcvBatch cfg s p dur = .ok (s', out) ∧ s'.batch_id = p.batch_id ∧
      Holds s' (keepNew vs p) ∧ Answers p.batch_id vs (keepNew vs p) out := by
  unfold rcvBatch
  rw [if_neg (by omega)]
  by_cases hnew : s.batch_id < p.batch_id
  · rw [if_pos hnew] at hvs ⊢
    subst hvs
    obtain ⟨s1, seq, h1, hb1, hopen⟩ := newBatch_ok hp.header dur hs.codec hs.max_batch_size
      hs.pkt_size
    obtain ⟨s2, out, h2, hholds, hb2, hout⟩ := pushCoded_ok hp hopen hsame
    have hkeep : keepNew [] p = [] ++ [p] := if_pos ⟨hopen.room, hopen.new⟩
    simp only [bind, Except.bind, h1, h2]
    rw [hkeep]
    refine ⟨s2, _, rfl, hb2.trans hb1, hholds, ?_⟩
    rw [hb1] at hout
    exact .after_silent (fun _ => ⟨rfl, rfl⟩) (hout.answers hsame hopen.room)
  · rw [if_neg hnew] at hvs ⊢
    subst hvs
    have hb : s.batch_id = p.batch_id := by omega
    obtain ⟨q, hq⟩ := List.exists_mem_of_ne_nil _ (hne hb)
    have huse := hs.isUseful hsame hq
    have hquiet : ∀ b', Silent b'
        (if s.decoding_done then [] else [.updateTimeLeft p.ind p.n dur]) := by
      intro b'
      split <;> exact ⟨rfl, rfl⟩
    by_cases huseful : vs.length < p.k ∧ p.ind ∉ vs.map (·.ind)
    · have hno : ¬(s.decoding_done || isIndExist s.decoder.inds s.decoder.cur_ind p.ind) = true :=
        fun h => huse.mp h huseful
      have hopen := hs.open hsame hq huseful.1 huseful.2
      obtain ⟨s2, out, h2, hholds, hb2, hout⟩ := pushCoded_ok hp hopen hsame
      have hkeep : keepNew vs p = vs ++ [p] := if_pos huseful
      simp only [if_neg hno, bind, Except.bind, h2]
      rw [hkeep]
      refine ⟨s2, _, rfl, hb2.trans hb, hholds, ?_⟩
      rw [hb] at hout
      exact .after_silent hquiet (hout.answers hsame hopen.room)
    · have hkeep : keepNew vs p = vs := if_neg huseful
      simp only [if_pos (huse.mpr huseful)]
      rw [hkeep]
      exact ⟨s, _, rfl, hb, hs, .of_silent _ _ hquiet⟩

end wspace_client.rcv_ath

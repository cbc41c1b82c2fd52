-- The round trip of a batch: an encoder takes the packets, and a decoder that
-- gets any `k` of the coded packets, in any order, gives them back.
import WspaceClient.CodeInfo

namespace wspace_client.fec

/-- The content of a packet, as the buffer that it is copied from. -/
def bytes (p : List Gf) : Nat → Gf := fun t => p.getD t 0

/-- Pushes that all return true. A push is a length, a buffer and an index. -/
def pushPkts (c : CodeInfo) : List (Nat × (Nat → Gf) × Nat) → Option CodeInfo
  | [] => some c
  | (len, src, ind) :: ps => do
    match ← pushPkt c len src ind with
    | (true, c) => pushPkts c ps
    | (false, _) => none

/-- As many pops, which all return true. -/
def popPkts (c : CodeInfo) : Nat → Option (List ((Nat → Gf) × Nat))
  | 0 => some []
  | m + 1 => do
    let (dst, len, c) ← popPkt c
    let rest ← popPkts c m
    return (dst, len) :: rest

/-- The encoder, for a batch of packets. -/
def encoded (e : CodeInfo) (n start_seq : Nat) (pkts : List (List Gf)) : Option CodeInfo := do
  let e ← pushPkts (setCodeInfo (clearInfo e) pkts.length n start_seq)
    (pkts.map fun p => (p.length, bytes p, 0))
  encodeBatch e

/-- The decoder, for the coded packets of `e` with these indices. -/
def decoded (d : CodeInfo) (k n start_seq : Nat) (e : CodeInfo) (inds : List Nat) :
    Option (Bool × CodeInfo) := do
  let d ← copyLens (setCodeInfo (clearInfo d) k n start_seq) e.lens
  let d ← pushPkts d (inds.map fun i => (e.sz, e.coded_batch i, i))
  decodeBatch d

/-- The bytes that the caller of `PopPkt` may read. -/
def readOut (o : (Nat → Gf) × Nat) : List Gf := (List.range o.2).map o.1

/-! ## The encoder -/

/-- The packets stand in the batch of the encoder, each one padded with zeros. -/
structure Loaded (n : Nat) (pkts done : List (List Gf)) (c : CodeInfo) : Prop where
  codec : c.codec_type = .kEncoder
  eq_k : c.k = pkts.length
  eq_n : c.n = n
  cur : c.cur_ind = done.length
  stored : ∀ i p, done[i]? = some p → c.lens i = p.length ∧ c.original_batch i = bytes p
  blank : ∀ i, done.length ≤ i → c.original_batch i = fun _ => 0
  sz_le : ∀ p ∈ done, p.length ≤ c.sz
  sz_mem : c.sz = 0 ∨ ∃ p ∈ done, c.sz = p.length

theorem bcopy_bytes (p : List Gf) : bcopy (bytes p) (fun _ => 0) p.length = bytes p := by
  funext t
  unfold bcopy bytes
  split
  · rfl
  · rw [List.getD_eq_getElem?_getD, List.getElem?_eq_none (by omega), Option.getD_none]

/-- A push stores the next packet. -/
theorem Loaded.push {n : Nat} {pkts done : List (List Gf)} {p : List Gf} {c : CodeInfo}
    (h : Loaded n pkts done c) (hroom : done.length < pkts.length)
    (hrows : pkts.length ≤ c.max_batch_size) (h1 : 1 ≤ p.length) (h2 : p.length ≤ c.pkt_size) :
    ∃ c', pushPkt c p.length (bytes p) 0 = some (true, c') ∧ Loaded n pkts (done ++ [p]) c' ∧
      c'.max_batch_size = c.max_batch_size ∧ c'.pkt_size = c.pkt_size := by
  have hcur := h.cur
  have hk := h.eq_k
  have hsz : ∀ x, x ≤ c.sz ∨ x = p.length → x ≤ if c.sz < p.length then p.length else c.sz := by
    intro x hx
    split <;> omega
  refine ⟨_, pushPkt_encoder (bytes p) h.codec (by omega) (by omega) h1 h2, ?_, rfl, rfl⟩
  refine ⟨h.codec, h.eq_k, h.eq_n, ?_, fun i q hq => ?_, fun i hi => ?_, fun q hq => ?_, ?_⟩
  · simp only [List.length_append, List.length_cons, List.length_nil, hcur]
  · by_cases hi : i = c.cur_ind
    · rw [hi, hcur, List.getElem?_concat_length, Option.some.injEq] at hq
      subst hq
      simp only [hi, Function.update_self, h.blank c.cur_ind (by omega), bcopy_bytes, and_self]
    · simp only [Function.update_of_ne hi]
      have hlt : i < (done ++ [p]).length := (List.getElem?_eq_some_iff.mp hq).1
      simp only [List.length_append, List.length_cons, List.length_nil] at hlt
      rw [List.getElem?_append_left (by omega)] at hq
      exact h.stored i q hq
  · simp only [List.length_append, List.length_cons, List.length_nil] at hi
    simp only [Function.update_of_ne (show i ≠ c.cur_ind by omega)]
    exact h.blank i (by omega)
  · rw [List.mem_append, List.mem_singleton] at hq
    apply hsz
    rcases hq with hq | rfl
    · exact .inl (h.sz_le q hq)
    · exact .inr rfl
  · right
    by_cases hgt : c.sz < p.length
    · exact ⟨p, by simp, if_pos hgt⟩
    · obtain ⟨q, hq, he⟩ := h.sz_mem.resolve_left (by omega)
      exact ⟨q, List.mem_append_left _ hq, (if_neg hgt).trans he⟩

/-- The pushes of a whole batch. -/
theorem Loaded.pushAll {n : Nat} {pkts done rest : List (List Gf)} {c : CodeInfo}
    (h : Loaded n pkts done c) (hroom : done.length + rest.length ≤ pkts.length)
    (hrows : pkts.length ≤ c.max_batch_size)
    (hrest : ∀ p ∈ rest, 1 ≤ p.length ∧ p.length ≤ c.pkt_size) :
    ∃ c', pushPkts c (rest.map fun p => (p.length, bytes p, 0)) = some c' ∧
      Loaded n pkts (done ++ rest) c' := by
  induction rest generalizing done c with
  | nil => exact ⟨c, rfl, by simpa using h⟩
  | cons p rest ih =>
    rw [List.length_cons] at hroom
    obtain ⟨h1, h2⟩ := hrest p List.mem_cons_self
    obtain ⟨c1, hc1, hl1, hmax, hpkt⟩ := h.push (by omega) hrows h1 h2
    obtain ⟨c2, hc2, hl2⟩ := ih hl1
      (by simp only [List.length_append, List.length_cons, List.length_nil]; omega)
      (by omega) (fun q hq => by rw [hpkt]; exact hrest q (List.mem_cons_of_mem _ hq))
    refine ⟨c2, ?_, by simpa using hl2⟩
    rw [List.map_cons, pushPkts]
    simp only [hc1, bind, Option.bind]
    exact hc2

/-- What the decoder needs to know of a finished encoder. -/
structure Coded (code : FecParms) (pkts : List (List Gf)) (e : CodeInfo) : Prop where
  lens : ∀ i p, pkts[i]? = some p → e.lens i = p.length ∧ p.length ≤ e.sz
  sz_mem : ∃ p ∈ pkts, e.sz = p.length
  batch : ∀ i < code.n, ∀ t < e.sz,
    e.coded_batch i t = ∑ l : Fin code.k, code.enc_matrix i l * bytes (pkts.getD l []) t

/-- After `i` turns of `EncodeBatch`, the first `i` packets are coded. -/
structure EncodedTo (code : FecParms) (c0 : CodeInfo) (i : Nat) (c : CodeInfo) : Prop where
  lens : c.lens = c0.lens
  sz : c.sz = c0.sz
  original : c.original_batch = c0.original_batch
  batch : ∀ j < i, ∀ t < c0.sz,
    c.coded_batch j t = ∑ l : Fin code.k, code.enc_matrix j l * c0.original_batch l t

theorem encodePkt_step {code : FecParms} {k n i : Nat} {c0 c : CodeInfo} (hmade : code.Made k n)
    (hi : i < n) (h : EncodedTo code c0 i c) : EncodedTo code c0 (i + 1) (encodePkt code c i) := by
  refine ⟨h.lens, h.sz, h.original, fun j hj t ht => ?_⟩
  unfold encodePkt
  by_cases hji : j = i
  · subst hji
    have hk := hmade.eq_k
    subst hk
    simp only [Function.update_self, h.original, h.sz]
    exact fecEncode_eq hmade hi ht _ _
  · simp only [Function.update_of_ne hji]
    exact h.batch j (by omega) t ht

theorem encodeBatch_coded {n : Nat} {pkts : List (List Gf)} {c : CodeInfo} {code : FecParms}
    (h : Loaded n pkts pkts c) (hsz : c.sz ≠ 0) (hcode : fecNew pkts.length n = some code)
    (hmade : code.Made pkts.length n) :
    ∃ e, encodeBatch c = some e ∧ Coded code pkts e := by
  have hloop : EncodedTo code c n ((List.range n).foldl (encodePkt code) c) :=
    foldl_range_rule (EncodedTo code c)
      ⟨rfl, rfl, rfl, fun j hj => absurd hj (Nat.not_lt_zero j)⟩
      fun i c' hi hc' => encodePkt_step hmade hi hc'
  refine ⟨{ (List.range n).foldl (encodePkt code) c with cur_ind := 0 }, ?_, ?_⟩
  · unfold encodeBatch
    rw [h.eq_k, h.eq_n, hcode]
    rfl
  · refine ⟨fun i p hp => ?_, ?_, fun i hi t ht => ?_⟩
    · simp only [hloop.lens, hloop.sz]
      exact ⟨(h.stored i p hp).1, h.sz_le p (List.mem_of_getElem? hp)⟩
    · rw [hloop.sz]
      exact h.sz_mem.resolve_left hsz
    · rw [hmade.eq_n] at hi
      rw [hloop.sz] at ht
      rw [hloop.batch i hi t ht]
      refine Finset.sum_congr rfl fun l _ => ?_
      have hl : (l : Nat) < pkts.length := Nat.lt_of_lt_of_eq l.isLt hmade.eq_k
      rw [(h.stored l _ (List.getElem?_eq_getElem hl)).2, List.getD_eq_getElem?_getD,
        List.getElem?_eq_getElem hl, Option.getD_some]

/-! ## The decoder -/

/-- The coded packets with the first indices stand in the batch of the decoder. -/
structure Received (k n : Nat) (e : CodeInfo) (done : List Nat) (d : CodeInfo) : Prop where
  codec : d.codec_type = .kDecoder
  eq_k : d.k = k
  eq_n : d.n = n
  cur : d.cur_ind = done.length
  lens : ∀ i < k, d.lens i = e.lens i
  stored : ∀ j i, done[j]? = some i →
    d.inds j = i ∧ ∀ t < e.sz, d.coded_batch j t = e.coded_batch i t
  sz : done ≠ [] → d.sz = e.sz
  sz_le : d.sz ≤ e.sz

theorem Received.push {k n i : Nat} {e d : CodeInfo} {done : List Nat}
    (h : Received k n e done d) (hi : i < n) (hroom : done.length < n) (hn : n ≤ GF_SIZE + 1)
    (hpos : 1 ≤ e.sz) (hpkt : e.sz ≤ d.pkt_size) :
    ∃ d', pushPkt d e.sz (e.coded_batch i) i = some (true, d') ∧
      Received k n e (done ++ [i]) d' ∧ d'.pkt_size = d.pkt_size := by
  have hcur := h.cur
  have hdn := h.eq_n
  have hle := h.sz_le
  refine ⟨_, pushPkt_decoder (e.coded_batch i) h.codec (by omega) (by omega) (by omega) hpos hpkt,
    ?_, rfl⟩
  refine ⟨h.codec, h.eq_k, h.eq_n, ?_, h.lens, fun j q hq => ?_, fun _ => ?_, ?_⟩
  · simp only [List.length_append, List.length_cons, List.length_nil, hcur]
  · by_cases hj : j = d.cur_ind
    · rw [hj, hcur, List.getElem?_concat_length, Option.some.injEq] at hq
      subst hq
      simp only [hj, Function.update_self, true_and]
      exact fun t ht => bcopy_of_lt _ _ ht
    · simp only [Function.update_of_ne hj]
      have hlt : j < (done ++ [i]).length := (List.getElem?_eq_some_iff.mp hq).1
      simp only [List.length_append, List.length_cons, List.length_nil] at hlt
      rw [List.getElem?_append_left (by omega)] at hq
      exact h.stored j q hq
  · simp only
    split <;> omega
  · simp only
    split <;> omega

theorem Received.pushAll {k n : Nat} {e d : CodeInfo} {done rest : List Nat}
    (h : Received k n e done d) (hrest : ∀ i ∈ rest, i < n) (hroom : done.length + rest.length ≤ n)
    (hn : n ≤ GF_SIZE + 1) (hpos : 1 ≤ e.sz) (hpkt : e.sz ≤ d.pkt_size) :
    ∃ d', pushPkts d (rest.map fun i => (e.sz, e.coded_batch i, i)) = some d' ∧
      Received k n e (done ++ rest) d' := by
  induction rest generalizing done d with
  | nil => exact ⟨d, rfl, by simpa using h⟩
  | cons i rest ih =>
    rw [List.length_cons] at hroom
    obtain ⟨d1, hd1, hr1, hsize⟩ :=
      h.push (hrest i List.mem_cons_self) (by omega) hn hpos hpkt
    obtain ⟨d2, hd2, hr2⟩ := ih hr1 (fun j hj => hrest j (List.mem_cons_of_mem _ hj))
      (by simp only [List.length_append, List.length_cons, List.length_nil]; omega) (by omega)
    refine ⟨d2, ?_, by simpa using hr2⟩
    rw [List.map_cons, pushPkts]
    simp only [hd1, bind, Option.bind]
    exact hd2

/-- The pops read the batch from the current place on. -/
theorem popPkts_eq {d : CodeInfo} {m : Nat} (hd : d.codec_type = .kDecoder)
    (hm : d.cur_ind + m ≤ d.k) : popPkts d m =
      some ((List.range' d.cur_ind m).map fun i => (d.coded_batch i, d.lens i)) := by
  induction m generalizing d with
  | zero => rfl
  | succ m ih =>
    have hpop := popPkt_decoder hd (by omega)
    have hrest := ih (d := { d with cur_ind := d.cur_ind + 1 }) hd (by simp only; omega)
    rw [popPkts]
    simp only [hpop, bind, Option.bind, hrest, List.range'_succ, List.map_cons]
    rfl

/-! ## The round trip -/

theorem encoded_coded {e : CodeInfo} {n : Nat} {pkts : List (List Gf)} {code : FecParms}
    (start_seq : Nat) (he : e.codec_type = .kEncoder) (hne : pkts ≠ [])
    (hmax : pkts.length ≤ e.max_batch_size)
    (hpkts : ∀ p ∈ pkts, 1 ≤ p.length ∧ p.length ≤ e.pkt_size)
    (hcode : fecNew pkts.length n = some code) (hmade : code.Made pkts.length n) :
    ∃ e', encoded e n start_seq pkts = some e' ∧ Coded code pkts e' := by
  have h0 : Loaded n pkts [] (setCodeInfo (clearInfo e) pkts.length n start_seq) := by
    refine ⟨he, rfl, rfl, rfl, by simp, fun i _ => ?_, by simp, .inl rfl⟩
    unfold setCodeInfo clearInfo
    simp only [he]
  have hall : ([] ++ pkts).length ≤ e.max_batch_size := hmax
  obtain ⟨c, hc, hl⟩ := h0.pushAll (by simp) hall hpkts
  have hsz : c.sz ≠ 0 := by
    obtain ⟨p, hp⟩ := List.exists_mem_of_ne_nil pkts hne
    have h1 := (hpkts p hp).1
    have h2 := hl.sz_le p hp
    omega
  obtain ⟨e', he', hcoded⟩ := encodeBatch_coded hl hsz hcode hmade
  refine ⟨e', ?_, hcoded⟩
  unfold encoded
  rw [hc]
  exact he'

/-- The decoder, right before its pops. -/
structure Recovered (pkts : List (List Gf)) (e d : CodeInfo) : Prop where
  codec : d.codec_type = .kDecoder
  eq_k : d.k = pkts.length
  cur : d.cur_ind = 0
  lens : ∀ i < pkts.length, d.lens i = e.lens i
  batch : ∀ i < pkts.length, ∀ t < e.sz, d.coded_batch i t = bytes (pkts.getD i []) t

theorem decodeBatch_recovered {e d : CodeInfo} {n : Nat} {pkts : List (List Gf)} {code : FecParms}
    {inds : List Nat} (hk : 1 ≤ pkts.length) (hkn : pkts.length ≤ n) (hn : n ≤ GF_SIZE + 1)
    (hcode : fecNew pkts.length n = some code) (hmade : code.Made pkts.length n)
    (he : Coded code pkts e) (hinds : inds.length = pkts.length) (hdistinct : inds.Nodup)
    (hlt : ∀ i ∈ inds, i < n) (h : Received pkts.length n e inds d) :
    ∃ d', decodeBatch d = some (false, d') ∧ Recovered pkts e d' := by
  have hne : inds ≠ [] := by
    rintro rfl
    simp only [List.length_nil] at hinds
    omega
  have hat : ∀ j < pkts.length, ∃ i, inds[j]? = some i ∧ i < n := by
    intro j hj
    rw [← hinds] at hj
    exact ⟨inds[j], List.getElem?_eq_getElem hj, hlt _ (List.getElem_mem hj)⟩
  have hindex : ∀ j < pkts.length, d.inds j < n := by
    intro j hj
    obtain ⟨i, hi, hin⟩ := hat j hj
    rw [(h.stored j i hi).1]
    exact hin
  have hinj : Set.InjOn d.inds (Finset.range pkts.length) := by
    intro a ha b hb hab
    have ha := Finset.mem_range.mp ha
    obtain ⟨i, hi, -⟩ := hat a ha
    obtain ⟨j, hj, -⟩ := hat b (Finset.mem_range.mp hb)
    rw [(h.stored a i hi).1, (h.stored b j hj).1] at hab
    have ha' : a < inds.length := by omega
    exact (List.getElem?_inj ha' hdistinct).mp (by rw [hi, hj, hab])
  have hpkt : ∀ j < pkts.length, ∀ t < e.sz, d.coded_batch j t =
      ∑ l : Fin pkts.length, code.enc_matrix (d.inds j) l * bytes (pkts.getD l []) t := by
    intro j hj t ht
    obtain ⟨i, hi, hin⟩ := hat j hj
    have hcoded := he.batch i (by rw [hmade.eq_n]; exact hin) t ht
    rw [hmade.eq_k] at hcoded
    rw [(h.stored j i hi).2 t ht, (h.stored j i hi).1, hcoded]
  obtain ⟨pkt', index', hdec, hx⟩ := fecDecode_spec (x := fun l => bytes (pkts.getD l []))
    hmade hk hkn hn hindex hinj hpkt
  refine ⟨{ d with coded_batch := pkt', inds := index', cur_ind := 0 }, ?_,
    h.codec, h.eq_k, rfl, h.lens, hx⟩
  unfold decodeBatch
  rw [h.eq_k, h.eq_n, hcode]
  simp only [bind, Option.bind, h.sz hne, hdec]
  rfl

theorem decoded_recovered {e d : CodeInfo} {n : Nat} {pkts : List (List Gf)} {code : FecParms}
    {inds : List Nat} (start_seq : Nat) (hd : d.codec_type = .kDecoder) (hk : 1 ≤ pkts.length)
    (hkn : pkts.length ≤ n) (hn : n ≤ GF_SIZE + 1) (hmax : pkts.length ≤ d.max_batch_size)
    (hcode : fecNew pkts.length n = some code) (hmade : code.Made pkts.length n)
    (he : Coded code pkts e) (hpos : 1 ≤ e.sz) (hsize : e.sz ≤ d.pkt_size)
    (hinds : inds.length = pkts.length)
    (hdistinct : inds.Nodup) (hlt : ∀ i ∈ inds, i < n) :
    ∃ d', decoded d pkts.length n start_seq e inds = some (false, d') ∧ Recovered pkts e d' := by
  let d0 := setCodeInfo (clearInfo d) pkts.length n start_seq
  let d1 := { d0 with lens := fun i => if i < pkts.length then e.lens i else 0 }
  have hroom : ¬(pkts.length = 0 ∨ pkts.length > d.max_batch_size) := by omega
  have hlens : copyLens d0 e.lens = some d1 := if_neg hroom
  have h0 : Received pkts.length n e [] d1 :=
    ⟨hd, rfl, rfl, rfl, fun i hi => if_pos hi, by simp, nofun, Nat.zero_le _⟩
  obtain ⟨d2, hd2, h2⟩ := h0.pushAll hlt (by simp only [List.length_nil]; omega) hn hpos hsize
  obtain ⟨d', hd', hrec⟩ :=
    decodeBatch_recovered hk hkn hn hcode hmade he hinds hdistinct hlt h2
  refine ⟨d', ?_, hrec⟩
  unfold decoded
  rw [hlens]
  simp only [bind, Option.bind, hd2]
  exact hd'

/-- A buffer that starts with a packet, and its length, give the packet. -/
theorem readOut_eq {buf : Nat → Gf} {p : List Gf} (h : ∀ t < p.length, buf t = bytes p t) :
    readOut (buf, p.length) = p := by
  unfold readOut
  refine List.ext_getElem (by simp) fun t ht ht' => ?_
  simp only [List.getElem_map, List.getElem_range]
  rw [h t ht']
  unfold bytes
  rw [List.getD_eq_getElem?_getD, List.getElem?_eq_getElem ht', Option.getD_some]

/-- Whatever `k` coded packets with distinct indices come, in whatever order,
the pops after the decoding give the packets back. -/
theorem any_k_coded_packets_give_the_packets_back {e d : CodeInfo} {n start_seq start_seq' : Nat}
    {pkts : List (List Gf)} {inds : List Nat} (he : e.codec_type = .kEncoder)
    (hd : d.codec_type = .kDecoder) (hk : 1 ≤ pkts.length) (hkn : pkts.length ≤ n) (hn : n ≤ 256)
    (hmax : pkts.length ≤ e.max_batch_size) (hmax' : pkts.length ≤ d.max_batch_size)
    (hsize : e.pkt_size = d.pkt_size)
    (hpkts : ∀ p ∈ pkts, 1 ≤ p.length ∧ p.length ≤ e.pkt_size)
    (hinds : inds.length = pkts.length) (hdistinct : inds.Nodup) (hlt : ∀ i ∈ inds, i < n) :
    ∃ e' d' out, encoded e n start_seq pkts = some e' ∧
      decoded d pkts.length n start_seq' e' inds = some (false, d') ∧
      popPkts d' pkts.length = some out ∧
      out.map (·.2) = (List.range pkts.length).map e'.lens ∧ out.map readOut = pkts := by
  have hne : pkts ≠ [] := by
    rintro rfl
    cases hk
  obtain ⟨code, hcode, hmade⟩ := fecNew_made hk hkn hn
  obtain ⟨e', he', hcoded⟩ := encoded_coded start_seq he hne hmax hpkts hcode hmade
  obtain ⟨p, hp, hsz⟩ := hcoded.sz_mem
  obtain ⟨hp1, hp2⟩ := hpkts p hp
  obtain ⟨d', hd', hrec⟩ := decoded_recovered start_seq' hd hk hkn hn hmax' hcode hmade hcoded
    (by omega) (by omega) hinds hdistinct hlt
  refine ⟨e', d', _, he', hd', popPkts_eq hrec.codec (by rw [hrec.cur, hrec.eq_k]; omega), ?_, ?_⟩
  · rw [hrec.cur, ← List.range_eq_range', List.map_map]
    exact List.map_congr_left fun i hi => hrec.lens i (List.mem_range.mp hi)
  · rw [hrec.cur, ← List.range_eq_range', List.map_map]
    refine List.ext_getElem (by simp) fun i hi hi' => ?_
    simp only [List.getElem_map, List.getElem_range, Function.comp_apply]
    have hat := List.getElem?_eq_getElem hi'
    obtain ⟨hlen, hle⟩ := hcoded.lens i _ hat
    rw [hrec.lens i hi', hlen]
    refine readOut_eq fun t ht => ?_
    rw [hrec.batch i hi' t (by omega), List.getD_eq_getElem?_getD, hat, Option.getD_some]

/-- A batch of the constructor, with the sizes of the client. -/
def newCodeInfo (codec_type : Codec) : CodeInfo :=
  ⟨codec_type, 10, 2000, 0, 0, 0, 0, fun _ => 0, fun _ => 0, 0, fun _ _ => 0, fun _ _ => 0⟩

/-- Two packets of different lengths, from the coded packets 3 and 1 of four. -/
theorem two_packets_come_back : ∃ e' d' out,
    encoded (newCodeInfo .kEncoder) 4 1 [[.ofNat 7, .ofNat 8], [.ofNat 9]] = some e' ∧
    decoded (newCodeInfo .kDecoder) 2 4 1 e' [3, 1] = some (false, d') ∧
    popPkts d' 2 = some out ∧ out.map (·.2) = (List.range 2).map e'.lens ∧
    out.map readOut = [[.ofNat 7, .ofNat 8], [.ofNat 9]] :=
  any_k_coded_packets_give_the_packets_back rfl rfl (by decide) (by decide) (by decide) (by decide)
    (by decide) rfl (by decide) rfl (by decide) (by decide)

end wspace_client.fec

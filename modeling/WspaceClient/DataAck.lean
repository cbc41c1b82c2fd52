-- The data acknowledgements: every list that `FindNackSeqNum` returns fits one
-- `AckPkt` with its 16 bits a number, and the bytes that are sent decode to it.
import WspaceClient.CodeHeader
import WspaceClient.RawAck
import WspaceClient.Snapshots

namespace wspace_client.data_ack

open machine bytes ack_pkt threads
open code_header (int32 int32_lt ofWord ofWord_int32)
open rx_data_buf (BUF_SIZE PKT_SIZE)
open rx_raw_buf (ACK_WINDOW)
open raw_ack (OnePacket)

/-! ## The packet as bytes -/

def TYPE : Nat := 0

def NUM_NACKS : Nat := 2

def NUM_PKTS : Nat := 4

def ACK_SEQ : Nat := 8

def START_NACK_SEQ : Nat := 12

def END_SEQ : Nat := 16

def CLIENT_ID : Nat := 20

def BS_ID : Nat := 24

/-- `sizeof(AckHeader)`. -/
def ACK_HEADER_SIZE : Nat := 28

def typeCode : PktType → Nat
  | .DATA_ACK => 3
  | .RAW_ACK => 5

/-- The object in memory, over the padding of `m`. -/
def toMem (m : Mem) (p : AckPkt) : Mem :=
  let m := write m TYPE 1 (typeCode p.ack_hdr.type)
  let m := write m NUM_NACKS 2 p.ack_hdr.num_nacks
  let m := write m NUM_PKTS 2 p.ack_hdr.num_pkts
  let m := write m ACK_SEQ 4 p.ack_hdr.ack_seq
  let m := write m START_NACK_SEQ 4 p.ack_hdr.start_nack_seq
  let m := write m END_SEQ 4 p.ack_hdr.end_seq
  let m := write m CLIENT_ID 4 (int32 p.ack_hdr.client_id)
  let m := write m BS_ID 4 (int32 p.ack_hdr.bs_id)
  copy m ACK_HEADER_SIZE (2 * ACK_WINDOW) (halves p.rel_seq_arr)

/-- The object that a receiver finds in its memory. -/
def ofMem (m : Mem) : AckPkt where
  ack_hdr :=
    { type := if read m TYPE 1 = typeCode .DATA_ACK then .DATA_ACK else .RAW_ACK
      num_nacks := read m NUM_NACKS 2
      num_pkts := read m NUM_PKTS 2
      ack_seq := read m ACK_SEQ 4
      start_nack_seq := read m START_NACK_SEQ 4
      end_seq := read m END_SEQ 4
      client_id := ofWord (read m CLIENT_ID 4)
      bs_id := ofWord (read m BS_ID 4) }
  rel_seq_arr := fun i => read m (ACK_HEADER_SIZE + 2 * i) 2

/-- `GetLen`, with its assertion. The length is a `uint16`. -/
def getLen (p : AckPkt) : Option Nat :=
  let len := (ACK_HEADER_SIZE + 2 * p.ack_hdr.num_nacks) % 2 ^ 16
  if len ≤ PKT_SIZE ∧ len > 0 then some len else none

/-- The loop of `RxCreateDataAck` over the list. -/
def pushAll (p : AckPkt) : List Nat → Except Abort AckPkt
  | [] => .ok p
  | seq :: seqs => do
    let p ← pushNack p seq
    pushAll p seqs

/-- One turn of `RxCreateDataAck`, up to the packet that it sends. -/
def rxCreateDataAck (p : AckPkt) (nack_seq_arr : List Nat) (end_seq : Nat)
    (client_id bs_id : Int) : Except Abort AckPkt := do
  let p ← pushAll (init p .DATA_ACK) nack_seq_arr
  return set_ids (set_end_seq p end_seq) client_id bs_id

/-! ## A filled packet -/

theorem pushAll_ok {p : AckPkt} {done rest : List Nat} (h : Filled p done)
    (hrest : ∀ q ∈ rest, q < 2 ^ 32) (hlen : done.length + rest.length ≤ ACK_WINDOW) :
    ∃ p', pushAll p rest = .ok p' ∧ Filled p' (done ++ rest) := by
  induction rest generalizing p done with
  | nil => exact ⟨p, rfl, by simpa using h⟩
  | cons q rest ih =>
    rw [List.length_cons] at hlen
    obtain ⟨p1, hp1, h1⟩ := pushNack_filled h (by omega) (hrest q List.mem_cons_self)
    obtain ⟨p2, hp2, h2⟩ := ih h1 (fun x hx => hrest x (List.mem_cons_of_mem _ hx)) (by
      rw [List.length_append, List.length_singleton]
      omega)
    refine ⟨p2, ?_, by rwa [List.append_assoc, List.singleton_append] at h2⟩
    unfold pushAll
    rw [hp1]
    exact hp2

/-- A packet for a list that fits it. -/
structure DataAck (p : AckPkt) (nacks : List Nat) (end_seq : Nat) (client_id bs_id : Int) :
    Prop where
  filled : Filled p nacks
  type : p.ack_hdr.type = .DATA_ACK
  end_seq : p.ack_hdr.end_seq = end_seq
  client_id : p.ack_hdr.client_id = client_id
  bs_id : p.ack_hdr.bs_id = bs_id

theorem pushAll_keeps {p p' : AckPkt} {qs : List Nat} (h : pushAll p qs = .ok p') :
    p'.ack_hdr.type = p.ack_hdr.type ∧ p'.ack_hdr.ack_seq = p.ack_hdr.ack_seq := by
  induction qs generalizing p with
  | nil =>
    cases h
    exact ⟨rfl, rfl⟩
  | cons q qs ih =>
    unfold pushAll at h
    obtain ⟨p1, hq, h⟩ := ok_of_bind h
    obtain ⟨htype, hseq⟩ := pushNack_keeps hq
    obtain ⟨htype', hseq'⟩ := ih h
    exact ⟨htype'.trans htype, hseq'.trans hseq⟩

theorem rxCreateDataAck_ok (p : AckPkt) {nacks : List Nat} (end_seq : Nat) (client_id bs_id : Int)
    (hlt : ∀ q ∈ nacks, q < 2 ^ 32) (hlen : nacks.length < ACK_WINDOW) :
    ∃ p', rxCreateDataAck p nacks end_seq client_id bs_id = .ok p' ∧
      DataAck p' nacks end_seq client_id bs_id := by
  obtain ⟨p1, hp1, h1⟩ := pushAll_ok (init_filled p .DATA_ACK) hlt
    (by rw [List.length_nil]; omega)
  refine ⟨set_ids (set_end_seq p1 end_seq) client_id bs_id, ?_, ?_⟩
  · unfold rxCreateDataAck
    rw [hp1]
    rfl
  · exact ⟨⟨h1.num, h1.arr, h1.start⟩, (pushAll_keeps hp1).1, rfl, rfl, rfl⟩

/-- The length stays below the assertion's bound for every list that fits. -/
theorem getLen_filled {p : AckPkt} {nacks : List Nat} (h : Filled p nacks)
    (hlen : nacks.length < ACK_WINDOW) :
    getLen p = some (ACK_HEADER_SIZE + 2 * nacks.length) := by
  unfold ACK_WINDOW at hlen
  unfold getLen ACK_HEADER_SIZE PKT_SIZE
  rw [h.num]
  have hmod : (28 + 2 * nacks.length) % 2 ^ 16 = 28 + 2 * nacks.length :=
    Nat.mod_eq_of_lt (by omega)
  rw [hmod, if_pos (by omega)]

/-! ## What the bytes decode to -/

/-- The header fields of an object, as they stand in memory. -/
structure HeaderBytes (m : Mem) (h : AckHeader) : Prop where
  type : read m TYPE 1 = typeCode h.type
  num_nacks : h.num_nacks < 2 ^ 16 → read m NUM_NACKS 2 = h.num_nacks
  start_nack_seq : h.start_nack_seq < 2 ^ 32 → read m START_NACK_SEQ 4 = h.start_nack_seq
  end_seq : h.end_seq < 2 ^ 32 → read m END_SEQ 4 = h.end_seq
  client_id : read m CLIENT_ID 4 = int32 h.client_id
  bs_id : read m BS_ID 4 = int32 h.bs_id

theorem toMem_header (m : Mem) (p : AckPkt) : HeaderBytes (toMem m p) p.ack_hdr := by
  unfold toMem ACK_HEADER_SIZE
  constructor
  all_goals
    simp only [TYPE, NUM_NACKS, NUM_PKTS, ACK_SEQ, START_NACK_SEQ, END_SEQ, CLIENT_ID, BS_ID]
    try intro hlt
    rw [read_copy (by omega)]
    repeat rw [read_write (by omega)]
    apply read_write_self
  · cases p.ack_hdr.type <;> decide
  · exact hlt
  · exact hlt
  · exact hlt
  · exact int32_lt _
  · exact int32_lt _

/-- The memory of a receiver that got the first `len` bytes of the object. -/
def Sent (base m : Mem) (p : AckPkt) (len : Nat) : Prop := ∀ x < len, m x = toMem base p x

theorem Sent.word {base m : Mem} {p : AckPkt} {len a n : Nat} (h : Sent base m p len)
    (hle : a + n ≤ len) : read m a n = read (toMem base p) a n :=
  read_congr fun i hi => h (a + i) (by omega)

theorem Sent.header {base m : Mem} {p : AckPkt} {len : Nat} (h : Sent base m p len)
    (hle : ACK_HEADER_SIZE ≤ len) : HeaderBytes m p.ack_hdr := by
  have hm := toMem_header base p
  unfold ACK_HEADER_SIZE at hle
  constructor
  · rw [h.word (by unfold TYPE; omega), hm.type]
  · exact fun hlt => by rw [h.word (by unfold NUM_NACKS; omega), hm.num_nacks hlt]
  · exact fun hlt => by rw [h.word (by unfold START_NACK_SEQ; omega), hm.start_nack_seq hlt]
  · exact fun hlt => by rw [h.word (by unfold END_SEQ; omega), hm.end_seq hlt]
  · rw [h.word (by unfold CLIENT_ID; omega), hm.client_id]
  · rw [h.word (by unfold BS_ID; omega), hm.bs_id]

/-- The receiver's object holds the same list. -/
theorem Sent.filled {base m : Mem} {p : AckPkt} {nacks : List Nat} (hp : Filled p nacks)
    (h : Sent base m p (ACK_HEADER_SIZE + 2 * nacks.length)) (hlen : nacks.length < ACK_WINDOW)
    (hlt : ∀ q ∈ nacks, q < 2 ^ 32) : Filled (ofMem m) nacks := by
  have hhdr := h.header (Nat.le_add_right _ _)
  have hW : ACK_WINDOW = 500 := rfl
  refine ⟨?_, fun i q hi => ?_, fun hne => ?_⟩
  · show read m NUM_NACKS 2 = nacks.length
    rw [hhdr.num_nacks (by rw [hp.num]; omega), hp.num]
  · show read m (ACK_HEADER_SIZE + 2 * i) 2 = rel (nacks.headD 0) q
    have hil := (List.getElem?_eq_some_iff.mp hi).1
    have hrel : p.rel_seq_arr i < 2 ^ 16 := by
      rw [hp.arr i q hi]
      exact Nat.mod_lt _ (by decide)
    rw [h.word (by omega)]
    unfold toMem
    rw [read_halves (by omega) hrel, hp.arr i q hi]
  · show read m START_NACK_SEQ 4 = nacks.headD 0
    have hstart := hp.start hne
    have hhead : nacks.headD 0 < 2 ^ 32 := by
      cases nacks with
      | nil => exact absurd rfl hne
      | cons x xs => exact hlt x List.mem_cons_self
    rw [hhdr.start_nack_seq (by rw [hstart]; exact hhead), hstart]

/-- What the receiver gets is what was decided. -/
structure Decodes (m : Mem) (nacks : List Nat) (end_seq : Nat) (client_id bs_id : Int) :
    Prop where
  type : (parseNack (ofMem m)).type = .DATA_ACK
  num_nacks : (parseNack (ofMem m)).num_nacks = nacks.length
  seq_arr : (parseNack (ofMem m)).seq_arr = nacks
  end_seq : (parseNack (ofMem m)).end_seq = end_seq
  client_id : (parseNack (ofMem m)).client_id = client_id
  bs_id : (parseNack (ofMem m)).bs_id = bs_id

theorem Sent.decodes {base m : Mem} {p : AckPkt} {nacks : List Nat} {end_seq : Nat}
    {client_id bs_id : Int} (hp : DataAck p nacks end_seq client_id bs_id)
    (h : Sent base m p (ACK_HEADER_SIZE + 2 * nacks.length)) (hone : OnePacket nacks)
    (hasc : nacks.Pairwise (· < ·)) (hlt : ∀ q ∈ nacks, q < 2 ^ 32) (hend : end_seq < 2 ^ 32)
    (hclient : -2 ^ 31 ≤ client_id ∧ client_id < 2 ^ 31)
    (hbs : -2 ^ 31 ≤ bs_id ∧ bs_id < 2 ^ 31) : Decodes m nacks end_seq client_id bs_id := by
  have hhdr := h.header (Nat.le_add_right _ _)
  have hfill := h.filled hp.filled hone.1 hlt
  constructor
  · show (if read m TYPE 1 = typeCode .DATA_ACK then PktType.DATA_ACK else .RAW_ACK) = _
    rw [hhdr.type, hp.type, if_pos rfl]
  · exact hfill.num
  · exact (seq_arr_filled hfill hasc hlt).mpr hone.2
  · show read m END_SEQ 4 = end_seq
    rw [hhdr.end_seq (by rw [hp.end_seq]; exact hend), hp.end_seq]
  · show ofWord (read m CLIENT_ID 4) = client_id
    rw [hhdr.client_id, hp.client_id, ofWord_int32 hclient.1 hclient.2]
  · show ofWord (read m BS_ID 4) = bs_id
    rw [hhdr.bs_id, hp.bs_id, ofWord_int32 hbs.1 hbs.2]

/-! ## The lists of every run -/

/-- A list that the two loops collected and that is not cut off is in one packet. -/
theorem collected_onePacket {p : Snapshot} {i e : Nat} {ns : List Nat} (hw : p.InWindow)
    (hi : i < 2 ^ 32) (h : PastTail p i e ns) (hei : e < i)
    (hlen : ns.length < ACK_WINDOW) :
    OnePacket ns ∧ ns.Pairwise (· < ·) ∧ ∀ q ∈ ns, q < 2 ^ 32 := by
  have hW : ACK_WINDOW = 500 := rfl
  have hB : BUF_SIZE = 5000 := rfl
  have hwin := hw.window
  rcases h with ⟨hwrap, hend, htl, hcnt, hmax, hns⟩ | hend | ⟨hwrap, hhd, hcnt⟩
  · refine ⟨⟨hlen, fun q hq => ?_⟩, hns.sorted, fun q hq => ?_⟩
    · have hhead : ns.headD 0 ∈ ns := by
        cases ns with
        | nil => cases hq
        | cons x xs => exact List.mem_cons_self
      have h1 := (hns.range _ hhead).1
      have h2 := (hns.range q hq).2
      omega
    · have h2 := (hns.range q hq).2
      omega
  · -- The loop does not end.
    omega
  · -- The loop starts at 0 and collects far too many.
    omega

/-- A list that one packet holds and that decodes from it, and its end. -/
structure Sendable (nacks : List Nat) (end_seq : Nat) : Prop where
  one : OnePacket nacks
  sorted : nacks.Pairwise (· < ·)
  lt : ∀ q ∈ nacks, q < 2 ^ 32
  end_lt : end_seq < 2 ^ 32

/-- What a step of `FindNackSeqNum` returns. -/
theorem acked_sendable {cfg : Config} (hmax : cfg.max_num_nacks = ACK_WINDOW) {s t : Radio}
    {l : Label} {out : List Event} {p : Snapshot}
    (hhigh : s.batch_info.highest_decoded_seq < 2 ^ 32) (hloc : AckLocal p s.ack)
    (m : Move cfg s l t out) {e : Nat} {ns : List Nat} (hack : .acked e ns ∈ out) :
    Sendable ns e := by
  obtain ⟨hlt, rfl | ⟨i, ha, hei, hlen⟩⟩ := acked_list hhigh hloc m hack
  · exact ⟨⟨by decide, nofun⟩, .nil, nofun, hlt⟩
  · rw [ha] at hloc
    obtain ⟨hw, -, hi, hpast⟩ := hloc
    obtain ⟨hone, hasc, hns⟩ := collected_onePacket hw hi hpast hei (hmax ▸ hlen)
    exact ⟨hone, hasc, hns, hlt⟩

theorem run_acked_sendable {cfg : Config} {s : Radio} {tr : List Event}
    (hmax : cfg.max_num_nacks = ACK_WINDOW) (r : Run (radio cfg) SeqFits s tr) {e : Nat}
    {ns : List Nat} (hack : .acked e ns ∈ tr) : Sendable ns e := by
  refine r.events (fun ev => ∀ e ns, ev = .acked e ns → Sendable ns e) ?_ _ hack e ns rfl
  intro s tr l t out r _ hs ev hev e ns he
  subst he
  obtain ⟨hhigh, hloc⟩ := run_ackLocal r
  exact acked_sendable hmax hhigh hloc (step_move hs) hev

/-- The packet for a list that fits, whatever it held before, and what a receiver
of its bytes makes of them. -/
theorem Sendable.sent {nacks : List Nat} {end_seq : Nat} (h : Sendable nacks end_seq) (p : AckPkt)
    {client_id bs_id : Int} (hclient : -2 ^ 31 ≤ client_id ∧ client_id < 2 ^ 31)
    (hbs : -2 ^ 31 ≤ bs_id ∧ bs_id < 2 ^ 31) :
    ∃ p' len, rxCreateDataAck p nacks end_seq client_id bs_id = .ok p' ∧ getLen p' = some len ∧
      ∀ base m, Sent base m p' len → Decodes m nacks end_seq client_id bs_id := by
  obtain ⟨p', hp', hdata⟩ := rxCreateDataAck_ok p end_seq client_id bs_id h.lt h.one.1
  exact ⟨p', _, hp', getLen_filled hdata.filled h.one.1, fun base m hsent =>
    hsent.decodes hdata h.one h.sorted h.lt h.end_lt hclient hbs⟩

/-- Every acknowledgement of every run decodes, from the bytes that are sent, to
the list, the end and the ids that were decided, whatever the packet held before. -/
theorem every_data_ack_decodes {cfg : Config} {s : Radio} {tr : List Event}
    (hmax : cfg.max_num_nacks = ACK_WINDOW) (r : Run (radio cfg) SeqFits s tr) {end_seq : Nat}
    {nack_seq_arr : List Nat} (hack : .acked end_seq nack_seq_arr ∈ tr) (p : AckPkt)
    {client_id bs_id : Int} (hclient : -2 ^ 31 ≤ client_id ∧ client_id < 2 ^ 31)
    (hbs : -2 ^ 31 ≤ bs_id ∧ bs_id < 2 ^ 31) :
    ∃ p' len, rxCreateDataAck p nack_seq_arr end_seq client_id bs_id = .ok p' ∧
      getLen p' = some len ∧
      ∀ base m, Sent base m p' len → Decodes m nack_seq_arr end_seq client_id bs_id :=
  (run_acked_sendable hmax r hack).sent p hclient hbs

/-- Packets 1, 2 and 4 of a batch that is done are lost. -/
def lostThree : List Label :=
  [.setBatchInfo 1 0 true 0 2 0, .call .rcvAth (onePkt 3 7)] ++
    List.replicate 5 (.prod .rcvAth .ath) ++ [.call .rcvAth (onePkt 5 7)] ++
    List.replicate 4 (.prod .rcvAth .ath) ++ List.replicate 12 .ack

theorem lost_packets_are_acknowledged : ∃ p' len,
    rxCreateDataAck ⟨⟨.RAW_ACK, 7, 0, 3, 9, 9, 0, 0⟩, fun _ => 5⟩ [1, 2, 4] 5 1 4 = .ok p' ∧
      getLen p' = some len ∧ ∀ base m, Sent base m p' len → Decodes m [1, 2, 4] 5 1 4 := by
  obtain ⟨s, tr, r, hlast⟩ := run_of_check (radio ⟨25, 500⟩) SeqFits lostThree
    (fun x => decide (.acked 5 [1, 2, 4] ∈ x.2)) atStart_fresh (by decide +kernel)
    (by decide +kernel)
  exact every_data_ack_decodes rfl r (of_decide_eq_true hlast) _ (by decide) (by decide)

end wspace_client.data_ack

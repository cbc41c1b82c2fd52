-- `AthCodeHeader`: the header of a coded packet, as bytes in memory. What
-- `SetHeader` writes, `ParseHeader` reads back, for up to 255 coded packets.
import WspaceClient.Bytes
import WspaceClient.RcvAth

namespace wspace_client.code_header

open bytes rcv_ath

/-! ## The layout -/

def TYPE : Nat := 0

def RAW_SEQ : Nat := 4

def RATE : Nat := 8

def BS_ID : Nat := 12

def CLIENT_ID : Nat := 16

def IS_GOOD : Nat := 20

def BATCH_ID : Nat := 24

def START_SEQ : Nat := 28

def IND : Nat := 32

def K : Nat := 33

def N : Nat := 34

/-- `sizeof(AthCodeHeader)`. -/
def ATH_CODE_HEADER_SIZE : Nat := 36

/-- What an `int` keeps of a result, as the bits of its word. -/
def int32 (x : Int) : Nat := (x % 2 ^ 32).toNat

/-- What an `unsigned char` keeps of an `int`. -/
def uint8 (x : Int) : Nat := (x % 2 ^ 8).toNat

/-- The `int` of a word. -/
def ofWord (v : Nat) : Int := if v < 2 ^ 31 then v else v - 2 ^ 32

theorem ofWord_int32 {x : Int} (h : -2 ^ 31 ≤ x) (h' : x < 2 ^ 31) : ofWord (int32 x) = x := by
  unfold ofWord int32
  split <;> omega

theorem int32_lt (x : Int) : int32 x < 256 ^ 4 := by
  unfold int32
  omega

theorem uint8_lt (x : Int) : uint8 x < 256 ^ 1 := by
  unfold uint8
  omega

theorem uint8_eq {x : Int} (h : 0 ≤ x) (h' : x < 2 ^ 8) : (uint8 x : Int) = x := by
  unfold uint8
  omega

/-! ## `SetHeader` -/

/-- The arguments of `SetHeader`, each one a value of its type. -/
structure HeaderArgs where
  batch_id : Nat
  start_seq : Nat
  type : Byte
  ind : Int
  k : Int
  n : Int
  len_arr : Nat → Nat
  bs_id : Int
  client_id : Int
  batch_id_lt : batch_id < 2 ^ 32
  start_seq_lt : start_seq < 2 ^ 32
  n_lt : n < 2 ^ 31
  len_lt : ∀ i, len_arr i < 2 ^ 16
  bs_id_int : -2 ^ 31 ≤ bs_id ∧ bs_id < 2 ^ 31
  client_id_int : -2 ^ 31 ≤ client_id ∧ client_id < 2 ^ 31

/-- The assertion of `SetHeader`. -/
def HeaderArgs.Admitted (a : HeaderArgs) : Prop :=
  a.batch_id > 0 ∧ a.start_seq > 0 ∧ a.ind ≥ 0 ∧ a.ind < a.n ∧ a.k ≥ 0 ∧ a.n ≥ 0 ∧ a.k ≤ a.n

instance (a : HeaderArgs) : Decidable a.Admitted := inferInstanceAs (Decidable (_ ∧ _))

/-- The fields before the length array. -/
def setFields (m : Mem) (a : HeaderArgs) : Mem :=
  let m := write m BATCH_ID 4 a.batch_id
  let m := write m TYPE 1 a.type.toNat
  let m := write m START_SEQ 4 a.start_seq
  let m := write m IND 1 (uint8 a.ind)
  let m := write m K 1 (uint8 a.k)
  let m := write m N 1 (uint8 a.n)
  let m := write m BS_ID 4 (int32 a.bs_id)
  write m CLIENT_ID 4 (int32 a.client_id)

/-- `SetHeader` on the memory from the start of the header. -/
def setHeader (m : Mem) (a : HeaderArgs) : Option Mem :=
  if a.Admitted then
    let m := setFields m a
    some (copy m ATH_CODE_HEADER_SIZE (2 * read m K 1) (halves a.len_arr))
  else none

/-! ## The reads -/

def getFullHdrLen (m : Mem) : Nat := ATH_CODE_HEADER_SIZE + 2 * read m K 1

/-- The address of the payload, from the start of the header. -/
def getPayloadStart (m : Mem) : Nat := ATH_CODE_HEADER_SIZE + 2 * read m K 1

/-- A packet of `nread` bytes, as its header describes it. -/
def athCodePkt (m : Mem) (nread : Nat) : AthCodePkt where
  is_good := read m IS_GOOD 1 ≠ 0
  type := read m TYPE 1
  raw_seq := read m RAW_SEQ 4
  rate := read m RATE 2
  bs_id := ofWord (read m BS_ID 4)
  client_id := ofWord (read m CLIENT_ID 4)
  batch_id := read m BATCH_ID 4
  start_seq := read m START_SEQ 4
  ind := read m IND 1
  k := read m K 1
  n := read m N 1
  lens := fun i => read m (ATH_CODE_HEADER_SIZE + 2 * i) 2
  payload := fun i => m (getPayloadStart m + i)
  nread := nread

/-! ## The round trip -/

/-- The header in memory is the one of the arguments. -/
structure ReadsBack (m : Mem) (nread : Nat) (a : HeaderArgs) : Prop where
  parsed : parseHeader (athCodePkt m nread) = true
  batch_id : (athCodePkt m nread).batch_id = a.batch_id
  start_seq : (athCodePkt m nread).start_seq = a.start_seq
  ind : ((athCodePkt m nread).ind : Int) = a.ind
  k : ((athCodePkt m nread).k : Int) = a.k
  n : ((athCodePkt m nread).n : Int) = a.n
  bs_id : (athCodePkt m nread).bs_id = a.bs_id
  client_id : (athCodePkt m nread).client_id = a.client_id
  lens : ∀ i : Nat, i < a.k → (athCodePkt m nread).lens i = a.len_arr i
  payload_start : getPayloadStart m = getFullHdrLen m
  past_lens : ATH_CODE_HEADER_SIZE + 2 * a.k ≤ getPayloadStart m

/-- The header comes back, also from under a payload, and leaves a payload alone. -/
structure RoundTrip (m m' : Mem) (nread : Nat) (a : HeaderArgs) : Prop where
  header : ReadsBack m' nread a
  under_payload : ∀ len payload, ReadsBack (copy m' (getPayloadStart m') len payload) nread a
  keeps_payload : ∀ i, m' (getPayloadStart m' + i) = m (getPayloadStart m' + i)

/-- The fields that `SetHeader` writes. -/
structure Fields (m : Mem) (a : HeaderArgs) : Prop where
  type : read m TYPE 1 = a.type.toNat
  batch_id : read m BATCH_ID 4 = a.batch_id
  start_seq : read m START_SEQ 4 = a.start_seq
  ind : read m IND 1 = uint8 a.ind
  k : read m K 1 = uint8 a.k
  n : read m N 1 = uint8 a.n
  bs_id : read m BS_ID 4 = int32 a.bs_id
  client_id : read m CLIENT_ID 4 = int32 a.client_id

theorem setFields_fields (m : Mem) (a : HeaderArgs) : Fields (setFields m a) a := by
  unfold setFields
  constructor
  all_goals
    simp only [TYPE, BATCH_ID, START_SEQ, IND, K, N, BS_ID, CLIENT_ID]
    repeat rw [read_write (by omega)]
    apply read_write_self
  · exact a.type.isLt
  · exact a.batch_id_lt
  · exact a.start_seq_lt
  · exact uint8_lt _
  · exact uint8_lt _
  · exact uint8_lt _
  · exact int32_lt _
  · exact int32_lt _

theorem setFields_past {m : Mem} {a : HeaderArgs} {x : Nat} (hx : ATH_CODE_HEADER_SIZE ≤ x) :
    setFields m a x = m x := by
  have hsize : ATH_CODE_HEADER_SIZE = 36 := rfl
  unfold setFields write
  simp only [TYPE, BATCH_ID, START_SEQ, IND, K, N, BS_ID, CLIENT_ID]
  repeat rw [copy_outside (by omega)]

/-- What is written past the fixed part leaves the fields alone. -/
theorem Fields.copy {m : Mem} {a : HeaderArgs} (h : Fields m a) {start : Nat}
    (hstart : ATH_CODE_HEADER_SIZE ≤ start) (len : Nat) (src : Nat → Byte) :
    Fields (copy m start len src) a := by
  have hsize : ATH_CODE_HEADER_SIZE = 36 := rfl
  refine ⟨?_, ?_, ?_, ?_, ?_, ?_, ?_, ?_⟩
  · rw [read_copy (by unfold TYPE; omega), h.type]
  · rw [read_copy (by unfold BATCH_ID; omega), h.batch_id]
  · rw [read_copy (by unfold START_SEQ; omega), h.start_seq]
  · rw [read_copy (by unfold IND; omega), h.ind]
  · rw [read_copy (by unfold K; omega), h.k]
  · rw [read_copy (by unfold N; omega), h.n]
  · rw [read_copy (by unfold BS_ID; omega), h.bs_id]
  · rw [read_copy (by unfold CLIENT_ID; omega), h.client_id]

theorem Fields.payloadStart {m : Mem} {a : HeaderArgs} (h : Fields m a) :
    getPayloadStart m = ATH_CODE_HEADER_SIZE + 2 * uint8 a.k := by
  unfold getPayloadStart
  rw [h.k]

/-- The fields and the lengths of up to 255 coded packets read back. -/
theorem Fields.readsBack {m : Mem} {a : HeaderArgs} (h : Fields m a) (nread : Nat)
    (ha : a.Admitted) (htype : a.type.toNat = ATH_CODE) (hk : 1 ≤ a.k)
    (hmax : a.k ≤ MAX_BATCH_SIZE) (hn : a.n ≤ 255)
    (hlens : ∀ i : Nat, i < a.k → read m (ATH_CODE_HEADER_SIZE + 2 * i) 2 = a.len_arr i) :
    ReadsBack m nread a := by
  obtain ⟨hbatch, hstart, hind0, hind, -, -, hkn⟩ := ha
  have hindEq : (read m IND 1 : Int) = a.ind := by rw [h.ind, uint8_eq hind0 (by omega)]
  have hkEq : (read m K 1 : Int) = a.k := by rw [h.k, uint8_eq (by omega) (by omega)]
  have hnEq : (read m N 1 : Int) = a.n := by rw [h.n, uint8_eq (by omega) (by omega)]
  refine ⟨?_, h.batch_id, h.start_seq, hindEq, hkEq, hnEq, ?_, ?_, hlens, rfl, ?_⟩
  · unfold parseHeader
    rw [Bool.and_eq_true, decide_eq_true_eq, decide_eq_true_eq]
    show read m TYPE 1 = ATH_CODE ∧ read m BATCH_ID 4 > 0 ∧ read m START_SEQ 4 > 0 ∧
      read m IND 1 < read m N 1 ∧ read m K 1 ≤ read m N 1 ∧ read m K 1 > 0 ∧
      read m K 1 ≤ MAX_BATCH_SIZE
    rw [h.type, h.batch_id, h.start_seq]
    exact ⟨htype, hbatch, hstart, by omega, by omega, by omega, by omega⟩
  · show ofWord (read m BS_ID 4) = a.bs_id
    rw [h.bs_id, ofWord_int32 a.bs_id_int.1 a.bs_id_int.2]
  · show ofWord (read m CLIENT_ID 4) = a.client_id
    rw [h.client_id, ofWord_int32 a.client_id_int.1 a.client_id_int.2]
  · unfold getPayloadStart
    omega

/-- The header of a batch comes back exactly when it has at most 255 coded packets. -/
theorem header_round_trip (m : Mem) (nread : Nat) (a : HeaderArgs) (ha : a.Admitted)
    (htype : a.type.toNat = ATH_CODE) (hk : 1 ≤ a.k) (hmax : a.k ≤ MAX_BATCH_SIZE) :
    (∃ m', setHeader m a = some m' ∧ RoundTrip m m' nread a) ↔ a.n ≤ 255 := by
  have hfields := setFields_fields m a
  have hkEq := uint8_eq (x := a.k) (by omega) (by unfold MAX_BATCH_SIZE at hmax; omega)
  unfold setHeader
  rw [if_pos ha]
  constructor
  · rintro ⟨m', hm', hr⟩
    have hn := hr.header.n
    have hlt := read_lt m' N 1
    show a.n ≤ 255
    rw [← hn]
    show (read m' N 1 : Int) ≤ 255
    omega
  · intro hn
    refine ⟨_, rfl, ?_⟩
    have hset := hfields.copy (Nat.le_refl _) (2 * read (setFields m a) K 1) (halves a.len_arr)
    have hlens : ∀ i : Nat, i < a.k →
        read (copy (setFields m a) ATH_CODE_HEADER_SIZE (2 * read (setFields m a) K 1)
          (halves a.len_arr)) (ATH_CODE_HEADER_SIZE + 2 * i) 2 = a.len_arr i := by
      intro i hi
      rw [hfields.k]
      exact read_halves (by omega) (a.len_lt i)
    refine ⟨hset.readsBack nread ha htype hk hmax hn hlens, fun len payload => ?_, fun i => ?_⟩
    · refine (hset.copy ?_ len payload).readsBack nread ha htype hk hmax hn fun i hi => ?_
      · rw [hset.payloadStart]
        omega
      · rw [read_copy (by rw [hset.payloadStart]; omega), hlens i hi]
    · rw [hset.payloadStart, copy_outside (by rw [hfields.k]; omega), setFields_past (by omega)]

theorem one_int : -2 ^ 31 ≤ (1 : Int) ∧ (1 : Int) < 2 ^ 31 := by decide

/-- A batch of one packet, with as many coded packets as the codec allows. -/
def widestHeader (n : Int) (h : n < 2 ^ 31) : HeaderArgs :=
  ⟨1, 1, BitVec.ofNat 8 ATH_CODE, 0, 1, n, fun _ => 5, 1, 1, by decide, by decide, h,
    fun _ => by decide, one_int, one_int⟩

theorem header_of_255_comes_back : ∃ m', setHeader (fun _ => 0) (widestHeader 255 (by decide)) =
    some m' ∧ RoundTrip (fun _ => 0) m' 41 (widestHeader 255 (by decide)) :=
  (header_round_trip (fun _ => 0) 41 (widestHeader 255 (by decide)) (by decide) (by decide)
    (by decide) (by decide)).mpr (by decide)

/-- 256 coded packets are what `fec_new` allows, and 0 of them is what the header says. -/
theorem header_of_256_is_refused : (widestHeader 256 (by decide)).Admitted ∧
    ∃ m', setHeader (fun _ => 0) (widestHeader 256 (by decide)) = some m' ∧
      (athCodePkt m' 41).n = 0 ∧ parseHeader (athCodePkt m' 41) = false ∧
      ¬RoundTrip (fun _ => 0) m' 41 (widestHeader 256 (by decide)) := by
  refine ⟨by decide, _, rfl, rfl, rfl, fun h => ?_⟩
  have hparsed := h.header.parsed
  cases hparsed

end wspace_client.code_header

-- `RxSendCell`: the packets of the TUN device on their way to the controller, in
-- one buffer for all of them. A failed read passes the assertion of `Tun::Read`
-- with the length 65535, and it is the header in front that stops it.
import WspaceClient.Lengths
import WspaceClient.RxDataBuf

namespace wspace_client.uplink

open bytes
open lengths (tunRead)
open rcv_ath (PKT_SIZE)
open rx_data_buf (BUF_SIZE)
open write_tun (uint16)

def CELL_DATA : Nat := 6

/-- `sizeof(CellDataHeader)`. -/
def CELL_DATA_HEADER_SIZE : Nat := 1

/-- What a turn of the loop meets: the result of `read` with the bytes that it
stored, and the result of `sendto`. -/
structure Turn where
  ret : Int
  bytes : Nat → Byte
  nwrite : Int

/-- `read` fails, or gives at most what the buffer has behind the header. -/
def Outcome (t : Turn) : Prop :=
  t.ret = -1 ∨ 0 ≤ t.ret ∧ t.ret ≤ PKT_SIZE - CELL_DATA_HEADER_SIZE

/-- `Tun::Write` to the controller, with its assertions: what it sends. -/
def writeController (pkt : Mem) (len : Nat) (nwrite : Int) : Option (List Byte) :=
  if len > 0 ∧ uint16 nwrite = len then some ((List.range len).map pkt) else none

/-- One turn: the buffer after it, and the datagram unless the process ends. -/
def sendCell (pkt : Mem) (t : Turn) : Mem × Option (List Byte) :=
  let pkt := copy pkt CELL_DATA_HEADER_SIZE t.ret.toNat t.bytes
  match tunRead t.ret with
  | none => (pkt, none)
  | some nread =>
    let pkt := write pkt 0 CELL_DATA_HEADER_SIZE CELL_DATA
    (pkt, writeController pkt (uint16 ((nread : Int) + CELL_DATA_HEADER_SIZE)) t.nwrite)

/-- What the loop did: its datagrams, the buffer, and whether the process ended. -/
structure Sent where
  datagrams : List (List Byte)
  pkt : Mem
  aborted : Bool

def rxSendCell (pkt : Mem) : List Turn → Sent
  | [] => ⟨[], pkt, false⟩
  | t :: ts =>
    match sendCell pkt t with
    | (pkt, none) => ⟨[], pkt, true⟩
    | (pkt, some datagram) =>
      let rest := rxSendCell pkt ts
      ⟨datagram :: rest.datagrams, rest.pkt, rest.aborted⟩

/-- A packet came from the device, and the socket took it with its header. -/
def Works (t : Turn) : Prop := 1 ≤ t.ret ∧ (uint16 t.nwrite : Int) = t.ret + CELL_DATA_HEADER_SIZE

instance (t : Turn) : Decidable (Works t) := inferInstanceAs (Decidable (_ ∧ _))

/-- The header and the packet. -/
def frame (t : Turn) : List Byte :=
  BitVec.ofNat 8 CELL_DATA :: (List.range t.ret.toNat).map t.bytes

/-! ## One turn -/

theorem tunRead_cases {t : Turn} (h : Outcome t) :
    t.ret = -1 ∧ tunRead t.ret = some 65535 ∨ t.ret = 0 ∧ tunRead t.ret = none ∨
      1 ≤ t.ret ∧ tunRead t.ret = some t.ret.toNat ∧ t.ret.toNat < PKT_SIZE := by
  rcases h with h | ⟨h0, h1⟩
  · exact .inl ⟨h, by rw [h]; decide⟩
  · unfold PKT_SIZE CELL_DATA_HEADER_SIZE at h1
    rcases Int.lt_or_eq_of_le h0 with hpos | hz
    · exact .inr (.inr ⟨hpos, lengths.tunRead_datagram hpos (by unfold PKT_SIZE; omega),
        by unfold PKT_SIZE; omega⟩)
    · exact .inr (.inl ⟨hz.symm, by rw [← hz]; decide⟩)

/-- The buffer starts with the header and the packet of the turn, whatever was in it. -/
theorem range_map_buffer (pkt : Mem) (t : Turn) :
    (List.range (t.ret.toNat + 1)).map
      (write (copy pkt CELL_DATA_HEADER_SIZE t.ret.toNat t.bytes) 0 CELL_DATA_HEADER_SIZE
        CELL_DATA) = frame t := by
  rw [List.range_succ_eq_map, List.map_cons, List.map_map, frame]
  congr 1
  refine List.map_congr_left fun i hi => ?_
  rw [List.mem_range] at hi
  unfold CELL_DATA_HEADER_SIZE write
  rw [Function.comp_apply, copy_outside (by omega), Nat.succ_eq_add_one, Nat.add_comm,
    copy_inside hi]

/-- A turn sends the frame of its packet exactly when it works. -/
theorem sendCell_datagram {t : Turn} (h : Outcome t) (pkt : Mem) :
    (sendCell pkt t).2 = if Works t then some (frame t) else none := by
  unfold sendCell writeController
  rcases tunRead_cases h with ⟨hret, hread⟩ | ⟨hret, hread⟩ | ⟨hpos, hread, hlt⟩
  · -- The length of the failed read and the header wrap around to zero.
    have hzero : uint16 (((65535 : Nat) : Int) + CELL_DATA_HEADER_SIZE) = 0 := by decide
    have hnot : ¬Works t := fun hw => by
      have := hw.1
      omega
    rw [hread, if_neg hnot]
    dsimp only
    rw [hzero, if_neg (fun hw => absurd hw.1 (Nat.lt_irrefl 0))]
  · have hnot : ¬Works t := fun hw => by
      have := hw.1
      omega
    rw [hread, if_neg hnot]
  · have hlen : uint16 ((t.ret.toNat : Int) + CELL_DATA_HEADER_SIZE) = t.ret.toNat + 1 := by
      unfold PKT_SIZE at hlt
      unfold uint16 CELL_DATA_HEADER_SIZE
      omega
    rw [hread]
    dsimp only
    rw [hlen, range_map_buffer]
    have hiff : (t.ret.toNat + 1 > 0 ∧ uint16 t.nwrite = t.ret.toNat + 1) ↔ Works t := by
      unfold Works CELL_DATA_HEADER_SIZE
      omega
    by_cases hw : Works t
    · rw [if_pos hw, if_pos (hiff.mpr hw)]
    · rw [if_neg hw, if_neg (fun hw' => hw (hiff.mp hw'))]

/-- A turn writes inside the buffer. -/
theorem sendCell_outside {t : Turn} (h : Outcome t) (pkt : Mem) {a : Nat} (ha : BUF_SIZE ≤ a) :
    (sendCell pkt t).1 a = pkt a := by
  have hlen : t.ret.toNat < PKT_SIZE := by
    rcases tunRead_cases h with ⟨hret, -⟩ | ⟨hret, -⟩ | ⟨-, -, hlt⟩
    · rw [hret]
      decide
    · rw [hret]
      decide
    · exact hlt
  unfold PKT_SIZE at hlen
  unfold BUF_SIZE at ha
  have hcopy : copy pkt CELL_DATA_HEADER_SIZE t.ret.toNat t.bytes a = pkt a :=
    copy_outside (by unfold CELL_DATA_HEADER_SIZE; omega)
  unfold sendCell
  cases tunRead t.ret with
  | none => exact hcopy
  | some nread =>
    have hwrite : write (copy pkt CELL_DATA_HEADER_SIZE t.ret.toNat t.bytes) 0
        CELL_DATA_HEADER_SIZE CELL_DATA a =
        copy pkt CELL_DATA_HEADER_SIZE t.ret.toNat t.bytes a :=
      copy_outside (by unfold CELL_DATA_HEADER_SIZE; omega)
    exact hwrite.trans hcopy

/-! ## The loop -/

theorem rxSendCell_forwards (pkt : Mem) (ts : List Turn) (h : ∀ t ∈ ts, Outcome t) :
    (rxSendCell pkt ts).datagrams = (ts.takeWhile fun t => Works t).map frame ∧
    ((rxSendCell pkt ts).aborted = true ↔ ∃ t ∈ ts, ¬Works t) ∧
    ∀ a, BUF_SIZE ≤ a → (rxSendCell pkt ts).pkt a = pkt a := by
  induction ts generalizing pkt with
  | nil => exact ⟨rfl, by simp [rxSendCell], fun _ _ => rfl⟩
  | cons t ts ih =>
    have ht := h t List.mem_cons_self
    have hsend := sendCell_datagram ht pkt
    have hout : ∀ a, BUF_SIZE ≤ a → (sendCell pkt t).1 a = pkt a :=
      fun a ha => sendCell_outside ht pkt ha
    obtain ⟨hd, hab, hmem⟩ := ih (sendCell pkt t).1 fun t ht => h t (List.mem_cons_of_mem _ ht)
    unfold rxSendCell
    generalize sendCell pkt t = r at hsend hout hd hab hmem
    obtain ⟨pkt', datagram⟩ := r
    by_cases hw : Works t
    · rw [if_pos hw] at hsend
      simp only at hsend hout hd hab hmem
      subst hsend
      refine ⟨?_, ?_, fun a ha => (hmem a ha).trans (hout a ha)⟩
      · rw [List.takeWhile_cons_of_pos (by simpa using hw), List.map_cons, ← hd]
      · simp only [List.mem_cons, exists_eq_or_imp, hw, not_true_eq_false, false_or]
        exact hab
    · rw [if_neg hw] at hsend
      simp only at hsend hout
      subst hsend
      refine ⟨?_, ?_, hout⟩
      · rw [List.takeWhile_cons_of_neg (by simpa using hw)]
        rfl
      · exact ⟨fun _ => ⟨t, List.mem_cons_self, hw⟩, fun _ => rfl⟩

/-- A failed read passes the assertion of `Tun::Read` with the length 65535, and the
turn sends nothing. -/
theorem failed_read {t : Turn} (h : t.ret = -1) (pkt : Mem) :
    tunRead t.ret = some 65535 ∧ (sendCell pkt t).2 = none := by
  have hnot : ¬Works t := fun hw => by
    have := hw.1
    omega
  refine ⟨by rw [h]; decide, ?_⟩
  rw [sendCell_datagram (.inl h), if_neg hnot]

/-- The controller gets the packets of the device in their order, each with its
header and none of the bytes that earlier packets left in the buffer, up to the
first turn that fails; that one ends the process and sends nothing, also when a
failed read gives the length 65535. The thread never writes past its buffer. -/
theorem the_uplink_forwards_the_packets (pkt : Mem) (ts : List Turn)
    (h : ∀ t ∈ ts, Outcome t) :
    (rxSendCell pkt ts).datagrams = (ts.takeWhile fun t => Works t).map frame ∧
    ((rxSendCell pkt ts).aborted = true ↔ ∃ t ∈ ts, ¬Works t) ∧
    (∀ t ∈ ts, t.ret = -1 → tunRead t.ret = some 65535 ∧ ∀ m, (sendCell m t).2 = none) ∧
    ∀ a, BUF_SIZE ≤ a → (rxSendCell pkt ts).pkt a = pkt a := by
  obtain ⟨hsent, hends, hmem⟩ := rxSendCell_forwards pkt ts h
  exact ⟨hsent, hends, fun t _ ht => ⟨(failed_read ht pkt).1, fun m => (failed_read ht m).2⟩, hmem⟩

/-- Two bytes come, then one byte, and then a read fails. -/
def failingReads : List Turn :=
  [⟨2, fun i => BitVec.ofNat 8 (i + 70), 3⟩, ⟨1, fun _ => 90, 2⟩, ⟨-1, fun _ => 0, 65535⟩,
    ⟨1, fun _ => 91, 2⟩]

theorem a_failed_read_sends_nothing :
    (rxSendCell (fun _ => 0) failingReads).datagrams = [[6, 70, 71], [6, 90]] ∧
      (rxSendCell (fun _ => 0) failingReads).aborted = true := by
  have hout : ∀ t ∈ failingReads, Outcome t := by
    intro t ht
    simp only [failingReads, List.mem_cons, List.not_mem_nil, or_false] at ht
    rcases ht with rfl | rfl | rfl | rfl
    · exact .inr (by decide)
    · exact .inr (by decide)
    · exact .inl rfl
    · exact .inr (by decide)
  obtain ⟨hd, hab, -, -⟩ := the_uplink_forwards_the_packets (fun _ => 0) failingReads hout
  refine ⟨?_, ?_⟩
  · rw [hd]
    rfl
  · rw [hab]
    exact ⟨⟨-1, fun _ => 0, 65535⟩, by simp [failingReads], by decide⟩

end wspace_client.uplink

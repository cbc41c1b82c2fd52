-- The lengths of the downlink: from the result of the socket to `Tun::Read`,
-- `PushPkt` and `Tun::Write`. Each one is a `uint16`, and each is right exactly
-- when nothing shorter was received than what its header needs. A packet that is
-- too short to have a number never gets to `Tun::Write`.
import WspaceClient.WriteTun

namespace wspace_client.lengths

open bytes code_header rcv_ath fec
open write_tun (HEADER_SIZE Writers isForClient needUpdate oSeq pktBuf uint16 writeLen)

/-! ## The reads -/

/-- `Tun::Read` of what `recvfrom` returns: -1, or a number of bytes. -/
def tunRead (ret : Int) : Option Nat := if uint16 ret > 0 then some (uint16 ret) else none

/-- The number of bytes that came in. -/
def received (ret : Int) : Nat := ret.toNat

/-- An error, or a datagram that is not empty and fits the buffer. -/
def Outcome (ret : Int) : Prop := ret = -1 ∨ 1 ≤ ret ∧ ret ≤ PKT_SIZE

/-- The thread `RxRcvAth` of a radio, with the header as it stands in memory. -/
def athConfig (client_id radio_id : Int) : Config := ⟨client_id, radio_id, ATH_CODE_HEADER_SIZE⟩

/-- The packet passes `is_good`, `ParseHeader` and the checks of the ids. -/
def Checked (cfg : Config) (p : AthCodePkt) : Prop :=
  p.is_good = true ∧ parseHeader p = true ∧ p.client_id = cfg.client_id ∧
    p.bs_id = cfg.radio_id

instance (cfg : Config) (p : AthCodePkt) : Decidable (Checked cfg p) :=
  inferInstanceAs (Decidable (_ ∧ _))

/-- The lengths of one turn of `RxRcvAth`, with `m` in its buffer after the read. -/
structure LengthsExact (cfg : Config) (m : Mem) (ret : Int) : Prop where
  read : ∀ nread, tunRead ret = some nread → nread ≤ received ret
  push : ∀ nread, tunRead ret = some nread → Checked cfg (athCodePkt m nread) →
    (payloadLen cfg (athCodePkt m nread) : Int) = nread - getFullHdrLen m ∧
      payloadLen cfg (athCodePkt m nread) ≤ PKT_SIZE

/-- The length that `RxWriteTun` hands to `Tun::Write` for a packet of `DequeuePkt`,
with `max_seq` in the filter. -/
def handed (client_id : Int) (max_seq : Nat) (pkt : List Byte) : Option Nat :=
  if isForClient client_id pkt && (needUpdate max_seq (oSeq pkt)).1 then some (writeLen pkt.length)
  else none

theorem handed_iff {client_id : Int} {max_seq : Nat} {pkt : List Byte} {n : Nat} :
    handed client_id max_seq pkt = some n ↔
      isForClient client_id pkt = true ∧ max_seq < oSeq pkt ∧ writeLen pkt.length = n := by
  unfold handed needUpdate
  by_cases hfor : isForClient client_id pkt <;> by_cases hnew : oSeq pkt > max_seq <;>
    simp [hfor, hnew]

/-- A thread with a packet for this client goes on to `Tun::Write` exactly when the
packet is handed on. -/
theorem handed_write {ι : Type} [DecidableEq ι] {client_id : Int} {s t : Writers ι} {r : ι}
    {pkt : List Byte} {out : List (write_tun.Event ι)} (hpc : s.pc r = .filter pkt)
    (hfor : isForClient client_id pkt = true)
    (hs : write_tun.step client_id s (.needUpdate r) = some (t, out)) :
    t.pc r = .write pkt ↔ ∃ n, handed client_id s.max_seq pkt = some n := by
  unfold write_tun.step at hs
  split at hs
  · cases hs
  · simp only [hpc] at hs
    unfold handed
    rw [hfor, Bool.true_and]
    cases hnew : (needUpdate s.max_seq (oSeq pkt)).1 with
    | true =>
      rw [if_pos hnew] at hs
      cases hs
      simp [write_tun.setPc]
    | false =>
      rw [if_neg (by simp [hnew])] at hs
      cases hs
      simp [write_tun.setPc]

/-- A packet that ends before its number has the number 0, and is not new. -/
theorem handed_short (client_id : Int) (max_seq : Nat) {pkt : List Byte}
    (h : pkt.length ≤ write_tun.O_SEQ) : handed client_id max_seq pkt = none := by
  have hzero : oSeq pkt = read (fun _ => 0) write_tun.O_SEQ 4 := by
    refine read_congr fun i _ => ?_
    show pkt.getD (write_tun.O_SEQ + i) 0 = 0
    rw [List.getD_eq_getElem?_getD, List.getElem?_eq_none (by omega)]
    rfl
  cases hn : handed client_id max_seq pkt with
  | none => rfl
  | some n =>
    obtain ⟨-, hnew, -⟩ := handed_iff.mp hn
    rw [hzero] at hnew
    cases hnew

theorem uint16_eq {x : Int} (h : 0 ≤ x) (h' : x < 2 ^ 16) : (uint16 x : Int) = x := by
  unfold uint16
  omega

theorem uint16_eq_iff {x : Int} (h : x < 2 ^ 16) : (uint16 x : Int) = x ↔ 0 ≤ x := by
  refine ⟨fun he => ?_, fun h0 => uint16_eq h0 h⟩
  rw [← he]
  exact Int.natCast_nonneg _

theorem tunRead_datagram {ret : Int} (h : 1 ≤ ret) (h' : ret ≤ PKT_SIZE) :
    tunRead ret = some ret.toNat := by
  unfold PKT_SIZE at h'
  have he : uint16 ret = ret.toNat := by
    unfold uint16
    omega
  unfold tunRead
  rw [he, if_pos (by omega)]

/-- A failed read reports the whole range of a `uint16`. -/
theorem tunRead_error : tunRead (-1) = some 65535 := by decide

/-- `PushPkt` gets the difference as a `uint16`. -/
theorem payloadLen_eq (client_id radio_id : Int) (m : Mem) (nread : Nat) :
    payloadLen (athConfig client_id radio_id) (athCodePkt m nread) =
      uint16 ((nread : Int) - getFullHdrLen m) := by
  unfold payloadLen uint16 getFullHdrLen athConfig athCodePkt
  rw [Nat.mul_comm]

/-- A datagram as long as its header is pushed with its own length. -/
theorem payloadLen_exact_iff {client_id radio_id : Int} {m : Mem} {nread : Nat}
    (h : nread ≤ PKT_SIZE) :
    ((payloadLen (athConfig client_id radio_id) (athCodePkt m nread) : Int) =
        nread - getFullHdrLen m ∧
      payloadLen (athConfig client_id radio_id) (athCodePkt m nread) ≤ PKT_SIZE) ↔
    getFullHdrLen m ≤ nread := by
  unfold PKT_SIZE at h ⊢
  rw [payloadLen_eq]
  have hiff := uint16_eq_iff (x := (nread : Int) - getFullHdrLen m) (by omega)
  constructor
  · rintro ⟨he, -⟩
    have h0 := hiff.mp he
    omega
  · intro hle
    have he := hiff.mpr (by omega)
    exact ⟨he, by omega⟩

/-- A length that wrapped around is too long for a buffer of the decoder. -/
theorem short_datagram_overflows {client_id radio_id : Int} {s : RcvAth} {m : Mem} {nread : Nat}
    (hc : s.decoder.codec_type = .kDecoder) (hsize : s.decoder.pkt_size = PKT_SIZE)
    (hind : read m IND 1 < s.decoder.n) (hcur : s.decoder.cur_ind < s.decoder.n)
    (hk : read m K 1 ≤ MAX_BATCH_SIZE) (hshort : nread < getFullHdrLen m) :
    pushCoded (athConfig client_id radio_id) s (athCodePkt m nread) = .error .overflow := by
  have hlong : payloadLen (athConfig client_id radio_id) (athCodePkt m nread) > PKT_SIZE := by
    rw [payloadLen_eq]
    unfold getFullHdrLen ATH_CODE_HEADER_SIZE at hshort ⊢
    unfold MAX_BATCH_SIZE at hk
    unfold uint16 PKT_SIZE
    omega
  have hpush : pushPkt s.decoder (payloadLen (athConfig client_id radio_id) (athCodePkt m nread))
      (athCodePkt m nread).payload (athCodePkt m nread).ind = none := by
    unfold pushPkt
    rw [if_neg (by omega)]
    simp only [hc]
    rw [if_neg, if_pos (.inr (by rw [hsize]; exact hlong))]
    rw [not_or, Nat.not_le, Nat.not_le]
    exact ⟨hind, hcur⟩
  unfold pushCoded
  rw [hpush]

/-- A header for a batch of ten, with one length behind it. -/
def shortDatagram : Mem :=
  pktBuf [2, 0, 0, 0, 1, 0, 0, 0, 0x1B, 0, 0, 0, 1, 0, 0, 0, 1, 0, 0, 0, 1, 0, 0, 0, 1, 0, 0, 0,
    1, 0, 0, 0, 0, 10, 10, 0, 5, 0]

/-- A packet for client 1 that ends in its number, which is 5. -/
def shortPacket : List Byte := [9, 0, 0, 0, 1, 0, 0, 0, 5]

end wspace_client.lengths

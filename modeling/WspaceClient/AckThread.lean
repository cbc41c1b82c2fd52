-- `RxCreateDataAck` behind `FindNackSeqNum`: it puts each list that it gets into its
-- packet and sends that to the controller, before it asks for the next list.
import WspaceClient.DataAck
import WspaceClient.Uplink

namespace wspace_client.ack_thread

open machine bytes ack_pkt
open data_ack (Decodes Sendable Sent getLen rxCreateDataAck toMem)
open threads (Radio Core Label Move SeqFits AckLocal)
open uplink (writeController)

/-! ## The thread -/

/-- How a turn ends the process. -/
inductive Abort
  /-- `assert(num_nacks_ < ACK_WINDOW)` in `PushNack`. -/
  | pushNack
  /-- `assert(len <= PKT_SIZE && len > 0)` in `GetLen`. -/
  | getLen
  /-- The assertions of `Tun::Write`. -/
  | tunWrite
  deriving DecidableEq

/-- The packet of the thread, the memory with its padding, and what `FindNackSeqNum`
returned while the packet for it is still to be sent. -/
structure AckThread where
  ack_pkt : AckPkt
  mem : Mem
  returned : Option (List Nat × Nat)

/-- What `FindNackSeqNum` returns. -/
def answer : threads.Event → Option (List Nat × Nat)
  | .acked end_seq nack_seq_arr => some (nack_seq_arr, end_seq)
  | _ => none

/-- The thread after a step of its radio. -/
def AckThread.take (a : AckThread) (out : List threads.Event) : AckThread :=
  { a with returned := (out.findSome? answer).or a.returned }

/-- The turn of the loop behind `FindNackSeqNum`: the packet, and the datagram that
`sendto` gets. `nwrite` is what `sendto` returns. -/
def AckThread.send (a : AckThread) (client_id bs_id nwrite : Int) (nack_seq_arr : List Nat)
    (end_seq : Nat) : Except Abort (AckThread × List Byte) :=
  match rxCreateDataAck a.ack_pkt nack_seq_arr end_seq client_id bs_id with
  | .error _ => .error .pushNack
  | .ok p =>
    match getLen p with
    | none => .error .getLen
    | some len =>
      match writeController (toMem a.mem p) len nwrite with
      | none => .error .tunWrite
      | some datagram => .ok (⟨p, toMem a.mem p, none⟩, datagram)

/-! ## What is sent -/

/-- A receiver's memory starts with the datagram. -/
def Received (m : Mem) (datagram : List Byte) : Prop := ∀ x, ∀ b ∈ datagram[x]?, m x = b

/-- The datagram tells every receiver the list and its end. -/
def Tells (client_id bs_id : Int) (datagram : List Byte) (x : List Nat × Nat) : Prop :=
  ∀ m, Received m datagram → Decodes m x.1 x.2 client_id bs_id

theorem received_sent {base m : Mem} {p : AckPkt} {len : Nat}
    (h : Received m ((List.range len).map (toMem base p))) : Sent base m p len := by
  intro x hx
  refine h x _ ?_
  rw [List.getElem?_map, List.getElem?_range hx]
  rfl

/-- With a list that fits, a turn sends it, unless the socket refuses the packet. -/
theorem AckThread.send_spec (a : AckThread) {client_id bs_id : Int}
    (hclient : -2 ^ 31 ≤ client_id ∧ client_id < 2 ^ 31)
    (hbs : -2 ^ 31 ≤ bs_id ∧ bs_id < 2 ^ 31) (nwrite : Int) {nacks : List Nat} {end_seq : Nat}
    (h : Sendable nacks end_seq) :
    a.send client_id bs_id nwrite nacks end_seq = .error .tunWrite ∨
    ∃ b datagram, a.send client_id bs_id nwrite nacks end_seq = .ok (b, datagram) ∧
      b.returned = none ∧ Tells client_id bs_id datagram (nacks, end_seq) := by
  obtain ⟨p, len, hp, hlen, hdec⟩ := h.sent a.ack_pkt hclient hbs
  unfold AckThread.send
  simp only [hp, hlen]
  unfold writeController
  by_cases hw : len > 0 ∧ write_tun.uint16 nwrite = len
  · rw [if_pos hw]
    exact .inr ⟨_, _, rfl, rfl, fun m hm => hdec a.mem m (received_sent hm)⟩
  · rw [if_neg hw]
    exact .inl rfl

/-! ## What `FindNackSeqNum` returns -/

/-- The call of `FindNackSeqNum` is in its ranges, whatever pointers it read. -/
def Asks (s : Radio) : Prop :=
  s.batch_info.highest_decoded_seq < 2 ^ 32 ∧ ∃ p, AckLocal p s.ack

theorem fresh_asks {s : Radio} (h : s.Fresh) : Asks s := by
  obtain ⟨-, ⟨-, hhigh, -⟩, -, -, -, hack⟩ := h
  unfold Asks
  rw [hhigh, hack]
  exact ⟨by decide, ⟨0, 0⟩, trivial⟩

theorem Asks.step {cfg : threads.Config} (hmax : cfg.max_num_nacks = rx_raw_buf.ACK_WINDOW)
    {s t : Radio} {l : Label} {out : List threads.Event} (h : Asks s) (hcore : Core s)
    (hok : SeqFits [] s l) (hs : threads.step cfg s l = some (t, out)) :
    Asks t ∧ ∀ x ∈ out.filterMap answer, Sendable x.1 x.2 := by
  obtain ⟨hhigh, p, hloc⟩ := h
  have m := threads.step_move hs
  refine ⟨⟨threads.highest_lt hhigh hok m, _, threads.ackLocal_step hcore hhigh hloc m⟩,
    fun x hx => ?_⟩
  obtain ⟨e, he, hx⟩ := List.mem_filterMap.mp hx
  cases e with
  | acked end_seq nacks =>
    cases hx
    exact data_ack.acked_sendable hmax hhigh hloc m he
  | _ => cases hx

/-- A step returns one list at most, and only a step of `FindNackSeqNum` does. -/
theorem step_answers {cfg : threads.Config} {s t : Radio} {l : Label} {out : List threads.Event}
    (hs : threads.step cfg s l = some (t, out)) :
    out.filterMap answer = [] ∨ l = .ack ∧ ∃ x, out.filterMap answer = [x] := by
  have m := threads.step_move hs
  by_cases hl : l = .ack
  · subst hl
    cases m with
    | batchFirst | batchRead | extraEnd | overflowEnd => exact .inr ⟨rfl, _, rfl⟩
    | _ => exact .inl rfl
  · refine .inl (List.filterMap_eq_nil_iff.mpr fun e he => ?_)
    cases e with
    | acked end_seq nacks => exact absurd he (m.not_acked hl)
    | _ => rfl

/-! ## The lists and the datagrams -/

/-- Of the lists that `FindNackSeqNum` returned, in their order, each was sent in one
datagram, but for the last one while its packet is still to be sent. -/
structure Acknowledges (client_id bs_id : Int) (a : AckThread)
    (lists : List (List Nat × Nat)) (datagrams : List (List Byte)) : Prop where
  sent : ∃ done, lists = done ++ a.returned.toList ∧
    List.Forall₂ (Tells client_id bs_id) datagrams done
  fits : ∀ x ∈ a.returned, Sendable x.1 x.2

variable {client_id bs_id : Int} {a : AckThread} {lists : List (List Nat × Nat)}
  {datagrams : List (List Byte)}

theorem acknowledges_nothing (h : a.returned = none) : Acknowledges client_id bs_id a [] [] := by
  refine ⟨⟨[], ?_, .nil⟩, ?_⟩ <;> rw [h]
  · rfl
  · nofun

theorem Acknowledges.take (h : Acknowledges client_id bs_id a lists datagrams)
    {out : List threads.Event} (hone : out.filterMap answer = [] ∨
      a.returned = none ∧ ∃ x, out.filterMap answer = [x])
    (hfits : ∀ x ∈ out.filterMap answer, Sendable x.1 x.2) :
    Acknowledges client_id bs_id (a.take out) (lists ++ out.filterMap answer) datagrams := by
  have hhead : (a.take out).returned = (out.filterMap answer).head?.or a.returned := by
    rw [List.head?_filterMap]
    rfl
  obtain ⟨done, hdone, htells⟩ := h.sent
  rcases hone with hnil | ⟨hidle, x, hx⟩
  · rw [hnil, List.head?_nil, Option.none_or] at hhead
    rw [hnil, List.append_nil]
    refine ⟨⟨done, ?_, htells⟩, ?_⟩ <;> rw [hhead]
    · exact hdone
    · exact h.fits
  · rw [hx, List.head?_cons, Option.some_or] at hhead
    rw [hidle, Option.toList_none, List.append_nil] at hdone
    refine ⟨⟨done, ?_, htells⟩, ?_⟩ <;> rw [hhead]
    · rw [hdone, hx]
      rfl
    · rintro y hy
      cases hy
      exact hfits x (hx ▸ List.mem_singleton_self x)

theorem Acknowledges.send (h : Acknowledges client_id bs_id a lists datagrams)
    {nacks : List Nat} {end_seq : Nat} (ha : a.returned = some (nacks, end_seq)) {b : AckThread}
    {datagram : List Byte} (hb : b.returned = none)
    (htells : Tells client_id bs_id datagram (nacks, end_seq)) :
    Acknowledges client_id bs_id b lists (datagrams ++ [datagram]) := by
  obtain ⟨done, hdone, hall⟩ := h.sent
  refine ⟨⟨lists, ?_, ?_⟩, ?_⟩
  · rw [hb, Option.toList_none, List.append_nil]
  · rw [hdone, ha]
    exact List.rel_append hall (.cons htells .nil)
  · rw [hb]
    nofun

end wspace_client.ack_thread

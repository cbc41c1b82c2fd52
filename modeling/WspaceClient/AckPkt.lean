-- `AckPkt`: the acknowledgement packet with its relative numbers, and the
-- loop of `RxCreateRawAck` that fills it.
import WspaceClient.RxRawBuf

namespace wspace_client.ack_pkt

open rx_raw_buf

inductive PktType
  | RAW_ACK
  | DATA_ACK
  deriving DecidableEq

structure AckHeader where
  type : PktType
  num_nacks : Nat
  num_pkts : Nat
  ack_seq : Nat
  start_nack_seq : Nat
  end_seq : Nat
  client_id : Int
  bs_id : Int

/-- The packet. Only the first `ACK_WINDOW` numbers of `rel_seq_arr` exist. -/
structure AckPkt where
  ack_hdr : AckHeader
  rel_seq_arr : Nat → Nat

/-- How `RxCreateRawAck` ends the process. -/
inductive Abort
  /-- `assert(num_nacks_ < ACK_WINDOW)` in `PushNack`. -/
  | pushNack
  /-- `Perror("Error: Raw nack full!\\n")`. -/
  | rawNackFull
  deriving DecidableEq

def init (p : AckPkt) (type : PktType) : AckPkt :=
  { p with ack_hdr := { p.ack_hdr with
      type, ack_seq := add32 p.ack_hdr.ack_seq 1, num_nacks := 0, start_nack_seq := 0,
      end_seq := 0, num_pkts := 0 } }

/-- `num_nacks_` is a `uint16`, and so is a relative number. -/
def pushNack (p : AckPkt) (seq : Nat) : Except Abort AckPkt :=
  if p.ack_hdr.num_nacks = 0 then
    .ok { ack_hdr := { p.ack_hdr with start_nack_seq := seq, num_nacks := 1 }
          rel_seq_arr := Function.update p.rel_seq_arr 0 0 }
  else if p.ack_hdr.num_nacks < ACK_WINDOW then
    .ok { ack_hdr := { p.ack_hdr with num_nacks := (p.ack_hdr.num_nacks + 1) % 2 ^ 16 }
          rel_seq_arr := Function.update p.rel_seq_arr p.ack_hdr.num_nacks
            (sub32 seq p.ack_hdr.start_nack_seq % 2 ^ 16) }
  else .error .pushNack

def isFull (p : AckPkt) : Bool := decide (p.ack_hdr.num_nacks ≥ ACK_WINDOW)

/-- The loop of `RxCreateRawAck` over the lost numbers. -/
def pushNacks (p : AckPkt) : List Nat → Except Abort AckPkt
  | [] => .ok p
  | seq :: seqs => do
    let p ← pushNack p seq
    if isFull p then .error .rawNackFull else pushNacks p seqs

def set_end_seq (p : AckPkt) (end_seq : Nat) : AckPkt :=
  { p with ack_hdr := { p.ack_hdr with end_seq } }

def set_num_pkts (p : AckPkt) (num_pkts : Nat) : AckPkt :=
  { p with ack_hdr := { p.ack_hdr with num_pkts } }

def set_ids (p : AckPkt) (client_id bs_id : Int) : AckPkt :=
  { p with ack_hdr := { p.ack_hdr with client_id, bs_id } }

/-- One turn of `RxCreateRawAck`, up to the packet that it sends. -/
def rxCreateRawAck (p : AckPkt) (nack_vec : List Nat) (end_seq num_pkts : Nat)
    (client_id bs_id : Int) : Except Abort AckPkt := do
  let p ← pushNacks (init p .RAW_ACK) nack_vec
  return set_ids (set_num_pkts (set_end_seq p end_seq) num_pkts) client_id bs_id

/-- What `ParseNack` reads from a packet. -/
structure Parsed where
  type : PktType
  ack_seq : Nat
  num_nacks : Nat
  end_seq : Nat
  client_id : Int
  bs_id : Int
  seq_arr : List Nat
  num_pkts : Nat

def parseNack (p : AckPkt) : Parsed where
  type := p.ack_hdr.type
  ack_seq := p.ack_hdr.ack_seq
  num_nacks := p.ack_hdr.num_nacks
  end_seq := p.ack_hdr.end_seq
  client_id := p.ack_hdr.client_id
  bs_id := p.ack_hdr.bs_id
  num_pkts := p.ack_hdr.num_pkts
  seq_arr := (List.range p.ack_hdr.num_nacks).map fun i =>
    add32 (p.rel_seq_arr i) p.ack_hdr.start_nack_seq

/-! ## What a filled packet decodes to -/

/-- The relative number of the code, from the first number of the list. -/
def rel (start seq : Nat) : Nat := sub32 seq start % 2 ^ 16

/-- The packet holds the list: its first number, and the relative numbers. -/
structure Filled (p : AckPkt) (seqs : List Nat) : Prop where
  num : p.ack_hdr.num_nacks = seqs.length
  arr : ∀ i q, seqs[i]? = some q → p.rel_seq_arr i = rel (seqs.headD 0) q
  start : seqs ≠ [] → p.ack_hdr.start_nack_seq = seqs.headD 0

theorem init_filled (p : AckPkt) (type : PktType) : Filled (init p type) [] :=
  ⟨rfl, by simp, nofun⟩

theorem sub32_self {x : Nat} (h : x < 2 ^ 32) : sub32 x x = 0 := by
  rw [sub32_of_le (Nat.le_refl x) h, Nat.sub_self]

/-- A number is pushed while there is room. -/
theorem pushNack_filled {p : AckPkt} {seqs : List Nat} {q : Nat} (h : Filled p seqs)
    (hlen : seqs.length < ACK_WINDOW) (hq : q < 2 ^ 32) :
    ∃ p', pushNack p q = .ok p' ∧ Filled p' (seqs ++ [q]) := by
  have hnum := h.num
  have hW : ACK_WINDOW = 500 := rfl
  cases seqs with
  | nil =>
    refine ⟨_, if_pos hnum, rfl, ?_, fun _ => rfl⟩
    intro i r hi
    cases i with
    | zero =>
      simp only [List.nil_append, List.getElem?_cons_zero, Option.some.injEq] at hi
      subst hi
      simp [rel, sub32_self hq]
    | succ i => simp at hi
  | cons r rs =>
    have hpos : p.ack_hdr.num_nacks ≠ 0 := by
      rw [hnum]
      nofun
    refine ⟨_, (if_neg hpos).trans (if_pos (by rw [hnum]; exact hlen)), ?_, ?_, fun _ => ?_⟩
    · simp only [hnum, List.length_append, List.length_cons, List.length_nil] at hlen ⊢
      omega
    · intro i x hi
      simp only [List.cons_append, List.headD_cons]
      by_cases hi' : i = p.ack_hdr.num_nacks
      · subst hi'
        rw [hnum, List.getElem?_append_right (Nat.le_refl _)] at hi
        simp only [Nat.sub_self, List.getElem?_cons_zero, Option.some.injEq] at hi
        subst hi
        rw [Function.update_self, h.start (by simp)]
        rfl
      · rw [Function.update_of_ne hi']
        apply h.arr i x
        have hlt : i < (r :: rs).length := by
          have := (List.getElem?_eq_some_iff.mp hi).1
          simp only [List.length_append, List.length_cons, List.length_nil] at this hnum ⊢
          omega
        rwa [List.getElem?_append_left hlt] at hi
    · exact h.start (by simp)

/-- A push keeps the type and the number of the packet. -/
theorem pushNack_keeps {p p' : AckPkt} {q : Nat} (h : pushNack p q = .ok p') :
    p'.ack_hdr.type = p.ack_hdr.type ∧ p'.ack_hdr.ack_seq = p.ack_hdr.ack_seq := by
  unfold pushNack at h
  split at h
  · cases h
    exact ⟨rfl, rfl⟩
  · split at h
    · cases h
      exact ⟨rfl, rfl⟩
    · cases h

theorem isFull_filled {p : AckPkt} {seqs : List Nat} (h : Filled p seqs) :
    isFull p ↔ ACK_WINDOW ≤ seqs.length := by
  simp [isFull, h.num]

theorem pushNacks_ok {p : AckPkt} {done rest : List Nat} (h : Filled p done)
    (hrest : ∀ q ∈ rest, q < 2 ^ 32) (hlen : done.length + rest.length < ACK_WINDOW) :
    ∃ p', pushNacks p rest = .ok p' ∧ Filled p' (done ++ rest) := by
  induction rest generalizing p done with
  | nil => exact ⟨p, rfl, by simpa using h⟩
  | cons q rest ih =>
    simp only [List.length_cons] at hlen
    obtain ⟨p1, hp1, h1⟩ := pushNack_filled h (by omega) (hrest q List.mem_cons_self)
    have hnot : ¬isFull p1 := by
      rw [isFull_filled h1]
      simp only [List.length_append, List.length_cons, List.length_nil]
      omega
    obtain ⟨p2, hp2, h2⟩ := ih h1 (fun x hx => hrest x (List.mem_cons_of_mem _ hx)) (by
      simp only [List.length_append, List.length_cons, List.length_nil]
      omega)
    refine ⟨p2, ?_, by simpa using h2⟩
    simp only [pushNacks, hp1, bind, Except.bind]
    rw [if_neg hnot, hp2]

/-- A list that fills the packet ends the process. -/
theorem pushNacks_full {p : AckPkt} {done rest : List Nat} (h : Filled p done)
    (hrest : ∀ q ∈ rest, q < 2 ^ 32) (hdone : done.length < ACK_WINDOW)
    (hlen : ACK_WINDOW ≤ done.length + rest.length) :
    pushNacks p rest = .error .rawNackFull := by
  induction rest generalizing p done with
  | nil =>
    simp only [List.length_nil] at hlen
    omega
  | cons q rest ih =>
    simp only [List.length_cons] at hlen
    obtain ⟨p1, hp1, h1⟩ := pushNack_filled h hdone (hrest q List.mem_cons_self)
    simp only [pushNacks, hp1, bind, Except.bind]
    split
    · rfl
    · rename_i hnot
      rw [isFull_filled h1] at hnot
      refine ih h1 (fun x hx => hrest x (List.mem_cons_of_mem _ hx)) (by omega) ?_
      simp only [List.length_append, List.length_cons, List.length_nil]
      omega

/-- A relative number decodes to its own number within 16 bits of the first one. -/
theorem decode_rel {start q : Nat} (h : start ≤ q) (hq : q < 2 ^ 32) :
    add32 (rel start q) start = q ↔ q < start + 2 ^ 16 := by
  have hsub : sub32 q start = q - start := sub32_of_le h hq
  have hlt : (q - start) % 2 ^ 16 < 2 ^ 16 := Nat.mod_lt _ (by decide)
  have hle : (q - start) % 2 ^ 16 ≤ q - start := Nat.mod_le _ _
  rw [rel, hsub, add32_of_lt (by omega)]
  constructor
  · intro he
    omega
  · intro hw
    rw [Nat.mod_eq_of_lt (by omega)]
    omega

/-- An ascending list is decoded as it was pushed, if and only if it lies
within 16 bits. -/
theorem seq_arr_filled {p : AckPkt} {seqs : List Nat} (h : Filled p seqs)
    (hasc : seqs.Pairwise (· < ·)) (hlt : ∀ q ∈ seqs, q < 2 ^ 32) :
    (parseNack p).seq_arr = seqs ↔ ∀ q ∈ seqs, q < seqs.headD 0 + 2 ^ 16 := by
  have harr : (parseNack p).seq_arr =
      seqs.map fun q => add32 (rel (seqs.headD 0) q) (seqs.headD 0) := by
    refine List.ext_getElem? fun i => ?_
    simp only [parseNack, h.num, List.getElem?_map]
    by_cases hi : i < seqs.length
    · have hne : seqs ≠ [] := by
        rintro rfl
        simp at hi
      rw [List.getElem?_range hi, List.getElem?_eq_getElem hi, Option.map_some, Option.map_some,
        h.arr i _ (List.getElem?_eq_getElem hi), h.start hne]
    · rw [List.getElem?_eq_none (by simpa using hi), List.getElem?_eq_none (by omega)]
      rfl
  rw [harr]
  have hhead : ∀ q ∈ seqs, seqs.headD 0 ≤ q := by
    cases seqs with
    | nil => simp
    | cons r rs =>
      intro q hq
      rw [List.pairwise_cons] at hasc
      rcases List.mem_cons.mp hq with rfl | hq
      · exact Nat.le_refl _
      · exact Nat.le_of_lt (hasc.1 q hq)
  have hid : seqs.map (fun q => add32 (rel (seqs.headD 0) q) (seqs.headD 0)) = seqs ↔
      ∀ q ∈ seqs, add32 (rel (seqs.headD 0) q) (seqs.headD 0) = q := by
    conv_lhs =>
      rhs
      rw [← List.map_id seqs]
    exact List.map_inj_left
  rw [hid]
  constructor
  · intro he q hq
    rw [← decode_rel (hhead q hq) (hlt q hq)]
    exact he q hq
  · intro hw q hq
    rw [decode_rel (hhead q hq) (hlt q hq)]
    exact hw q hq

end wspace_client.ack_pkt

-- The two threads of a raw buffer. `RxRcvAth` pushes the packets, and
-- `RxCreateRawAck` sleeps until there are enough of them and sends one `AckPkt`
-- for each report. The acknowledgements leave in order, and no two of them
-- count the same packet.
import WspaceClient.DataAck
import WspaceClient.WriteTun

namespace wspace_client.raw_threads

open machine rx_raw_buf ack_pkt
open data_ack (getLen ACK_HEADER_SIZE pushAll pushAll_keeps)
open write_tun (uint16)

/-- Where `RxCreateRawAck` stands. -/
inductive Pc
  /-- Before `PopPktStatus`. -/
  | idle
  /-- In `WaitFill`; `woken` tells whether `SignalFill` came since. -/
  | waitFill (woken : Bool)
  /-- Past `PopPktStatus`, with what it returned. -/
  | building (nack_vec : List Nat) (end_seq num_pkts : Nat)
  /-- The process ended. -/
  | aborted
  deriving DecidableEq

structure RawThreads where
  raw_pkt_buf : RxRawBuf
  pc : Pc
  ack_pkt : AckPkt

inductive Label
  /-- `RxRcvAth` calls `PushPkts`. -/
  | push (cur_seq : Nat) (is_cur_good : Bool) (h : cur_seq < 2 ^ 32)
  /-- `RxCreateRawAck` runs up to its next stop. The radio has the base station
  `bs_id`, and `nwrite` is the result of `sendto`. -/
  | report (bs_id nwrite : Int)

inductive Event
  | buf (e : rx_raw_buf.Event)
  /-- `Tun::Write` sent the packet to the controller. -/
  | sent (p : AckPkt)

/-- `SignalFill`, which only `RxCreateRawAck` waits for. -/
def signalFill : Pc → Pc
  | .waitFill _ => .waitFill true
  | pc => pc

/-- A turn of `RxCreateRawAck` past `PopPktStatus`, with the assertions of
`GetLen` and `Tun::Write`. -/
def sendRawAck (client_id bs_id nwrite : Int) (p : AckPkt) (nack_vec : List Nat)
    (end_seq num_pkts : Nat) : Option AckPkt :=
  match rxCreateRawAck p nack_vec end_seq num_pkts client_id bs_id with
  | .error _ => none
  | .ok p' =>
    match getLen p' with
    | none => none
    | some len => if len > 0 ∧ uint16 nwrite = len then some p' else none

/-- `PopPktStatus`: its test, and then its wait or its report. -/
def popOrWait (min_pkt_cnt : Nat) (s : RawThreads) : RawThreads × List Event :=
  if s.raw_pkt_buf.pkt_cnt < min_pkt_cnt then ({ s with pc := .waitFill false }, [])
  else
    let ((nack_vec, end_seq, num_pkts), b) := popPktStatus s.raw_pkt_buf
    ({ s with raw_pkt_buf := b, pc := .building nack_vec end_seq num_pkts },
      [.buf (.popped nack_vec end_seq num_pkts)])

/-- One step of a thread. `WaitFill` may also return without a signal. -/
def step (min_pkt_cnt : Nat) (client_id : Int) (s : RawThreads) :
    Label → Option (RawThreads × List Event)
  | .push cur_seq is_cur_good _ =>
    match s.pc with
    | .aborted => none
    | pc =>
      let (ok, b) := pushPkts s.raw_pkt_buf cur_seq is_cur_good
      if ok then
        some ({ s with raw_pkt_buf := b, pc := signalFill pc },
          [.buf (.pushed cur_seq is_cur_good (fits s.raw_pkt_buf cur_seq))])
      else some (s, [])
  | .report bs_id nwrite =>
    match s.pc with
    | .idle => some (popOrWait min_pkt_cnt s)
    | .waitFill _ => some (popOrWait min_pkt_cnt s)
    | .building nack_vec end_seq num_pkts =>
      match sendRawAck client_id bs_id nwrite s.ack_pkt nack_vec end_seq num_pkts with
      | none => some ({ s with pc := .aborted }, [])
      | some p => some ({ s with pc := .idle, ack_pkt := p }, [.sent p])
    | .aborted => none

/-- The threads as they start, over a new packet. -/
structure Starts (max_send_cnt : Nat) (s : RawThreads) : Prop where
  buf : s.raw_pkt_buf = start max_send_cnt
  pc : s.pc = .idle
  seq : s.ack_pkt.ack_hdr.ack_seq = 0

def rawThreads (max_send_cnt min_pkt_cnt : Nat) (client_id : Int) :
    Machine RawThreads Label Event where
  init := Starts max_send_cnt
  step := step min_pkt_cnt client_id

/-- The acknowledgements that were sent, oldest first. -/
def sentAcks (tr : List Event) : List AckPkt := tr.filterMap fun | .sent p => some p | _ => none

/-- The events of the buffer. -/
def bufEvent : Event → Option rx_raw_buf.Event
  | .buf e => some e
  | .sent _ => none

/-! ## The ways a step can go -/

/-- `RxCreateRawAck` is about to test the count. -/
def Pc.asks : Pc → Prop
  | .idle => True
  | .waitFill _ => True
  | _ => False

inductive Turn (min_pkt_cnt : Nat) (client_id : Int) (s : RawThreads) :
    Label → RawThreads → List Event → Prop
  | stale {cur_seq : Nat} {good : Bool} {h : cur_seq < 2 ^ 32} :
      Turn min_pkt_cnt client_id s (.push cur_seq good h) s []
  | push {cur_seq : Nat} {good : Bool} {h : cur_seq < 2 ^ 32}
      (hlt : s.raw_pkt_buf.end_seq < cur_seq) :
      Turn min_pkt_cnt client_id s (.push cur_seq good h)
        { s with raw_pkt_buf := (pushPkts s.raw_pkt_buf cur_seq good).2, pc := signalFill s.pc }
        [.buf (.pushed cur_seq good (fits s.raw_pkt_buf cur_seq))]
  | wait {bs_id nwrite : Int} (hpc : s.pc.asks) (hfew : s.raw_pkt_buf.pkt_cnt < min_pkt_cnt) :
      Turn min_pkt_cnt client_id s (.report bs_id nwrite) { s with pc := .waitFill false } []
  | pop {bs_id nwrite : Int} (hpc : s.pc.asks) (hmin : min_pkt_cnt ≤ s.raw_pkt_buf.pkt_cnt) :
      Turn min_pkt_cnt client_id s (.report bs_id nwrite)
        { s with
          raw_pkt_buf := (popPktStatus s.raw_pkt_buf).2
          pc := .building (s.raw_pkt_buf.nack_deq.map (·.seq)) s.raw_pkt_buf.end_seq
            (s.raw_pkt_buf.pkt_cnt % 2 ^ 16) }
        [.buf (.popped (s.raw_pkt_buf.nack_deq.map (·.seq)) s.raw_pkt_buf.end_seq
          (s.raw_pkt_buf.pkt_cnt % 2 ^ 16))]
  | send {bs_id nwrite : Int} {v : List Nat} {g n : Nat} {p : AckPkt}
      (hpc : s.pc = .building v g n)
      (hp : sendRawAck client_id bs_id nwrite s.ack_pkt v g n = some p) :
      Turn min_pkt_cnt client_id s (.report bs_id nwrite) { s with pc := .idle, ack_pkt := p }
        [.sent p]
  | abort {bs_id nwrite : Int} {v : List Nat} {g n : Nat} (hpc : s.pc = .building v g n)
      (hp : sendRawAck client_id bs_id nwrite s.ack_pkt v g n = none) :
      Turn min_pkt_cnt client_id s (.report bs_id nwrite) { s with pc := .aborted } []

theorem popOrWait_turn {min_pkt_cnt : Nat} {client_id bs_id nwrite : Int} {s s' : RawThreads}
    {out : List Event} (hpc : s.pc.asks) (hs : popOrWait min_pkt_cnt s = (s', out)) :
    Turn min_pkt_cnt client_id s (.report bs_id nwrite) s' out := by
  unfold popOrWait at hs
  split at hs
  · rename_i hfew
    cases hs
    exact .wait hpc hfew
  · rename_i hmin
    cases hs
    exact .pop hpc (Nat.le_of_not_lt hmin)

theorem step_turn {min_pkt_cnt : Nat} {client_id : Int} {s s' : RawThreads} {l : Label}
    {out : List Event} (hs : step min_pkt_cnt client_id s l = some (s', out)) :
    Turn min_pkt_cnt client_id s l s' out := by
  cases l with
  | push cur_seq good h =>
    simp only [step] at hs
    split at hs
    · cases hs
    · by_cases hle : cur_seq ≤ s.raw_pkt_buf.end_seq
      · have hp : pushPkts s.raw_pkt_buf cur_seq good = (false, s.raw_pkt_buf) := if_pos hle
        simp only [hp, Bool.false_eq_true, if_false] at hs
        cases hs
        exact .stale
      · have hp : (pushPkts s.raw_pkt_buf cur_seq good).1 = true := by simp [pushPkts, hle]
        simp only [hp, if_true] at hs
        cases hs
        exact .push (Nat.lt_of_not_le hle)
  | report bs_id nwrite =>
    simp only [step] at hs
    split at hs
    · rename_i hpc
      exact popOrWait_turn (by rw [hpc]; trivial) (Option.some.inj hs)
    · rename_i w hpc
      exact popOrWait_turn (by rw [hpc]; trivial) (Option.some.inj hs)
    · rename_i v g n hpc
      split at hs
      · rename_i hp
        cases hs
        exact .abort hpc hp
      · rename_i p hp
        cases hs
        exact .send hpc hp
    · cases hs

/-! ## The buffer under the threads -/

/-- The steps of the threads on the buffer are calls of it. -/
theorem turn_call {m min_pkt_cnt : Nat} {client_id : Int} {s s' : RawThreads} {l : Label}
    {out : List Event} (h : Turn min_pkt_cnt client_id s l s' out) :
    ∃ ks, exec (rawBuf m) s.raw_pkt_buf ks = some (s'.raw_pkt_buf, out.filterMap bufEvent) := by
  cases h with
  | stale => exact ⟨[], rfl⟩
  | @push cur_seq good h hlt =>
    have hp : (pushPkts s.raw_pkt_buf cur_seq good).1 = true := by
      simp [pushPkts, Nat.not_le.mpr hlt]
    refine ⟨[.push cur_seq good h], exec_one ?_⟩
    simp only [rawBuf, rx_raw_buf.step, hp, if_true]
    rfl
  | wait => exact ⟨[], rfl⟩
  | pop hpc hmin =>
    refine ⟨[.pop min_pkt_cnt], exec_one ?_⟩
    simp only [rawBuf, rx_raw_buf.step, if_neg (Nat.not_lt.mpr hmin)]
    rfl
  | send => exact ⟨[], rfl⟩
  | abort => exact ⟨[], rfl⟩

/-- What the threads do to the buffer is a run of the buffer. -/
theorem run_buf {max_send_cnt min_pkt_cnt : Nat} {client_id : Int}
    {ok : List Event → RawThreads → Label → Prop} {s : RawThreads} {tr : List Event}
    (r : Run (rawThreads max_send_cnt min_pkt_cnt client_id) ok s tr) :
    Run (rawBuf max_send_cnt) anyStep s.raw_pkt_buf (tr.filterMap bufEvent) :=
  r.refines (fun s : RawThreads => s.raw_pkt_buf) bufEvent (fun _ h => Starts.buf h)
    fun _ _ _ _ _ _ _ hs => turn_call (step_turn hs)

/-- The counts of the buffer are in their ranges. -/
structure Counts (b : RxRawBuf) : Prop where
  window : b.pkt_cnt ≤ ACK_WINDOW
  cnt : b.pkt_cnt ≤ b.end_seq
  seq : b.end_seq < 2 ^ 32
  nacks : ∀ e ∈ b.nack_deq, e.seq ≤ b.end_seq

/-- The packets up to here were counted by a report, or never will be. -/
def counted (b : RxRawBuf) : Nat := b.end_seq - b.pkt_cnt

theorem Counts.push {b : RxRawBuf} {cur_seq : Nat} (good : Bool) (h : Counts b)
    (hlt : b.end_seq < cur_seq) (hseq : cur_seq < 2 ^ 32) :
    Counts (pushPkts b cur_seq good).2 ∧ counted b ≤ counted (pushPkts b cur_seq good).2 := by
  have hcnt := h.cnt
  have hcur : ∀ e ∈ (if good then [] else [cur_seq]).map fun i => (⟨i, 0⟩ : RawPktRcvStatus),
      e.seq ≤ cur_seq := by
    intro e he
    cases good <;> simp at he
    rw [he]
  by_cases hfit : fits b cur_seq
  · have hsum := (fits_iff h.window hlt hseq).mp hfit
    rw [pushPkts_of_fits good h.window hlt hseq hfit]
    refine ⟨⟨hsum, by simp only; omega, hseq, ?_⟩, by simp only [counted]; omega⟩
    intro e he
    change e.seq ≤ cur_seq
    rw [List.map_append, ← List.append_assoc, List.mem_append, List.mem_append] at he
    rcases he with (he | he) | he
    · have := h.nacks e he
      omega
    · obtain ⟨q, hq, rfl⟩ := List.mem_map.mp he
      rw [holes, List.mem_range'_1] at hq
      simp only
      omega
    · exact hcur e he
  · rw [pushPkts_of_full good hlt hfit]
    exact ⟨⟨(by decide : 1 ≤ ACK_WINDOW), by simp only; omega, hseq, hcur⟩,
      by simp only [counted]; omega⟩

theorem Counts.pop {b : RxRawBuf} (h : Counts b) : Counts (popPktStatus b).2 := by
  refine ⟨Nat.zero_le _, Nat.zero_le _, h.seq, fun e he => ?_⟩
  have hm := (List.dropWhile_sublist _).subset he
  obtain ⟨e', he', rfl⟩ := List.mem_map.mp hm
  exact h.nacks e' he'

theorem run_counts {m : Nat} {ok : List rx_raw_buf.Event → RxRawBuf → rx_raw_buf.Label → Prop}
    {b : RxRawBuf} {tr : List rx_raw_buf.Event} (r : Run (rawBuf m) ok b tr) : Counts b := by
  refine r.invariant (fun b _ => Counts b) ?_ ?_
  · rintro b rfl
    exact ⟨Nat.zero_le _, Nat.zero_le _, Nat.two_pow_pos 32, by simp [start]⟩
  · intro b tr l b' out _ h _ hs
    cases step_call hs with
    | stale => exact h
    | @push cur_seq good hseq hlt => exact (h.push good hlt hseq).1
    | pop => exact h.pop

/-! ## The packet of a turn -/

/-- A list that does not fill the packet is pushed as `RxCreateDataAck` pushes it. -/
theorem pushAll_of_pushNacks {p p' : AckPkt} {v : List Nat} (h : pushNacks p v = .ok p') :
    pushAll p v = .ok p' := by
  induction v generalizing p with
  | nil =>
    cases h
    rfl
  | cons q v ih =>
    obtain ⟨p1, hp1, h1⟩ := ok_of_bind h
    split at h1
    · cases h1
    · unfold pushAll
      rw [hp1]
      exact ih h1

theorem rxCreateRawAck_ack_seq {p p' : AckPkt} {v : List Nat} {g n : Nat} {client_id bs_id : Int}
    (h : rxCreateRawAck p v g n client_id bs_id = .ok p') :
    p'.ack_hdr.ack_seq = add32 p.ack_hdr.ack_seq 1 := by
  obtain ⟨p1, hp1, h1⟩ := ok_of_bind h
  cases h1
  have hseq := (pushAll_keeps (pushAll_of_pushNacks hp1)).2
  exact hseq

/-- A turn sends its packet if and only if the list leaves room in it and the
socket takes the whole of it. -/
theorem sendRawAck_some_iff (client_id bs_id nwrite : Int) (p : AckPkt) {v : List Nat} (g n : Nat)
    (hv : ∀ q ∈ v, q < 2 ^ 32) :
    (∃ p', sendRawAck client_id bs_id nwrite p v g n = some p') ↔
      v.length < ACK_WINDOW ∧ uint16 nwrite = ACK_HEADER_SIZE + 2 * v.length := by
  unfold sendRawAck
  by_cases hlen : v.length < ACK_WINDOW
  · obtain ⟨p', hp', hfill⟩ : ∃ p', rxCreateRawAck p v g n client_id bs_id = .ok p' ∧
        Filled p' v := by
      obtain ⟨p', hp', hfill, -, -⟩ := raw_ack.rxCreateRawAck_ok hv hlen
      exact ⟨p', hp', hfill⟩
    have hget : getLen p' = some (ACK_HEADER_SIZE + 2 * v.length) :=
      data_ack.getLen_filled hfill hlen
    have hpos : ACK_HEADER_SIZE + 2 * v.length > 0 := by
      unfold ACK_HEADER_SIZE
      omega
    simp [hp', hget, hpos, hlen]
  · have hfull : rxCreateRawAck p v g n client_id bs_id = .error .rawNackFull :=
      raw_ack.rxCreateRawAck_full hv (Nat.le_of_not_lt hlen)
    simp [hfull, hlen]

/-- The header of the packet that was sent. -/
structure Reports (p : AckPkt) (ack_seq g n : Nat) : Prop where
  seq : p.ack_hdr.ack_seq = ack_seq
  end_seq : p.ack_hdr.end_seq = g
  num_pkts : p.ack_hdr.num_pkts = n

theorem sendRawAck_reports {client_id bs_id nwrite : Int} {p p' : AckPkt} {v : List Nat}
    {g n : Nat} (h : sendRawAck client_id bs_id nwrite p v g n = some p') :
    Reports p' (add32 p.ack_hdr.ack_seq 1) g n := by
  unfold sendRawAck at h
  split at h
  · cases h
  · rename_i p1 hp1
    have hseq := rxCreateRawAck_ack_seq hp1
    split at h
    · cases h
    · split at h
      · cases h
        obtain ⟨p2, -, h2⟩ := ok_of_bind hp1
        cases h2
        exact ⟨hseq, rfl, rfl⟩
      · cases h

/-! ## The invariant -/

/-- What an acknowledgement counts is past `base`, and in the window. -/
structure Counted (min_pkt_cnt g n : Nat) : Prop where
  min : min_pkt_cnt ≤ n
  window : n ≤ ACK_WINDOW
  le : n ≤ g

/-- Where the packets start that the next acknowledgement may count. -/
def nextBase (s : RawThreads) : Nat :=
  match s.pc with
  | .building _ g n => g - n
  | _ => counted s.raw_pkt_buf

structure InOrder (min_pkt_cnt : Nat) (s : RawThreads) (tr : List Event) : Prop where
  sleeps : s.pc = .waitFill false → s.raw_pkt_buf.pkt_cnt < min_pkt_cnt
  seq : s.ack_pkt.ack_hdr.ack_seq = (sentAcks tr).length % 2 ^ 32
  sent : ∀ i p, (sentAcks tr)[i]? = some p → p.ack_hdr.ack_seq = (i + 1) % 2 ^ 32 ∧
    Counted min_pkt_cnt p.ack_hdr.end_seq p.ack_hdr.num_pkts
  apart : (sentAcks tr).Pairwise fun p q =>
    p.ack_hdr.end_seq + q.ack_hdr.num_pkts ≤ q.ack_hdr.end_seq
  past : ∀ p ∈ sentAcks tr, p.ack_hdr.end_seq ≤ nextBase s
  building : ∀ v g n, s.pc = .building v g n → (∀ q ∈ v, q < 2 ^ 32) ∧
    Counted min_pkt_cnt g n ∧ g ≤ counted s.raw_pkt_buf

theorem sentAcks_buf (tr : List Event) (e : rx_raw_buf.Event) :
    sentAcks (tr ++ [.buf e]) = sentAcks tr := by simp [sentAcks]

theorem sentAcks_sent (tr : List Event) (p : AckPkt) :
    sentAcks (tr ++ [.sent p]) = sentAcks tr ++ [p] := by simp [sentAcks]

theorem starts_inOrder {m min_pkt_cnt : Nat} {s : RawThreads} (h : Starts m s) :
    InOrder min_pkt_cnt s [] := by
  obtain ⟨-, hpc, hseq⟩ := h
  refine ⟨?_, hseq, by simp [sentAcks], .nil, by simp [sentAcks], ?_⟩
  · rw [hpc]
    nofun
  · rw [hpc]
    nofun

theorem nextBase_of_ne {s : RawThreads} (h : ∀ v g n, s.pc ≠ .building v g n) :
    nextBase s = counted s.raw_pkt_buf := by
  unfold nextBase
  split
  · rename_i v g n hpc
    exact absurd hpc (h v g n)
  · rfl

theorem asks_ne {pc : Pc} (h : pc.asks) (v : List Nat) (g n : Nat) : pc ≠ .building v g n := by
  rintro rfl
  exact h

theorem signalFill_building {pc : Pc} {v : List Nat} {g n : Nat}
    (h : signalFill pc = .building v g n) : pc = .building v g n := by
  cases pc <;> first | exact h | cases h

/-- A push moves the base up, or leaves it to the report that is being built. -/
theorem nextBase_push {s : RawThreads} {b : RxRawBuf}
    (hle : counted s.raw_pkt_buf ≤ counted b) :
    nextBase s ≤ nextBase { s with raw_pkt_buf := b, pc := signalFill s.pc } := by
  unfold nextBase
  cases hpc : s.pc with
  | building v g n => exact Nat.le_refl _
  | idle => exact hle
  | waitFill w => exact hle
  | aborted => exact hle

/-- Whatever the thread waits for, a push wakes it. -/
theorem signalFill_awake (pc : Pc) : signalFill pc ≠ .waitFill false := by
  cases pc <;> simp [signalFill]

theorem InOrder.push {min_pkt_cnt cur_seq : Nat} {s : RawThreads} {tr : List Event} (good : Bool)
    (e : rx_raw_buf.Event) (h : InOrder min_pkt_cnt s tr) (hc : Counts s.raw_pkt_buf)
    (hlt : s.raw_pkt_buf.end_seq < cur_seq) (hseq : cur_seq < 2 ^ 32) :
    InOrder min_pkt_cnt
      { s with raw_pkt_buf := (pushPkts s.raw_pkt_buf cur_seq good).2, pc := signalFill s.pc }
      (tr ++ [.buf e]) := by
  obtain ⟨hc', hle⟩ := hc.push good hlt hseq
  have hbase := nextBase_push (s := s) hle
  refine ⟨fun hpc => absurd hpc (signalFill_awake s.pc), ?_, ?_, ?_, ?_, ?building⟩
  case building =>
    intro v g n hpc
    obtain ⟨hv, hcount, hg⟩ := h.building v g n (signalFill_building hpc)
    exact ⟨hv, hcount, Nat.le_trans hg hle⟩
  all_goals rw [sentAcks_buf]
  · exact h.seq
  · exact h.sent
  · exact h.apart
  · intro p hp
    exact Nat.le_trans (h.past p hp) hbase

/-- The report counts all that the buffer counted, so the next base stays. -/
theorem InOrder.pop {min_pkt_cnt : Nat} {s : RawThreads} {tr : List Event}
    (e : rx_raw_buf.Event) (h : InOrder min_pkt_cnt s tr) (hc : Counts s.raw_pkt_buf)
    (hpc : s.pc.asks) (hmin : min_pkt_cnt ≤ s.raw_pkt_buf.pkt_cnt) :
    InOrder min_pkt_cnt
      { s with
        raw_pkt_buf := (popPktStatus s.raw_pkt_buf).2
        pc := .building (s.raw_pkt_buf.nack_deq.map (·.seq)) s.raw_pkt_buf.end_seq
          (s.raw_pkt_buf.pkt_cnt % 2 ^ 16) } (tr ++ [.buf e]) := by
  have hbase := nextBase_of_ne (asks_ne hpc)
  have hmod : s.raw_pkt_buf.pkt_cnt % 2 ^ 16 = s.raw_pkt_buf.pkt_cnt := by
    have hw := hc.window
    exact Nat.mod_eq_of_lt (by simp only [ACK_WINDOW] at hw; omega)
  rw [hmod]
  refine ⟨fun hb => (by cases hb), ?_, ?_, ?_, ?_, ?building⟩
  case building =>
    intro v g n hb
    cases hb
    refine ⟨fun q hq => ?_, ⟨hmin, hc.window, hc.cnt⟩, Nat.le_refl _⟩
    obtain ⟨e, he, rfl⟩ := List.mem_map.mp hq
    exact Nat.lt_of_le_of_lt (hc.nacks e he) hc.seq
  all_goals rw [sentAcks_buf]
  · exact h.seq
  · exact h.sent
  · exact h.apart
  · intro p hp
    have hpast := h.past p hp
    rw [hbase] at hpast
    exact hpast

/-- The packet takes the next number, and what it counts is past what was counted. -/
theorem InOrder.send {min_pkt_cnt : Nat} {s : RawThreads} {tr : List Event} {v : List Nat}
    {g n : Nat} {p : AckPkt} (h : InOrder min_pkt_cnt s tr) (hpc : s.pc = .building v g n)
    (hp : Reports p (add32 s.ack_pkt.ack_hdr.ack_seq 1) g n) :
    InOrder min_pkt_cnt { s with pc := .idle, ack_pkt := p } (tr ++ [.sent p]) := by
  obtain ⟨hseq, hg, hn⟩ := hp
  obtain ⟨-, hcount, hgc⟩ := h.building v g n hpc
  have hbase : nextBase s = g - n := by
    unfold nextBase
    rw [hpc]
  have hnew : p.ack_hdr.ack_seq = ((sentAcks tr).length + 1) % 2 ^ 32 := by
    rw [hseq, h.seq, add32, u32, Nat.add_mod_mod, Nat.add_comm]
  refine ⟨fun hb => (by cases hb), ?_, ?_, ?_, ?_, fun v g n hb => (by cases hb)⟩
  all_goals rw [sentAcks_sent]
  · rw [List.length_append]
    exact hnew
  · intro i q hi
    by_cases hlt : i < (sentAcks tr).length
    · rw [List.getElem?_append_left hlt] at hi
      exact h.sent i q hi
    · rw [List.getElem?_append_right (Nat.le_of_not_lt hlt), List.getElem?_singleton] at hi
      split at hi
      · rename_i hzero
        cases hi
        have hi' : i = (sentAcks tr).length := by omega
        rw [hi', hg, hn]
        exact ⟨hnew, hcount⟩
      · cases hi
  · rw [List.pairwise_append]
    refine ⟨h.apart, List.pairwise_singleton _ _, fun q hq q' hq' => ?_⟩
    rw [List.mem_singleton] at hq'
    subst hq'
    have hpast := h.past q hq
    have hle := hcount.le
    rw [hbase] at hpast
    rw [hg, hn]
    omega
  · intro q hq
    change q.ack_hdr.end_seq ≤ counted s.raw_pkt_buf
    rw [List.mem_append, List.mem_singleton] at hq
    rcases hq with hq | rfl
    · have hpast := h.past q hq
      omega
    · rw [hg]
      exact hgc

theorem turn_inOrder {min_pkt_cnt : Nat} {client_id : Int} {s s' : RawThreads} {l : Label}
    {tr out : List Event} (hc : Counts s.raw_pkt_buf) (h : InOrder min_pkt_cnt s tr)
    (ht : Turn min_pkt_cnt client_id s l s' out) : InOrder min_pkt_cnt s' (tr ++ out) := by
  cases ht with
  | stale => simpa using h
  | @push cur_seq good hseq hlt => exact h.push good _ hc hlt hseq
  | wait hpc hfew =>
    rw [List.append_nil]
    have hbase := nextBase_of_ne (asks_ne hpc)
    refine ⟨fun _ => hfew, h.seq, h.sent, h.apart, fun p hp => ?_, fun v g n hb => (by cases hb)⟩
    have hpast := h.past p hp
    rw [hbase] at hpast
    exact hpast
  | pop hpc hmin => exact h.pop _ hc hpc hmin
  | send hpc hp => exact h.send hpc (sendRawAck_reports hp)
  | @abort bs_id nwrite v g n hpc hp =>
    obtain ⟨-, hcount, hgc⟩ := h.building v g n hpc
    rw [List.append_nil]
    refine ⟨fun hb => (by cases hb), h.seq, h.sent, h.apart, fun p hp => ?_,
      fun v g n hb => (by cases hb)⟩
    have hpast := h.past p hp
    change p.ack_hdr.end_seq ≤ counted s.raw_pkt_buf
    unfold nextBase at hpast
    rw [hpc] at hpast
    simp only at hpast
    omega

theorem run_inOrder {max_send_cnt min_pkt_cnt : Nat} {client_id : Int}
    {ok : List Event → RawThreads → Label → Prop} {s : RawThreads} {tr : List Event}
    (r : Run (rawThreads max_send_cnt min_pkt_cnt client_id) ok s tr) :
    InOrder min_pkt_cnt s tr := by
  refine r.invariant (InOrder min_pkt_cnt) (fun _ h => starts_inOrder h) ?_
  intro s tr l s' out r h _ hs
  exact turn_inOrder (run_counts (run_buf r)) h (step_turn hs)

/-- `RxCreateRawAck` sleeps only when there are too few packets, so no wake-up
is lost. Its turn sends the packet if and only if the lost numbers leave room in
it and the socket takes it, and ends the process otherwise. The packets that were
sent are numbered in order, each one counts at least `min_pkt_cnt` packets and at
most a window of them, and what a later one counts starts past the end of each
earlier one. -/
theorem raw_acks_are_sent_in_order {max_send_cnt min_pkt_cnt : Nat} {client_id : Int}
    {s : RawThreads} {tr : List Event}
    (r : Run (rawThreads max_send_cnt min_pkt_cnt client_id) anyStep s tr) :
    (s.pc = .waitFill false → s.raw_pkt_buf.pkt_cnt < min_pkt_cnt) ∧
    (∀ v g n, s.pc = .building v g n → ∀ bs_id nwrite,
      ((∃ p, step min_pkt_cnt client_id s (.report bs_id nwrite) =
          some ({ s with pc := .idle, ack_pkt := p }, [.sent p])) ↔
        v.length < ACK_WINDOW ∧ uint16 nwrite = ACK_HEADER_SIZE + 2 * v.length) ∧
      (¬(v.length < ACK_WINDOW ∧ uint16 nwrite = ACK_HEADER_SIZE + 2 * v.length) →
        step min_pkt_cnt client_id s (.report bs_id nwrite) =
          some ({ s with pc := .aborted }, []))) ∧
    (∀ i p, (sentAcks tr)[i]? = some p → p.ack_hdr.ack_seq = (i + 1) % 2 ^ 32 ∧
      min_pkt_cnt ≤ p.ack_hdr.num_pkts ∧ p.ack_hdr.num_pkts ≤ ACK_WINDOW ∧
      p.ack_hdr.num_pkts ≤ p.ack_hdr.end_seq) ∧
    (sentAcks tr).Pairwise fun p q =>
      p.ack_hdr.end_seq ≤ q.ack_hdr.end_seq - q.ack_hdr.num_pkts := by
  have h := run_inOrder r
  refine ⟨h.sleeps, ?_, ?_, ?_⟩
  · intro v g n hpc bs_id nwrite
    rw [← sendRawAck_some_iff client_id bs_id nwrite s.ack_pkt g n (h.building v g n hpc).1]
    simp only [step, hpc]
    cases sendRawAck client_id bs_id nwrite s.ack_pkt v g n with
    | none => simp
    | some p => simp
  · intro i p hi
    obtain ⟨hseq, hmin, hwin, hle⟩ := h.sent i p hi
    exact ⟨hseq, hmin, hwin, hle⟩
  · refine h.apart.imp fun {p q} hpq => ?_
    omega

/-- A packet without numbers, as `new AckPkt` gives it. -/
def newAckPkt : AckPkt := ⟨⟨.RAW_ACK, 0, 0, 0, 0, 0, 0, 0⟩, fun _ => 0⟩

/-- A good packet. -/
def good (seq : UInt32) : Label := .push seq.toNat true seq.toNat_lt

/-- The thread sleeps, and packets 2 and 3 wake it; then packet 5 comes between
two of its turns. -/
def wokenRun : List Label :=
  [.report 7 0, good 2, good 3, .report 7 0, good 5, .report 7 30, .report 7 0, .report 7 30]

/-- The numbers of the headers that were sent. -/
def sentHeaders (tr : List Event) : List (Nat × Nat × Nat) :=
  (sentAcks tr).map fun p => (p.ack_hdr.ack_seq, p.ack_hdr.end_seq, p.ack_hdr.num_pkts)

theorem two_raw_acks_are_sent :
    ∃ s tr, Run (rawThreads 1 2 9) anyStep s tr ∧
      sentHeaders tr = [(1, 3, 3), (2, 5, 2)] ∧
      (sentAcks tr).Pairwise fun p q =>
        p.ack_hdr.end_seq ≤ q.ack_hdr.end_seq - q.ack_hdr.num_pkts := by
  have h0 : (rawThreads 1 2 9).init ⟨start 1, .idle, newAckPkt⟩ := ⟨rfl, rfl, rfl⟩
  obtain ⟨s, tr, r, hs⟩ := run_of_check (rawThreads 1 2 9) anyStep wokenRun
    (fun x => decide (sentHeaders x.2 = [(1, 3, 3), (2, 5, 2)])) h0 (execOk_any _ _ _) (by decide)
  obtain ⟨-, -, -, hapart⟩ := raw_acks_are_sent_in_order r
  exact ⟨s, tr, r, of_decide_eq_true hs, hapart⟩

end wspace_client.raw_threads

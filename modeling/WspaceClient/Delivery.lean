-- The delivery of packets: the buffer answers the calls of its threads like a
-- reorder queue. Packets leave in the order of their numbers, as they came
-- first, and only a dropped slot is given up.
import WspaceClient.Packets
import WspaceClient.WakeUps

namespace wspace_client.threads

open machine batch_info rx_data_buf reorder

/-! ## The conditions on a step -/

/-- The call that passes the full check in this step. -/
def admitted (s : Radio) : Label → Option EnqueueArgs
  | .prod p _ =>
    match s.prod p with
    | .start c | .waitEmpty c _ => if queueFree s && !isFull s.buf then some c else none
    | _ => none
  | _ => none

def Label.isAck : Label → Bool
  | .ack => true
  | _ => false

/-- `FindNackSeqNum` is not called, and the end of the window is a `uint32`
whenever a call passes the full check. -/
def NoOverflow (_ : List Event) (s : Radio) (l : Label) : Prop :=
  l.isAck = false ∧ ∀ c ∈ admitted s l, s.buf.head_pt + BUF_SIZE < 2 ^ 32

/-- A packet past the window finds no packet in its slot. -/
def FreeSlot (_ : List Event) (s : Radio) (l : Label) : Prop :=
  ∀ c ∈ admitted s l, s.buf.head_pt + BUF_SIZE < c.seq_num →
    (s.buf.book_keep_arr (seq2Ind c.seq_num)).status ≠ .kOccupiedNew

def PayloadFits (_ : List Event) (s : Radio) (l : Label) : Prop :=
  ∀ c ∈ admitted s l, c.pkt_len ≤ PKT_SIZE

/-- Every packet that passes the full check is inside the window. -/
def InWindow (_ : List Event) (s : Radio) (l : Label) : Prop :=
  l.isAck = false ∧ ∀ c ∈ admitted s l, c.seq_num ≤ s.buf.head_pt + BUF_SIZE ∧
    s.buf.head_pt + BUF_SIZE < 2 ^ 32 ∧ c.pkt_len ≤ PKT_SIZE

/-- No packet past the window finds its slot taken. -/
def Clean (tr : List Event) (s : Radio) (l : Label) : Prop :=
  NoOverflow tr s l ∧ FreeSlot tr s l

/-- Moreover every payload fits its slot. -/
def Gentle (tr : List Event) (s : Radio) (l : Label) : Prop :=
  Clean tr s l ∧ PayloadFits tr s l

instance (tr : List Event) (s : Radio) (l : Label) : Decidable (NoOverflow tr s l) :=
  inferInstanceAs (Decidable (_ ∧ _))

instance (tr : List Event) (s : Radio) (l : Label) : Decidable (InWindow tr s l) :=
  inferInstanceAs (Decidable (_ ∧ _))

instance (tr : List Event) (s : Radio) (l : Label) : Decidable (FreeSlot tr s l) :=
  inferInstanceAs (Decidable (∀ c ∈ admitted s l, _ → _))

instance (tr : List Event) (s : Radio) (l : Label) : Decidable (PayloadFits tr s l) :=
  inferInstanceAs (Decidable (∀ c ∈ admitted s l, _ ≤ _))

instance (tr : List Event) (s : Radio) (l : Label) : Decidable (Clean tr s l) :=
  inferInstanceAs (Decidable (_ ∧ _))

instance (tr : List Event) (s : Radio) (l : Label) : Decidable (Gentle tr s l) :=
  inferInstanceAs (Decidable (_ ∧ _))

theorem InWindow.gentle {tr : List Event} {s : Radio} {l : Label} (h : InWindow tr s l) :
    Gentle tr s l := by
  obtain ⟨hl, hc⟩ := h
  refine ⟨⟨⟨hl, fun c hm => (hc c hm).2.1⟩, fun c hm hs => ?_⟩, fun c hm => (hc c hm).2.2⟩
  have := (hc c hm).1
  omega

theorem admitted_iff {s : Radio} {p : Producer} {c : EnqueueArgs} {pick : Pick} :
    admitted s (.prod p pick) = some c ↔ Entering s p c ∧ queueFree s ∧ ¬isFull s.buf := by
  cases hp : s.prod p <;> simp [admitted, Entering, hp, and_comm]

/-! ## What a step does to the packets -/

/-- What the queue of packets shows for an event. -/
def op : Event → Option (Op (List Byte))
  | .enqueued q bs => some (.put q bs)
  | .wrapped q bs => some (.jump q bs)
  | .delivered h _ bs => some (.take (h + 1) bs)
  | .gaveUp h _ _ => some (.skip (h + 1))
  | _ => none

inductive BufMove (s : Radio) (l : Label) : RxDataBuf → List Event → Prop
  | quiet {b out} (hh : b.head_pt = s.buf.head_pt) (hp : packets b = packets s.buf)
      (he : ∀ P, EachPacket s.buf P → EachPacket b P) (ho : out.filterMap op = []) :
      BufMove s l b out
  | store {c} (hc : admitted s l = some c) (hs : s.buf.head_pt < c.seq_num)
      (hw : ¬isWrap s.buf c.seq_num) :
      BufMove s l (store s.buf c) [.enqueued c.seq_num c.bytes]
  | wrap {c} (hc : admitted s l = some c) (hs : s.buf.head_pt < c.seq_num)
      (hw : isWrap s.buf c.seq_num) :
      BufMove s l (wrapAround (store s.buf c) c) [.wrapped c.seq_num c.bytes]
  | deliver (hlt : s.buf.head_pt < s.buf.tail_pt)
      (hk : (s.buf.book_keep_arr (headPtMod s.buf)).status = .kOccupiedNew) :
      BufMove s l (deliver s.buf (headPtMod s.buf))
        [.delivered s.buf.head_pt (s.buf.book_keep_arr (headPtMod s.buf)).seq_num
          (slotBytes s.buf (headPtMod s.buf))]
  | giveUp (hlt : s.buf.head_pt < s.buf.tail_pt)
      (hk : (s.buf.book_keep_arr (headPtMod s.buf)).status ≠ .kOccupiedNew) :
      BufMove s l (giveUp s.buf (headPtMod s.buf))
        [.gaveUp s.buf.head_pt (s.buf.book_keep_arr (headPtMod s.buf)).seq_num
          (s.buf.book_keep_arr (headPtMod s.buf)).status]

theorem BufMove.same {s : Radio} {l : Label} {out : List Event} (ho : out.filterMap op = []) :
    BufMove s l s.buf out := .quiet rfl rfl (fun _ h => h) ho

theorem BufMove.slot {s : Radio} {l : Label} {out : List Event} {i : Slot} {k : BookKeeping}
    (h : (s.buf.book_keep_arr i).status ≠ .kOccupiedNew) (hk : k.status ≠ .kOccupiedNew)
    (ho : out.filterMap op = []) : BufMove s l (setSlot s.buf i k) out :=
  .quiet rfl (packets_setSlot h hk) (fun _ he => he.setSlot hk) ho

theorem prod_buffer {cfg : Config} {s t : Radio} {p : Producer} {pick : Pick}
    {out : List Event} (m : Move cfg s (.prod p pick) t out) :
    BufMove s (.prod p pick) t.buf out := by
  cases m with
  | full hent hq hf he =>
    simp only [setProd_buf, signalElementAvail_buf]
    unfold fullDrop
    split
    · rename_i hb
      exact .slot (by simp [hb]) (by simp) rfl
    · exact .same rfl
  | wrap hent hq hf hs he hw =>
    simp only [setProd_buf, signalEmpty_buf, signalFill_buf, signalElementAvail_buf]
    exact .wrap (admitted_iff.mpr ⟨hent, hq, hf⟩) hs hw
  | @store _ c _ hent hq hf hs he hw =>
    rw [enqueueStore_buf]
    exact .store (admitted_iff.mpr ⟨hent, hq, hf⟩) hs hw
  | stale hent hq hf hs ht => exact .same rfl
  | staleTail hent hq hf hs ht => exact .same rfl
  | clear hp hi he =>
    simp only [setProd_buf]
    unfold clearRead
    split
    · rename_i hr
      exact .slot (by simp [hr]) (by simp) rfl
    · exact .same rfl
  | finish hp hi =>
    simp only [setProd_buf, signalFill_buf]
    exact .quiet rfl rfl (fun _ h => h) rfl

theorem cons_buffer {cfg : Config} {s t : Radio} {pick : Pick} {out : List Event}
    (hcore : Core s) (m : Move cfg s (.cons pick) t out) : BufMove s (.cons pick) t.buf out := by
  cases m with
  | sleepFill hc hq he => exact .same rfl
  | top hc hq he =>
    rw [signalFill_buf]
    exact .same rfl
  | block hc hk => exact .slot (by simp [hk]) (by simp) rfl
  | blocked hc hk => exact .same rfl
  | deliver hc hk =>
    have hi := hcore.atHead _ hc
    subst hi
    exact .deliver (hcore.busy (by simp [hc, ConsumerPc.busy])) hk
  | giveUp hc hk =>
    have hi := hcore.atHead _ hc
    subst hi
    exact .giveUp (hcore.busy (by simp [hc, ConsumerPc.busy]))
      (by rcases hk with h | h <;> simp [h])
  | sleep hc => exact .same rfl
  | wake hc => exact .same rfl
  | relock hc hq => exact .same rfl

theorem move_buffer {cfg : Config} {s t : Radio} {l : Label} {out : List Event}
    (hl : l.isAck = false) (hcore : Core s) (m : Move cfg s l t out) : BufMove s l t.buf out := by
  cases l with
  | ack => cases hl
  | prod p pick => exact prod_buffer m
  | cons pick => exact cons_buffer hcore m
  | call p c => cases m; exact .same rfl
  | setBatchInfo => cases m; exact .same rfl
  | updateTimeLeft => cases m; exact .same rfl
  | setDecodingDone => cases m; exact .same rfl
  | tick us => cases m; exact .same rfl

/-! ## Packets stay at their numbers -/

theorem deliver_head {b : RxDataBuf} (h : b.head_pt + 1 < 2 ^ 32) (i : Slot) :
    (deliver b i).head_pt = b.head_pt + 1 := add32_of_lt h

theorem giveUp_head {b : RxDataBuf} (h : b.head_pt + 1 < 2 ^ 32) (i : Slot) :
    (giveUp b i).head_pt = b.head_pt + 1 := add32_of_lt h

theorem deliver_self (b : RxDataBuf) (i : Slot) :
    ((deliver b i).book_keep_arr i).status ≠ .kOccupiedNew := by
  simp [deliver, incrementHeadPt, setStatus]

theorem deliver_ne (b : RxDataBuf) {i j : Slot} (h : j ≠ i) :
    (deliver b i).book_keep_arr j = b.book_keep_arr j := setSlot_ne _ _ _ h

theorem giveUp_self (b : RxDataBuf) (i : Slot) :
    ((giveUp b i).book_keep_arr i).status ≠ .kOccupiedNew := by
  simp [giveUp, incrementHeadPt, updateBookKeeping]

theorem giveUp_ne (b : RxDataBuf) {i j : Slot} (h : j ≠ i) :
    (giveUp b i).book_keep_arr j = b.book_keep_arr j := setSlot_ne _ _ _ h

theorem fresh_no_packet {s : Radio} (h : s.Fresh) (i : Slot) :
    (s.buf.book_keep_arr i).status ≠ .kOccupiedNew := by
  rw [(h.1.2.2.2 i).2.1]
  nofun

theorem BufMove.below {s : Radio} {l : Label} {b : RxDataBuf} {tr out : List Event}
    (hok : NoOverflow tr s l) (hcore : Core s) (h : Below s.buf) (m : BufMove s l b out) :
    Below b := by
  have hord := hcore.order
  have htl := hcore.tail_lt
  cases m with
  | quiet hh hp he ho =>
    rw [Below, hh]
    exact he _ h
  | store hc hs hw => exact h.store (le_of_not_isWrap hw hcore.head_lt)
  | wrap hc hs hw => exact h.wrapAround (lt_of_isWrap hw (hok.2 _ hc))
  | deliver hlt hk =>
    refine h.advance ?_ (deliver_self _ _) (fun i hi => deliver_ne _ hi)
    rw [deliver_head (by omega)]
    omega
  | giveUp hlt hk =>
    refine h.advance ?_ (giveUp_self _ _) (fun i hi => giveUp_ne _ hi)
    rw [giveUp_head (by omega)]
    omega

theorem run_below {cfg : Config} {s : Radio} {tr : List Event}
    (r : Run (radio cfg) NoOverflow s tr) : Below s.buf :=
  r.invariant (fun s _ => Below s.buf) 
    (fun _ h0 i hi => absurd hi (fresh_no_packet h0 i))
    (fun _ _ _ _ _ r h hok hs =>
      (move_buffer hok.1 (the_tail_stays_in_the_window r) (step_move hs)).below hok
        (the_tail_stays_in_the_window r) h)

theorem BufMove.placed {s : Radio} {l : Label} {b : RxDataBuf} {tr out : List Event}
    (hok : Clean tr s l) (hcore : Core s) (h : Placed s.buf) (m : BufMove s l b out) :
    Placed b := by
  have hord := hcore.order
  have htl := hcore.tail_lt
  cases m with
  | quiet hh hp he ho =>
    rw [Placed, hh]
    exact he _ h
  | store hc hs hw => exact h.store hs (le_of_not_isWrap hw hcore.head_lt)
  | wrap hc hs hw =>
    have hlt := lt_of_isWrap hw (hok.1.2 _ hc)
    exact ((holdsOnly_wrapAround h.below hlt).mpr (hok.2 _ hc hlt)).placed (by omega)
  | deliver hlt hk =>
    exact h.advance hcore.aligned (by omega) (deliver_head (by omega) _) (deliver_self _ _)
      (fun i hi => deliver_ne _ hi)
  | giveUp hlt hk =>
    exact h.advance hcore.aligned (by omega) (giveUp_head (by omega) _) (giveUp_self _ _)
      (fun i hi => giveUp_ne _ hi)

theorem run_placed {cfg : Config} {s : Radio} {tr : List Event}
    (r : Run (radio cfg) Clean s tr) : Placed s.buf :=
  r.invariant (fun s _ => Placed s.buf) 
    (fun _ h0 i hi => absurd hi (fresh_no_packet h0 i))
    (fun _ _ _ _ _ r h hok hs =>
      (move_buffer hok.1.1 (the_tail_stays_in_the_window r) (step_move hs)).placed hok
        (the_tail_stays_in_the_window r) h)

theorem BufMove.fits {s : Radio} {l : Label} {b : RxDataBuf} {tr out : List Event}
    (hok : Gentle tr s l) (hb : Below s.buf) (h : Fits s.buf) (m : BufMove s l b out) :
    Fits b := by
  cases m with
  | quiet hh hp he ho => exact he _ h
  | store hc hs hw => exact h.store (hok.2 _ hc)
  | wrap hc hs hw =>
    have hlt := lt_of_isWrap hw (hok.1.1.2 _ hc)
    exact ((holdsOnly_wrapAround hb hlt).mpr (hok.1.2 _ hc hlt)).fits (hok.2 _ hc)
  | deliver hlt hk => exact h.advance (deliver_self _ _) (fun i hi => deliver_ne _ hi)
  | giveUp hlt hk => exact h.advance (giveUp_self _ _) (fun i hi => giveUp_ne _ hi)

theorem run_fits {cfg : Config} {s : Radio} {tr : List Event}
    (r : Run (radio cfg) Gentle s tr) : Fits s.buf :=
  r.invariant (fun s _ => Fits s.buf) 
    (fun _ h0 i hi => absurd hi (fresh_no_packet h0 i))
    (fun _ _ _ _ _ r h hok hs =>
      (move_buffer hok.1.1.1 (the_tail_stays_in_the_window r) (step_move hs)).fits hok
        (run_below (r.mono fun _ _ _ h => h.1.1)) h)

/-! ## The buffer is a reorder queue -/

theorem head_stored {b : RxDataBuf} (hlt : b.head_pt + 1 < 2 ^ 32)
    (hk : (b.book_keep_arr (headPtMod b)).status = .kOccupiedNew) : Stored b (b.head_pt + 1) := by
  have hN := BUF_SIZE_pos
  rw [headPtMod_eq hlt] at hk
  exact ⟨by omega, by omega, hlt, hk⟩

/-- Each step of the radio is a step of the queue of its packets, or none. -/
theorem BufMove.refines {s : Radio} {l : Label} {b : RxDataBuf} {tr out : List Event}
    (hok : Gentle tr s l) (hcore : Core s) (hb : Below s.buf) (hf : Fits s.buf)
    (m : BufMove s l b out) :
    ∃ ks, exec queue (packets s.buf) ks = some (packets b, out.filterMap op) := by
  have hord := hcore.order
  have htl := hcore.tail_lt
  cases m with
  | quiet hh hp he ho =>
    refine ⟨[], ?_⟩
    rw [exec_nil, hp, ho]
  | @store c hc hs hw =>
    refine ⟨[.put c.seq_num c.bytes], exec_one ?_⟩
    rw [packets_store hf (hok.2 _ hc) hs (le_of_not_isWrap hw hcore.head_lt)]
    exact if_pos hs
  | @wrap c hc hs hw =>
    have hlt := lt_of_isWrap hw (hok.1.1.2 _ hc)
    have honly := (holdsOnly_wrapAround hb hlt).mpr (hok.1.2 _ hc hlt)
    refine ⟨[.jump c.seq_num c.bytes], exec_one ?_⟩
    rw [honly.packets (by omega)]
    exact if_pos hs
  | deliver hlt hk =>
    have hh := deliver_head (b := s.buf) (by omega) (headPtMod s.buf)
    have hst : Stored s.buf (s.buf.head_pt + 1) := head_stored (by omega) hk
    have htake := packets_of_stored hst
    rw [← headPtMod_eq (by omega)] at htake
    refine ⟨[.next], exec_one ?_⟩
    have hpk := packets_advance (b := s.buf) (by omega) hh (deliver_self _ _)
      (fun i hi => deliver_ne _ hi) rfl
    rw [hpk]
    change reorder.step (packets s.buf) .next = _
    simp only [reorder.step]
    rw [show (packets s.buf).head = s.buf.head_pt from rfl, htake]
    rfl
  | giveUp hlt hk =>
    have hh := giveUp_head (b := s.buf) (by omega) (headPtMod s.buf)
    have hnone : (packets s.buf).store (s.buf.head_pt + 1) = none := by
      refine packets_of_not_stored fun hst => hk ?_
      rw [headPtMod_eq (by omega)]
      exact hst.2.2.2
    have hpk := packets_advance (b := s.buf) (by omega) hh (giveUp_self _ _)
      (fun i hi => giveUp_ne _ hi) rfl
    rw [← hnone, Function.update_eq_self] at hpk
    refine ⟨[.next], exec_one ?_⟩
    rw [hpk]
    change reorder.step (packets s.buf) .next = _
    simp only [reorder.step]
    rw [show (packets s.buf).head = s.buf.head_pt from rfl, hnone]
    rfl

end wspace_client.threads

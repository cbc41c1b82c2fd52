-- The slots of the buffer in every run, whatever the acknowledgement thread
-- does: what a step does to them, which of them are free past the tail, and
-- whose mark a slot bears that is blocked or given up.
import WspaceClient.Delivery
import WspaceClient.Snapshots

namespace wspace_client.threads

open machine batch_info rx_data_buf

/-! ## What a step does to the slots -/

/-- A step of another thread than the acknowledgement thread. -/
inductive SlotMove (s : Radio) : RxDataBuf → List Event → Prop
  | same {b} (hh : b.head_pt = s.buf.head_pt) (ha : b.book_keep_arr = s.buf.book_keep_arr) :
      SlotMove s b []
  | fullDrop (hk : (s.buf.book_keep_arr (headPtMod s.buf)).status = .kBlock) :
      SlotMove s (setStatus s.buf (headPtMod s.buf) .kDrop) [.fullDropped s.buf.head_pt]
  | store {c : EnqueueArgs} (hs : s.buf.head_pt < c.seq_num)
      (hw : c.seq_num ≤ s.buf.head_pt + BUF_SIZE) :
      SlotMove s (store s.buf c) [.enqueued c.seq_num c.bytes]
  | wrap {c : EnqueueArgs} (hs : s.buf.head_pt < c.seq_num) :
      SlotMove s (wrapAround (rx_data_buf.store s.buf c) c) [.wrapped c.seq_num c.bytes]
  | clear {i} (hk : (s.buf.book_keep_arr i).status = .kRead) :
      SlotMove s (updateBookKeeping s.buf i 0 .kEmpty 0) []
  | block (hk : (s.buf.book_keep_arr (headPtMod s.buf)).status = .kEmpty) :
      SlotMove s (block s.buf (headPtMod s.buf) s.now) []
  | deliver (hlt : s.buf.head_pt + 1 < 2 ^ 32)
      (hk : (s.buf.book_keep_arr (headPtMod s.buf)).status = .kOccupiedNew) :
      SlotMove s (deliver s.buf (headPtMod s.buf))
        [.delivered s.buf.head_pt (s.buf.book_keep_arr (headPtMod s.buf)).seq_num
          (slotBytes s.buf (headPtMod s.buf))]
  | giveUp (hlt : s.buf.head_pt + 1 < 2 ^ 32)
      (hk : (s.buf.book_keep_arr (headPtMod s.buf)).status = .kRead ∨
        (s.buf.book_keep_arr (headPtMod s.buf)).status = .kDrop) :
      SlotMove s (giveUp s.buf (headPtMod s.buf))
        [.gaveUp s.buf.head_pt (s.buf.book_keep_arr (headPtMod s.buf)).seq_num
          (s.buf.book_keep_arr (headPtMod s.buf)).status]

theorem prod_slots {cfg : Config} {s t : Radio} {p : Producer} {pick : Pick} {out : List Event}
    (h : Core s) (m : Move cfg s (.prod p pick) t out) : SlotMove s t.buf out := by
  cases m with
  | full =>
    rw [setProd_buf, signalElementAvail_buf]
    unfold fullDrop
    split
    · exact .fullDrop ‹_›
    · exact .same rfl rfl
  | wrap hent hq hf hs =>
    rw [setProd_buf, signalEmpty_buf, signalFill_buf, signalElementAvail_buf]
    exact .wrap hs
  | @store _ c _ hent hq hf hs he hw =>
    rw [enqueueStore_buf]
    exact .store hs (le_of_not_isWrap hw h.head_lt)
  | clear =>
    rw [setProd_buf]
    unfold clearRead
    split
    · exact .clear ‹_›
    · exact .same rfl rfl
  | finish =>
    rw [setProd_buf, signalFill_buf]
    exact .same rfl rfl
  | _ => exact .same rfl rfl

theorem cons_slots {cfg : Config} {s t : Radio} {pick : Pick} {out : List Event}
    (h : Core s) (m : Move cfg s (.cons pick) t out) : SlotMove s t.buf out := by
  have htl := h.tail_lt
  -- The consumer holds the lock of the slot of the head, and the buffer is not empty.
  have hhead : ∀ i, s.cons = .lockElement i →
      i = headPtMod s.buf ∧ s.buf.head_pt + 1 < 2 ^ 32 := by
    intro i hc
    have hlt := h.busy (by rw [hc]; rfl)
    exact ⟨h.atHead i hc, by omega⟩
  cases m with
  | top =>
    rw [signalFill_buf]
    exact .same rfl rfl
  | block hc hk =>
    obtain ⟨rfl, -⟩ := hhead _ hc
    exact .block hk
  | deliver hc hk =>
    obtain ⟨rfl, hlt⟩ := hhead _ hc
    exact .deliver hlt hk
  | giveUp hc hk =>
    obtain ⟨rfl, hlt⟩ := hhead _ hc
    exact .giveUp hlt hk
  | _ => exact .same rfl rfl

theorem others_slots {cfg : Config} {s t : Radio} {l : Label} {out : List Event}
    (h : Core s) (m : Move cfg s l t out) (hl : l ≠ .ack) : SlotMove s t.buf out := by
  cases l with
  | ack => exact absurd rfl hl
  | prod p pick => exact prod_slots h m
  | cons pick => exact cons_slots h m
  | _ =>
    cases m
    exact .same rfl rfl

/-- The number that a step of `FindNackSeqNum` gives up. -/
def dropped (cfg : Config) (s : Radio) : Label → Option Nat
  | .ack =>
    match s.ack with
    | .scan index end_pt _ _ end_time _ =>
      if index ≤ end_pt ∧ isOverdue (s.buf.book_keep_arr (indMod index)) cfg.block_time end_time
      then some (add32 index 1) else none
    | .overflow (q :: _) _ => some q
    | _ => none
  | _ => none

/-- `FindNackSeqNum` changes a slot only when it gives up its number. -/
theorem ack_slots {cfg : Config} {s t : Radio} {out : List Event} (h : Core s)
    (m : Move cfg s .ack t out) :
    (t.buf = s.buf ∧ ∀ h q st, .nackDropped h q st ∉ out) ∨
    ∃ q, dropped cfg s .ack = some q ∧ q < 2 ^ 32 ∧ t.buf = nackDrop s.buf (seq2Ind q) q ∧
      out = [.nackDropped s.buf.head_pt q (s.buf.book_keep_arr (seq2Ind q)).status] := by
  have hw := h.words
  cases m with
  | ackWoken => exact .inl ⟨signalFill_buf _ _, by simp⟩
  | @scanDrop i _ _ _ _ _ ha hi he hh ho =>
    rw [ha] at hw
    have hslot := seq2Ind_add32_one (hw i List.mem_cons_self)
    refine .inr ⟨add32 i 1, ?_, add32_lt i 1, ?_, ?_⟩
    · unfold dropped
      simp only [ha]
      exact if_pos ⟨hi, ho⟩
    · rw [signalElementAvail_buf, hslot]
    · rw [hslot]
  | @overflowDrop q _ _ ha =>
    rw [ha] at hw
    refine .inr ⟨q, ?_, hw q List.mem_cons_self, signalElementAvail_buf _, rfl⟩
    unfold dropped
    simp only [ha]
  | pointers | batchFirst | batchRead | extraEnd | overflowEnd => exact .inl ⟨rfl, by simp⟩
  | _ => exact .inl ⟨rfl, nofun⟩

/-! ## Where a packet can appear -/

theorem headPtMod_eq {b : RxDataBuf} (h : b.head_pt + 1 < 2 ^ 32) :
    headPtMod b = seq2Ind (b.head_pt + 1) := (seq2Ind_succ h).symm

/-- The head never moves back. -/
theorem SlotMove.head_le {s : Radio} {b : RxDataBuf} {out : List Event}
    (m : SlotMove s b out) : s.buf.head_pt ≤ b.head_pt := by
  cases m with
  | same hh => exact Nat.le_of_eq hh.symm
  | store => exact Nat.le_of_eq (store_head _ _).symm
  | @wrap c hs =>
    have hsub := sub32_of_le (a := c.seq_num) (b := 1) (by omega) c.seq_lt
    show s.buf.head_pt ≤ sub32 c.seq_num 1
    omega
  | deliver hlt => exact Nat.le_trans (Nat.le_succ _) (Nat.le_of_eq (deliver_head hlt _).symm)
  | giveUp hlt => exact Nat.le_trans (Nat.le_succ _) (Nat.le_of_eq (giveUp_head hlt _).symm)
  | _ => exact Nat.le_refl _

/-- A packet appears in a slot only as `EnqueuePkt` stores it there. -/
theorem SlotMove.occupied {s : Radio} {b : RxDataBuf} {out : List Event} {i : Slot}
    (m : SlotMove s b out) (hi : (b.book_keep_arr i).status = .kOccupiedNew) :
    ((s.buf.book_keep_arr i).status = .kOccupiedNew ∧ ∀ q bs, .wrapped q bs ∉ out) ∨
    ∃ c : EnqueueArgs, i = seq2Ind c.seq_num ∧ s.buf.head_pt < c.seq_num ∧
      (out = [.enqueued c.seq_num c.bytes] ∧ b = rx_data_buf.store s.buf c ∧
          c.seq_num ≤ s.buf.head_pt + BUF_SIZE ∨
        out = [.wrapped c.seq_num c.bytes] ∧ b = wrapAround (rx_data_buf.store s.buf c) c) := by
  -- A slot that gets another status, which is not that of a packet.
  have hset : ∀ {b' : RxDataBuf} {j : Slot} {k : BookKeeping},
      ((setSlot b' j k).book_keep_arr i).status = .kOccupiedNew → k.status ≠ .kOccupiedNew →
      (b'.book_keep_arr i).status = .kOccupiedNew := by
    intro b' j k hb hk
    by_cases hij : i = j
    · subst hij
      rw [setSlot_self] at hb
      exact absurd hb hk
    · rwa [setSlot_ne _ _ _ hij] at hb
  cases m with
  | same hh ha =>
    rw [ha] at hi
    exact .inl ⟨hi, nofun⟩
  | fullDrop => exact .inl ⟨hset hi nofun, by simp⟩
  | @store c hs hw =>
    by_cases hic : i = seq2Ind c.seq_num
    · exact .inr ⟨c, hic, hs, .inl ⟨rfl, rfl, hw⟩⟩
    · rw [store_ne _ _ hic] at hi
      exact .inl ⟨hi, by simp⟩
  | @wrap c hs =>
    by_cases hic : i = seq2Ind c.seq_num
    · exact .inr ⟨c, hic, hs, .inr ⟨rfl, rfl⟩⟩
    · rw [wrapAround_ne _ _ hic] at hi
      cases hi
  | clear => exact .inl ⟨hset hi nofun, nofun⟩
  | block => exact .inl ⟨hset hi nofun, nofun⟩
  | deliver => exact .inl ⟨hset hi nofun, by simp⟩
  | giveUp => exact .inl ⟨hset hi nofun, by simp⟩

/-! ## The slots past the tail -/

/-- The number is past the tail, and past where an `EnqueuePkt` is moving the tail. -/
def PastGoal (s : Radio) (q : Nat) : Prop :=
  s.buf.tail_pt < q ∧ ∀ p r i, s.prod p = .clearing r i → r < q

/-- No slot of the window past the tail holds a packet. -/
def TailFree (s : Radio) : Prop :=
  ∀ q, PastGoal s q → q ≤ s.buf.head_pt + BUF_SIZE → q < 2 ^ 32 →
    (s.buf.book_keep_arr (seq2Ind q)).status ≠ .kOccupiedNew

theorem PastGoal.of_free {s : Radio} {q : Nat} (h : s.buf.tail_pt < q) (hq : queueFree s) :
    PastGoal s q := ⟨h, fun p r i hp => absurd hp (free_prod hq p r i)⟩

theorem PastGoal.of_prod {s t : Radio} {q : Nat} (h : PastGoal t q)
    (ht : t.buf.tail_pt = s.buf.tail_pt)
    (hp : ∀ p r i, s.prod p = .clearing r i → ∃ j, t.prod p = .clearing r j) : PastGoal s q := by
  refine ⟨ht ▸ h.1, fun p r i hs => ?_⟩
  obtain ⟨j, hj⟩ := hp p r i hs
  exact h.2 p r j hj

/-- A producer that is not in the loop over the tail leaves the others in it. -/
theorem setProd_clearing {s : Radio} {p : Producer} {pc : ProducerPc}
    (hs : ∀ r i, s.prod p ≠ .clearing r i) :
    ∀ p' r i, s.prod p' = .clearing r i → ∃ j, (setProd s p pc).prod p' = .clearing r j := by
  intro p' r i hp
  have hne : p' ≠ p := by
    rintro rfl
    exact hs r i hp
  exact ⟨i, by rw [setProd_ne _ _ _ hne, hp]⟩

/-- A number that is past the goal after a step was past it before, unless the step
is a wrap-around. -/
theorem PastGoal.before {cfg : Config} {s t : Radio} {l : Label} {out : List Event} {q : Nat}
    (h : Core s) (m : Move cfg s l t out) (hw : ∀ r bs, .wrapped r bs ∉ out)
    (hq : PastGoal t q) : PastGoal s q ∧ ∀ r bs, .enqueued r bs ∈ out → r < q := by
  cases m with
  | @call p c hp =>
    refine ⟨hq.of_prod rfl (setProd_clearing (p := p) fun r i hc => ?_), nofun⟩
    rw [hp] at hc
    cases hc
  | full hent hfree =>
    refine ⟨.of_free ?_ hfree, ?_⟩
    · have htl := hq.1
      rwa [setProd_buf, signalElementAvail_buf, fullDrop_tail] at htl
    · split <;> simp
  | @wrap _ c => exact absurd List.mem_cons_self (hw c.seq_num c.bytes)
  | @store p c _ hent hfree =>
    by_cases htl : s.buf.tail_pt < c.seq_num
    · have hgoal := hq.2 p c.seq_num s.buf.tail_pt (by rw [enqueueStore_of_lt htl, setProd_self])
      have hpast := hq.1
      rw [enqueueStore_of_lt htl, setProd_buf, signalIf_buf, store_tail] at hpast
      refine ⟨.of_free hpast hfree, fun r bs he => ?_⟩
      obtain ⟨rfl, -⟩ := Event.enqueued.inj (List.mem_singleton.mp he)
      exact hgoal
    · have hpast := hq.1
      rw [enqueueStore_of_le (Nat.le_of_not_lt htl), setProd_buf, signalIf_buf, store_tail] at hpast
      refine ⟨.of_free hpast hfree, fun r bs he => ?_⟩
      obtain ⟨rfl, -⟩ := Event.enqueued.inj (List.mem_singleton.mp he)
      exact Nat.lt_of_le_of_lt (Nat.le_of_not_lt htl) hpast
  | stale hent hfree => exact ⟨.of_free hq.1 hfree, nofun⟩
  | staleTail hent hfree => exact ⟨.of_free hq.1 hfree, nofun⟩
  | @clear p r i _ hp =>
    refine ⟨hq.of_prod (clearRead_tail _ _) fun p' r' j hp' => ?_, nofun⟩
    by_cases hpp : p' = p
    · subst hpp
      rw [hp] at hp'
      cases hp'
      exact ⟨_, setProd_self _ _ _⟩
    · exact ⟨j, by rw [setProd_ne _ _ _ hpp]; exact hp'⟩
  | @finish p r i _ hp =>
    obtain ⟨-, -, hlt, -⟩ := h.clearing p r i hp
    have hpast := hq.1
    rw [setProd_buf, signalFill_buf] at hpast
    refine ⟨⟨Nat.lt_trans hlt hpast, fun p' r' j hp' => ?_⟩, nofun⟩
    by_cases hpp : p' = p
    · subst hpp
      rw [hp] at hp'
      cases hp'
      exact hpast
    · have hno := (h.owner p r i hp).2 p' hpp
      rw [hp'] at hno
      cases hno
  | deliver | giveUp =>
    refine ⟨hq.of_prod rfl fun p r i hp => ⟨i, ?_⟩, by simp⟩
    rcases signalEmpty_prod _ _ p with hsame | ⟨c, b, hc, -⟩
    · exact hsame.trans hp
    · rw [show s.prod p = _ from hc] at hp
      cases hp
  | top | ackWoken =>
    refine ⟨hq.of_prod ?_ fun p r i hp => ⟨i, ?_⟩, by simp⟩
    · rw [signalFill_buf]
    · rw [signalFill_prod]
      exact hp
  | scanDrop | overflowDrop =>
    refine ⟨hq.of_prod ?_ fun p r i hp => ⟨i, ?_⟩, by simp⟩
    · rw [signalElementAvail_buf]
      rfl
    · rw [signalElementAvail_prod]
      exact hp
  | _ => exact ⟨hq.of_prod rfl fun p r i hp => ⟨i, hp⟩, by simp⟩

theorem ack_not_wrapped {cfg : Config} {s t : Radio} {out : List Event}
    (m : Move cfg s .ack t out) : ∀ r bs, .wrapped r bs ∉ out := by
  cases m with
  | _ => simp

/-- When the head moves by one, its slot is the one that enters the window. -/
theorem seq2Ind_window {h : Nat} (hlt : h + BUF_SIZE + 1 < 2 ^ 32) :
    seq2Ind (h + BUF_SIZE + 1) = indMod h := by
  rw [seq2Ind_succ hlt]
  exact Fin.ext (Nat.add_mod_right h BUF_SIZE)

theorem others_tailFree {cfg : Config} {s t : Radio} {l : Label} {out : List Event}
    (hcore : Core s) (h : TailFree s) (m : Move cfg s l t out) (hl : l ≠ .ack) : TailFree t := by
  intro q hq hle hlt hocc
  have ms := others_slots hcore m hl
  rcases ms.occupied hocc with ⟨hs, hnw⟩ | ⟨c, hic, hhd, ⟨rfl, hbuf, hw⟩ | ⟨rfl, hbuf⟩⟩
  · obtain ⟨hgoal, -⟩ := hq.before hcore m hnw
    by_cases hin : q ≤ s.buf.head_pt + BUF_SIZE
    · exact h q hgoal hin hlt hs
    · generalize t.buf = b at ms hle hocc
      cases ms with
      | same hh => omega
      | wrap => exact hnw _ _ List.mem_cons_self
      | deliver hhd =>
        rw [deliver_head hhd] at hle
        obtain rfl : q = s.buf.head_pt + BUF_SIZE + 1 := by omega
        rw [seq2Ind_window hlt] at hocc
        exact deliver_self _ _ hocc
      | giveUp hhd =>
        rw [giveUp_head hhd] at hle
        obtain rfl : q = s.buf.head_pt + BUF_SIZE + 1 := by omega
        rw [seq2Ind_window hlt] at hocc
        exact giveUp_self _ _ hocc
      | store =>
        rw [store_head] at hle
        exact hin hle
      | _ => exact hin hle
  · -- The packet is under another number of the window.
    have hnw : ∀ r bs, .wrapped r bs ∉ [Event.enqueued c.seq_num c.bytes] := by simp
    have hcq := (hq.before hcore m hnw).2 _ _ List.mem_cons_self
    rw [hbuf, store_head] at hle
    exact window_slot_ne hhd hw c.seq_lt (Nat.lt_trans hhd hcq) hle hlt (Nat.ne_of_gt hcq) hic
  · have htl := hq.1
    rw [hbuf] at htl hle
    have hsub := sub32_of_le (a := c.seq_num) (b := 1) (by omega) c.seq_lt
    have hN := BUF_SIZE_pos
    change c.seq_num < q at htl
    change q ≤ sub32 c.seq_num 1 + BUF_SIZE at hle
    have heq := eq_of_seq2Ind_eq (h := c.seq_num - 1) (by omega) (by omega) (by omega) (by omega)
      hlt c.seq_lt hic
    omega

theorem ack_tailFree {cfg : Config} {s t : Radio} {out : List Event}
    (hcore : Core s) (h : TailFree s) (m : Move cfg s .ack t out) : TailFree t := by
  intro q hq hle hlt hocc
  obtain ⟨hgoal, -⟩ := hq.before hcore m (ack_not_wrapped m)
  rcases ack_slots hcore m with ⟨hbuf, -⟩ | ⟨r, -, -, hbuf, -⟩
  · rw [hbuf] at hle hocc
    exact h q hgoal hle hlt hocc
  · rw [hbuf] at hle hocc
    by_cases hqr : seq2Ind q = seq2Ind r
    · rw [hqr] at hocc
      unfold nackDrop at hocc
      rw [setSlot_self] at hocc
      cases hocc
    · unfold nackDrop at hocc
      rw [setSlot_ne _ _ _ hqr] at hocc
      exact h q hgoal hle hlt hocc

/-- In every run the window is free past the tail. -/
theorem run_tailFree {cfg : Config} {ok : List Event → Radio → Label → Prop} {s : Radio}
    {tr : List Event} (r : Run (radio cfg) ok s tr) : TailFree s := by
  refine r.invariant (fun s _ => TailFree s)
    (fun s h0 q _ _ _ => fresh_no_packet h0 _) fun s tr l t out r ih _ hs => ?_
  have hcore := the_tail_stays_in_the_window r
  by_cases hl : l = .ack
  · subst hl
    exact ack_tailFree hcore ih (step_move hs)
  · exact others_tailFree hcore ih (step_move hs) hl

/-! ## The slots that hold packets -/

/-- A packet stays in a slot of the window. -/
theorem SlotMove.stored {s : Radio} {b : RxDataBuf} {out : List Event} {i : Slot}
    (h : (s.buf.book_keep_arr i).status = .kOccupiedNew → ∃ q, Stored s.buf q ∧ seq2Ind q = i)
    (m : SlotMove s b out) (hi : (b.book_keep_arr i).status = .kOccupiedNew) :
    ∃ q, Stored b q ∧ seq2Ind q = i := by
  have hN := BUF_SIZE_pos
  rcases m.occupied hi with ⟨hs, hnw⟩ | ⟨c, rfl, hhd, ⟨-, rfl, hw⟩ | ⟨-, rfl⟩⟩
  · obtain ⟨q, ⟨hq, hqw, hql, -⟩, rfl⟩ := h hs
    have hkeep : b.head_pt = s.buf.head_pt → ∃ r, Stored b r ∧ seq2Ind r = seq2Ind q := by
      intro hh
      exact ⟨q, ⟨by omega, by omega, hql, hi⟩, rfl⟩
    -- The slot of the head has no packet any more, so the number is past the new head.
    have hnext : (b.book_keep_arr (headPtMod s.buf)).status ≠ .kOccupiedNew →
        b.head_pt = s.buf.head_pt + 1 → ∃ r, Stored b r ∧ seq2Ind r = seq2Ind q := by
      intro hfree hh
      have hne : q ≠ s.buf.head_pt + 1 := by
        rintro rfl
        rw [← headPtMod_eq hql] at hi
        exact hfree hi
      exact ⟨q, ⟨by omega, by omega, hql, hi⟩, rfl⟩
    cases m with
    | same hh => exact hkeep hh
    | store => exact hkeep (store_head _ _)
    | wrap => exact absurd List.mem_cons_self (hnw _ _)
    | deliver hlt => exact hnext (deliver_self _ _) (deliver_head hlt _)
    | giveUp hlt => exact hnext (giveUp_self _ _) (giveUp_head hlt _)
    | _ => exact hkeep rfl
  · rw [← store_head s.buf c] at hhd hw
    exact ⟨c.seq_num, ⟨hhd, hw, c.seq_lt, hi⟩, rfl⟩
  · have hsub := sub32_of_le (a := c.seq_num) (b := 1) (by omega) c.seq_lt
    have hhead : (wrapAround (rx_data_buf.store s.buf c) c).head_pt = c.seq_num - 1 := hsub
    exact ⟨c.seq_num, ⟨by omega, by omega, c.seq_lt, hi⟩, rfl⟩

/-- In every run each packet is in the slot of a number of the window. -/
theorem run_stored {cfg : Config} {ok : List Event → Radio → Label → Prop} {s : Radio}
    {tr : List Event} (r : Run (radio cfg) ok s tr) {i : Slot}
    (hi : (s.buf.book_keep_arr i).status = .kOccupiedNew) :
    ∃ q, Stored s.buf q ∧ seq2Ind q = i := by
  refine r.invariant (fun s _ => ∀ i, (s.buf.book_keep_arr i).status = .kOccupiedNew →
      ∃ q, Stored s.buf q ∧ seq2Ind q = i)
    (fun s h0 i hi => absurd hi (fresh_no_packet h0 i)) (fun s tr l t out r ih _ hs => ?_) i hi
  have hcore := the_tail_stays_in_the_window r
  intro j hj
  by_cases hl : l = .ack
  · subst hl
    rcases ack_slots hcore (step_move hs) with ⟨hbuf, -⟩ | ⟨q, -, -, hbuf, -⟩
    · rw [hbuf] at hj ⊢
      exact ih j hj
    · rw [hbuf] at hj ⊢
      have hne : j ≠ seq2Ind q := by
        rintro rfl
        unfold nackDrop at hj
        rw [setSlot_self] at hj
        cases hj
      have hold := hj
      unfold nackDrop at hold
      rw [setSlot_ne _ _ _ hne] at hold
      obtain ⟨r, ⟨hr, hrw, hrl, -⟩, rfl⟩ := ih j hold
      exact ⟨r, ⟨hr, hrw, hrl, hj⟩, rfl⟩
  · exact (others_slots hcore (step_move hs) hl).stored (ih j) hj

/-- While no tail is moved, no packet is in the slot of a number past the tail. -/
theorem stored_le_tail {s : Radio} (h : TailFree s) (hq : queueFree s) {q : Nat}
    (hst : Stored s.buf q) : q ≤ s.buf.tail_pt := by
  obtain ⟨-, hqw, hql, hocc⟩ := hst
  by_contra hlt
  exact h q (.of_free (Nat.lt_of_not_le hlt) hq) hqw hql hocc

/-! ## The marks of slots -/

/-- A slot that is empty has no number. One that is blocked is the slot of the head, and
one that is given up was given up by a full buffer, or for its number of the window. -/
structure MarkOf (head_pt : Nat) (tr : List Event) (i : Slot) (k : BookKeeping) : Prop where
  empty : k.status = .kEmpty → k.seq_num = 0
  blocked : k.status = .kBlock → i = indMod head_pt ∧ k.seq_num = 0
  dropped : k.status = .kDrop →
    (k.seq_num = 0 ∧ i = indMod head_pt ∧ .fullDropped head_pt ∈ tr) ∨
    (head_pt < k.seq_num ∧ k.seq_num ≤ head_pt + BUF_SIZE)

def Marks (b : RxDataBuf) (tr : List Event) : Prop :=
  ∀ i, MarkOf b.head_pt tr i (b.book_keep_arr i)

/-- A slot that holds a packet, or held one, bears no mark. -/
theorem MarkOf.packet {hd : Nat} {tr : List Event} {i : Slot} {k : BookKeeping}
    (h : k.status = .kOccupiedNew ∨ k.status = .kRead) : MarkOf hd tr i k := by
  refine ⟨fun hk => ?_, fun hk => ?_, fun hk => ?_⟩ <;> rw [hk] at h <;> rcases h with h | h <;>
    cases h

theorem MarkOf.cleared {hd : Nat} {tr : List Event} {i : Slot} {k : BookKeeping}
    (hs : k.status = .kEmpty) (hq : k.seq_num = 0) : MarkOf hd tr i k := by
  refine ⟨fun _ => hq, fun hk => ?_, fun hk => ?_⟩ <;> rw [hs] at hk <;> cases hk

theorem MarkOf.mono {hd : Nat} {tr : List Event} {i : Slot} {k : BookKeeping}
    (h : MarkOf hd tr i k) (out : List Event) : MarkOf hd (tr ++ out) i k :=
  ⟨h.empty, h.blocked, fun hk =>
    (h.dropped hk).imp_left fun ⟨hq, hi, hm⟩ => ⟨hq, hi, List.mem_append_left _ hm⟩⟩

/-- The head passes a number that is not of this slot. -/
theorem MarkOf.advance {hd : Nat} {tr : List Event} {i : Slot} {k : BookKeeping}
    (h : MarkOf hd tr i k) (hlt : hd + 1 < 2 ^ 32) (hi : i ≠ indMod hd)
    (ha : k.seq_num = 0 ∨ (k.seq_num < 2 ^ 32 ∧ seq2Ind k.seq_num = i)) :
    MarkOf (hd + 1) tr i k := by
  refine ⟨h.empty, fun hk => absurd (h.blocked hk).1 hi, fun hk => ?_⟩
  rcases h.dropped hk with ⟨-, hh, -⟩ | ⟨hq, hqw⟩
  · exact absurd hh hi
  · refine .inr ⟨?_, by omega⟩
    rcases ha with h0 | ⟨-, hslot⟩
    · omega
    · have hne : k.seq_num ≠ hd + 1 := by
        intro he
        rw [he, seq2Ind_succ hlt] at hslot
        exact hi hslot.symm
      omega

theorem Marks.setSlot {b : RxDataBuf} {tr : List Event} {i : Slot} {k : BookKeeping}
    (h : Marks b tr) (hk : MarkOf b.head_pt tr i k) : Marks (setSlot b i k) tr := by
  intro j
  by_cases hj : j = i
  · subst hj
    rw [setSlot_self]
    exact hk
  · rw [setSlot_ne _ _ _ hj]
    exact h j

theorem Marks.mono {b : RxDataBuf} {tr : List Event} (h : Marks b tr) (out : List Event) :
    Marks b (tr ++ out) := fun i => (h i).mono out

/-- Each step of the other threads keeps the marks. -/
theorem SlotMove.marks {s : Radio} {b : RxDataBuf} {tr out : List Event} (h : Marks s.buf tr)
    (ha : Aligned s.buf) (m : SlotMove s b out) : Marks b (tr ++ out) := by
  have hmono := h.mono out
  cases m with
  | same hh hs =>
    intro i
    rw [hh, hs]
    exact hmono i
  | fullDrop hk =>
    refine hmono.setSlot ⟨nofun, nofun, fun _ => .inl ⟨?_, rfl, ?_⟩⟩
    · exact ((h _).blocked hk).2
    · exact List.mem_append_right _ List.mem_cons_self
  | @store c =>
    intro i
    rw [store_head]
    by_cases hic : i = seq2Ind c.seq_num
    · subst hic
      exact .packet (.inl (store_status _ _))
    · rw [store_ne _ _ hic]
      exact hmono i
  | @wrap c =>
    intro i
    by_cases hic : i = seq2Ind c.seq_num
    · subst hic
      rw [wrapAround_self]
      exact .packet (.inl (store_status _ _))
    · refine .cleared (wrapAround_ne _ _ hic) ?_
      unfold wrapAround
      simp only [ne_eq, hic, not_false_eq_true, if_true]
  | clear => exact hmono.setSlot (.cleared rfl rfl)
  | block hk => exact hmono.setSlot ⟨nofun, fun _ => ⟨rfl, (h _).empty hk⟩, nofun⟩
  | deliver hlt =>
    intro i
    rw [deliver_head hlt]
    by_cases hi : i = headPtMod s.buf
    · subst hi
      exact .packet (.inr (congrArg BookKeeping.status (setSlot_self _ _ _)))
    · rw [deliver_ne _ hi]
      exact (hmono i).advance hlt hi (ha i)
  | giveUp hlt =>
    intro i
    rw [giveUp_head hlt]
    by_cases hi : i = headPtMod s.buf
    · subst hi
      exact .cleared (congrArg BookKeeping.status (setSlot_self _ _ _))
        (congrArg BookKeeping.seq_num (setSlot_self _ _ _))
    · rw [giveUp_ne _ hi]
      exact (hmono i).advance hlt hi (ha i)

/-- The acknowledgement thread keeps the marks when it gives up a number of the window. -/
theorem ack_marks {cfg : Config} {s t : Radio} {tr out : List Event} (hcore : Core s)
    (h : Marks s.buf tr) (hd : ∀ q ∈ dropped cfg s .ack,
      s.buf.head_pt < q ∧ q ≤ s.buf.head_pt + BUF_SIZE) (m : Move cfg s .ack t out) :
    Marks t.buf (tr ++ out) := by
  rcases ack_slots hcore m with ⟨hbuf, -⟩ | ⟨q, hq, -, hbuf, -⟩
  · rw [hbuf]
    exact h.mono out
  · rw [hbuf]
    exact (h.mono out).setSlot ⟨nofun, nofun, fun _ => .inr (hd q hq)⟩

end wspace_client.threads

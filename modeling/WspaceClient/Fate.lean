-- The fate of a packet that came: it waits in its slot, it was delivered, its slot
-- was given up, or a wrap-around took it.
import WspaceClient.Isolation
import WspaceClient.Silence

namespace wspace_client.threads

open machine batch_info rx_data_buf

theorem Move.head_le {cfg : Config} {s t : Radio} {l : Label} {out : List Event} (hcore : Core s)
    (m : Move cfg s l t out) : s.buf.head_pt ≤ t.buf.head_pt := by
  by_cases hl : l = .ack
  · subst hl
    rcases ack_slots hcore m with ⟨hbuf, -⟩ | ⟨q, -, -, hbuf, -⟩
    · rw [hbuf]
    · rw [hbuf]
      exact Nat.le_refl s.buf.head_pt
  · exact (others_slots hcore m hl).head_le

/-! ## Numbers that are out -/

/-- A wrap-around went to the number or past it. -/
def Jumped (q : Nat) (tr : List Event) : Prop := ∃ c bs, .wrapped c bs ∈ tr ∧ q ≤ c

/-- The number was delivered, given up or jumped over. -/
def Out (q : Nat) (tr : List Event) : Prop :=
  (∃ bs, .delivered (q - 1) q bs ∈ tr) ∨ (∃ e ∈ tr, givesUp q e = true) ∨ Jumped q tr

/-- The slot of the number bears the number `k`. -/
def Bears (q k : Nat) (tr : List Event) : Prop := k = q ∨ Jumped q tr

/-- A wrap-around went to the number or past it, or came so near the end of the
numbers that the window wrapped around too. -/
def Lost (q : Nat) (tr : List Event) : Prop :=
  ∃ c bs, .wrapped c bs ∈ tr ∧ (q ≤ c ∨ 2 ^ 32 ≤ c + BUF_SIZE)

theorem Jumped.append {q : Nat} {tr : List Event} (h : Jumped q tr) (out : List Event) :
    Jumped q (tr ++ out) := by
  obtain ⟨c, bs, hm, hle⟩ := h
  exact ⟨c, bs, List.mem_append_left out hm, hle⟩

theorem Jumped.lost {q : Nat} {tr : List Event} (h : Jumped q tr) : Lost q tr := by
  obtain ⟨c, bs, hm, hle⟩ := h
  exact ⟨c, bs, hm, .inl hle⟩

theorem Lost.append {q : Nat} {tr : List Event} (h : Lost q tr) (out : List Event) :
    Lost q (tr ++ out) := by
  obtain ⟨c, bs, hm, hc⟩ := h
  exact ⟨c, bs, List.mem_append_left out hm, hc⟩

theorem jumped_last {q c : Nat} (bs : List Byte) (tr : List Event) (h : q ≤ c) :
    Jumped q (tr ++ [.wrapped c bs]) :=
  ⟨c, bs, List.mem_append_right tr (List.mem_singleton_self _), h⟩

theorem Out.append {q : Nat} {tr : List Event} (h : Out q tr) (out : List Event) :
    Out q (tr ++ out) := by
  rcases h with ⟨bs, hm⟩ | ⟨e, he, hg⟩ | h
  · exact .inl ⟨bs, List.mem_append_left out hm⟩
  · exact .inr (.inl ⟨e, List.mem_append_left out he, hg⟩)
  · exact .inr (.inr (h.append out))

theorem out_of_givesUp {q : Nat} {e : Event} (tr : List Event) (h : givesUp q e = true) :
    Out q (tr ++ [e]) :=
  .inr (.inl ⟨e, List.mem_append_right tr (List.mem_singleton_self _), h⟩)

theorem out_rules : Rules Out Bears where
  append := Out.append
  appendHeld := fun h out => h.imp_right fun h => h.append out
  enqueued := fun _ _ _ => .inl rfl
  wrapped := fun bs tr h => .inr (.inr (jumped_last bs tr h))
  wrappedHeld := fun c _ bs tr => .inr (jumped_last bs tr (Nat.le_refl c))
  fullDropped := fun _ tr => out_of_givesUp tr (decide_eq_true rfl)
  nackDropped := fun _ tr h hq hw => out_of_givesUp tr (decide_eq_true ⟨h, hq, hw⟩)
  delivered := by
    rintro hd k tr bs (rfl | h)
    · exact .inl ⟨bs, List.mem_append_right tr (List.mem_singleton_self _)⟩
    · exact .inr (.inr (h.append _))

/-! ## Packets that wait -/

/-- No wrap-around came. -/
def NoWrap (tr : List Event) : Prop := ∀ c bs, .wrapped c bs ∉ tr

theorem NoWrap.left {tr out : List Event} (h : NoWrap (tr ++ out)) : NoWrap tr :=
  fun c bs hm => h c bs (List.mem_append_left out hm)

theorem NoWrap.right {tr out : List Event} (h : NoWrap (tr ++ out)) : NoWrap out :=
  fun c bs hm => h c bs (List.mem_append_right tr hm)

theorem NoWrap.append {tr out : List Event} (h : NoWrap tr) (h' : NoWrap out) :
    NoWrap (tr ++ out) := fun c bs hm => (List.mem_append.mp hm).elim (h c bs) (h' c bs)

theorem NoWrap.not_lost {q : Nat} {tr : List Event} (h : NoWrap tr) : ¬Lost q tr :=
  fun ⟨c, bs, hm, _⟩ => h c bs hm

/-- The slot of a number of the window holds a packet or the mark of a give-up. -/
structure Waits (b : RxDataBuf) (q : Nat) : Prop where
  head : b.head_pt < q
  window : q ≤ b.head_pt + BUF_SIZE
  word : q < 2 ^ 32
  slot : (b.book_keep_arr (seq2Ind q)).status = .kOccupiedNew ∨
    (b.book_keep_arr (seq2Ind q)).status = .kDrop

/-- The head passed the number, or it waits in the window. -/
def Here (b : RxDataBuf) (q : Nat) : Prop := q ≤ b.head_pt ∨ Waits b q

theorem Waits.setSlot {b : RxDataBuf} {q : Nat} (h : Waits b q) {i : Slot} {k : BookKeeping}
    (hk : seq2Ind q = i → k.status = .kOccupiedNew ∨ k.status = .kDrop) :
    Waits (setSlot b i k) q := by
  refine ⟨h.head, h.window, h.word, ?_⟩
  by_cases hi : seq2Ind q = i
  · rw [hi, setSlot_self]
    exact hk hi
  · rw [setSlot_ne _ _ _ hi]
    exact h.slot

/-- A slot with another status is the slot of another number. -/
theorem Waits.ne {b : RxDataBuf} {q : Nat} (h : Waits b q) {i : Slot}
    (hocc : (b.book_keep_arr i).status ≠ .kOccupiedNew)
    (hdrop : (b.book_keep_arr i).status ≠ .kDrop) : seq2Ind q ≠ i := by
  rintro rfl
  exact h.slot.elim hocc hdrop

theorem Waits.advance {b b' : RxDataBuf} {q : Nat} (h : Waits b q) (hlt : b.head_pt + 1 < 2 ^ 32)
    (hhead : b'.head_pt = b.head_pt + 1)
    (hne : ∀ i, i ≠ headPtMod b → b'.book_keep_arr i = b.book_keep_arr i) : Here b' q := by
  have hN := BUF_SIZE_pos
  obtain ⟨hq, hw, hl, hslot⟩ := h
  by_cases hnext : q = b.head_pt + 1
  · exact .inl (by omega)
  · refine .inr ⟨by omega, by omega, hl, ?_⟩
    rw [hne]
    · exact hslot
    · rw [headPtMod_eq hlt]
      intro he
      exact hnext (eq_of_seq2Ind_eq hq hw (Nat.lt_succ_self _) (by omega) hl hlt he)

theorem SlotMove.waits {s : Radio} {b : RxDataBuf} {out : List Event} {q : Nat}
    (hw : NoWrap out) (h : Waits s.buf q) (m : SlotMove s b out) : Here b q := by
  cases m with
  | same hh ha =>
    refine .inr ⟨?_, ?_, h.word, ?_⟩
    · rw [hh]
      exact h.head
    · rw [hh]
      exact h.window
    · rw [ha]
      exact h.slot
  | fullDrop => exact .inr (h.setSlot fun _ => .inr rfl)
  | @store c =>
    refine .inr ⟨?_, ?_, h.word, ?_⟩
    · rw [store_head]
      exact h.head
    · rw [store_head]
      exact h.window
    · by_cases hi : seq2Ind q = seq2Ind c.seq_num
      · rw [hi]
        exact .inl (store_status _ _)
      · rw [store_ne _ _ hi]
        exact h.slot
  | @wrap c => exact absurd (List.mem_singleton_self _) (hw c.seq_num c.bytes)
  | clear hk =>
    refine .inr (h.setSlot fun hi => absurd hi (h.ne ?_ ?_)) <;> rw [hk] <;> nofun
  | block hk =>
    refine .inr (h.setSlot fun hi => absurd hi (h.ne ?_ ?_)) <;> rw [hk] <;> nofun
  | deliver hlt => exact h.advance hlt (deliver_head hlt _) fun i hi => deliver_ne _ hi
  | giveUp hlt => exact h.advance hlt (giveUp_head hlt _) fun i hi => giveUp_ne _ hi

theorem Here.step {cfg : Config} {s t : Radio} {l : Label} {out : List Event} {q : Nat}
    (hcore : Core s) (hw : NoWrap out) (h : Here s.buf q) (m : Move cfg s l t out) :
    Here t.buf q := by
  rcases h with h | h
  · exact .inl (Nat.le_trans h (m.head_le hcore))
  · by_cases hl : l = .ack
    · subst hl
      rcases ack_slots hcore m with ⟨hbuf, -⟩ | ⟨r, -, -, hbuf, -⟩
      · rw [hbuf]
        exact .inr h
      · rw [hbuf]
        exact .inr (h.setSlot fun _ => .inr rfl)
    · exact (others_slots hcore m hl).waits hw h

theorem here_of_enqueued {cfg : Config} {s t : Radio} {l : Label} {out : List Event} {q : Nat}
    {bs : List Byte} (hcore : Core s) (m : Move cfg s l t out) (he : .enqueued q bs ∈ out) :
    Here t.buf q := by
  cases m with
  | @store p c _ hent hq hf hs hfree hw =>
    obtain ⟨rfl, -⟩ := Event.enqueued.inj (List.mem_singleton.mp he)
    rw [enqueueStore_buf]
    refine .inr ⟨?_, ?_, c.seq_lt, .inl (store_status _ _)⟩
    · rw [store_head]
      exact hs
    · rw [store_head]
      exact le_of_not_isWrap hw hcore.head_lt
  | full => split at he <;> simp at he
  | _ => simp at he

/-- A wrap-around takes what waits, or what the head passed before. -/
theorem lost_of_wrap {cfg : Config} {s t : Radio} {l : Label} {tr out : List Event} {q : Nat}
    (h : Here s.buf q) (m : Move cfg s l t out) (hw : ¬NoWrap out) : Lost q (tr ++ out) := by
  cases m with
  | @wrap _ c _ hent hq hf hs he hwrap =>
    refine ⟨c.seq_num, c.bytes, List.mem_append_right tr (List.mem_singleton_self _), ?_⟩
    by_cases hlt : s.buf.head_pt + BUF_SIZE < 2 ^ 32
    · have hpast := lt_of_isWrap hwrap hlt
      rcases h with h | h
      · exact .inl (by omega)
      · have hwin := h.window
        exact .inl (by omega)
    · exact .inr (by omega)
  | full => exact absurd (by split <;> simp [NoWrap]) hw
  | _ => exact absurd (by simp [NoWrap]) hw

/-- A packet that came waits up to the tail until the head passes it, unless a
wrap-around takes it. -/
theorem run_here {cfg : Config} {ok : List Event → Radio → Label → Prop} {s : Radio}
    {tr : List Event} (r : Run (radio cfg) ok s tr) {q : Nat} {bs : List Byte}
    (he : .enqueued q bs ∈ tr) : Lost q tr ∨ (Here s.buf q ∧ ¬PastGoal s q) := by
  refine r.invariant (fun s tr => ∀ q bs, .enqueued q bs ∈ tr →
    Lost q tr ∨ (Here s.buf q ∧ ¬PastGoal s q)) (fun _ _ _ _ h => by cases h)
    (fun s tr l t out r ih _ hs q bs he => ?_) q bs he
  have hcore := the_tail_stays_in_the_window r
  have m := step_move hs
  rcases List.mem_append.mp he with he | he
  · rcases ih q bs he with hlost | ⟨hhere, hgoal⟩
    · exact .inl (hlost.append out)
    · by_cases hw : NoWrap out
      · exact .inr ⟨hhere.step hcore hw m, fun hp => hgoal (hp.before hcore m hw).1⟩
      · exact .inl (lost_of_wrap hhere m hw)
  · have hw : NoWrap out := by
      intro c bs' hm
      cases m with
      | full => split at hm <;> simp at hm
      | _ => simp at he hm
    refine .inr ⟨here_of_enqueued hcore m he, fun hp => ?_⟩
    exact Nat.lt_irrefl q ((hp.before hcore m hw).2 q bs he)

/-! ## Where a packet can be -/

/-- The packet waits in its slot, under its own number. -/
def InSlot (b : RxDataBuf) (q : Nat) (bs : List Byte) : Prop :=
  b.head_pt < q ∧ q ≤ b.head_pt + BUF_SIZE ∧ cellOf b (seq2Ind q) = some (q, bs)

/-- A packet that came waits in its slot or is out, unless a wrap-around took it. -/
theorem run_fate {cfg : Config} {ok : List Event → Radio → Label → Prop} {s : Radio}
    {tr : List Event} (r : Run (radio cfg) ok s tr) {q : Nat} {bs : List Byte}
    (hq : 0 < q) (he : .enqueued q bs ∈ tr) :
    (∃ bs', InSlot s.buf q bs') ∨ Out q tr ∨ Lost q tr := by
  have hledger := run_ledger out_rules r
  rcases run_here r he with hlost | ⟨hpassed | hwaits, -⟩
  · exact .inr (.inr hlost)
  · exact .inr (.inl (hledger.passed q hq hpassed))
  · rcases hwaits.slot with hocc | hdrop
    · rcases hledger.stored q ⟨hwaits.head, hwaits.window, hwaits.word, hocc⟩ with hseq | hjump
      · refine .inl ⟨slotBytes s.buf (seq2Ind q), hwaits.head, hwaits.window, ?_⟩
        unfold cellOf
        rw [if_pos hocc, hseq]
      · exact .inr (.inr hjump.lost)
    · exact .inr (.inl (hledger.marked q hwaits.head hwaits.window hwaits.word hdrop))

end wspace_client.threads

-- The slots of the buffer as cells of one flat array: what each cell holds by
-- the events of a run, and that no store reaches into another cell.
import WspaceClient.Delivery
import Mathlib.Data.List.Induction

namespace wspace_client.threads

open machine batch_info rx_data_buf reorder

/-! ## The cells by the events -/

/-- The number and the bytes of the packet in a slot. -/
abbrev Cell := Option (Nat × List Byte)

/-- What an event does to the cells. A cell keeps the packet that it has. -/
def cellsAfter (cells : Slot → Cell) : Event → Slot → Cell
  | .enqueued q bs => Function.update cells (seq2Ind q) (some ((cells (seq2Ind q)).getD (q, bs)))
  | .wrapped q bs =>
    fun i => if i = seq2Ind q then some ((cells (seq2Ind q)).getD (q, bs)) else none
  | .delivered h _ _ | .gaveUp h _ _ => Function.update cells (indMod h) none
  | .nackDropped _ q _ => Function.update cells (seq2Ind q) none
  | .fullDropped _ | .pointers _ _ | .acked _ _ => cells

/-- Each cell after the events: the packet that was stored there last. -/
def cells (tr : List Event) : Slot → Cell := tr.foldl cellsAfter fun _ => none

theorem cells_append (xs ys : List Event) :
    cells (xs ++ ys) = ys.foldl cellsAfter (cells xs) := List.foldl_append

theorem update_none {cs : Slot → Cell} {i j : Slot} {x : Nat × List Byte}
    (h : Function.update cs i none j = some x) : cs j = some x := by
  by_cases hji : j = i
  · subst hji
    rw [Function.update_self] at h
    cases h
  · rwa [Function.update_of_ne hji] at h

/-- What is in a cell came with a call of `EnqueuePkt`. -/
theorem mem_of_cells {tr : List Event} {i : Slot} {x : Nat × List Byte}
    (h : cells tr i = some x) : .enqueued x.1 x.2 ∈ tr ∨ .wrapped x.1 x.2 ∈ tr := by
  induction tr using List.reverseRecOn generalizing i with
  | nil => cases h
  | append_singleton tr e ih =>
    rw [cells_append, List.foldl_cons, List.foldl_nil] at h
    have old : ∀ j, cells tr j = some x →
        .enqueued x.1 x.2 ∈ tr ++ [e] ∨ .wrapped x.1 x.2 ∈ tr ++ [e] := fun j hj =>
      (ih hj).imp (List.mem_append_left _) (List.mem_append_left _)
    have new : ∀ q bs, some ((cells tr (seq2Ind q)).getD (q, bs)) = some x →
        (e = .enqueued q bs ∨ e = .wrapped q bs) →
        .enqueued x.1 x.2 ∈ tr ++ [e] ∨ .wrapped x.1 x.2 ∈ tr ++ [e] := by
      intro q bs hx he
      cases hold : cells tr (seq2Ind q) with
      | some y =>
        rw [hold] at hx
        exact old _ (hold.trans hx)
      | none =>
        rw [hold] at hx
        cases hx
        rw [List.mem_append, List.mem_append, List.mem_singleton, List.mem_singleton]
        exact he.imp (fun h => .inr h.symm) (fun h => .inr h.symm)
    cases e with
    | enqueued q bs =>
      change Function.update (cells tr) (seq2Ind q) _ i = _ at h
      by_cases hi : i = seq2Ind q
      · subst hi
        rw [Function.update_self] at h
        exact new q bs h (.inl rfl)
      · rw [Function.update_of_ne hi] at h
        exact old i h
    | wrapped q bs =>
      change (if i = seq2Ind q then _ else _) = _ at h
      split at h
      · exact new q bs h (.inr rfl)
      · cases h
    | delivered => exact old i (update_none h)
    | gaveUp => exact old i (update_none h)
    | nackDropped => exact old i (update_none h)
    | fullDropped => exact old i h
    | pointers => exact old i h
    | acked => exact old i h

/-! ## The cells of the buffer -/

/-- The packet that a slot of the buffer holds. -/
def cellOf (b : RxDataBuf) (i : Slot) : Cell :=
  if (b.book_keep_arr i).status = .kOccupiedNew then
    some ((b.book_keep_arr i).seq_num, slotBytes b i)
  else none

theorem cellOf_none {b : RxDataBuf} {i : Slot} (h : (b.book_keep_arr i).status ≠ .kOccupiedNew) :
    cellOf b i = none := if_neg h

theorem cellOf_congr {b b' : RxDataBuf} {i : Slot} (h : b'.book_keep_arr i = b.book_keep_arr i)
    (hb : b'.pkt_buf = b.pkt_buf) : cellOf b' i = cellOf b i := by
  unfold cellOf slotBytes getPkt
  rw [h, hb]

/-- A slot that holds no packet after a section, with the others as before. -/
theorem cellOf_clear {b b' : RxDataBuf} {i : Slot}
    (hself : (b'.book_keep_arr i).status ≠ .kOccupiedNew)
    (hne : ∀ j, j ≠ i → b'.book_keep_arr j = b.book_keep_arr j) (hb : b'.pkt_buf = b.pkt_buf) :
    cellOf b' = Function.update (cellOf b) i none := by
  funext j
  by_cases hj : j = i
  · subst hj
    rw [Function.update_self, cellOf_none hself]
  · rw [Function.update_of_ne hj, cellOf_congr (hne j hj) hb]

/-- A slot that held no packet, and holds none. -/
theorem cellOf_same {b b' : RxDataBuf} {i : Slot}
    (hold : (b.book_keep_arr i).status ≠ .kOccupiedNew)
    (hself : (b'.book_keep_arr i).status ≠ .kOccupiedNew)
    (hne : ∀ j, j ≠ i → b'.book_keep_arr j = b.book_keep_arr j) (hb : b'.pkt_buf = b.pkt_buf) :
    cellOf b' = cellOf b := by
  rw [cellOf_clear hself hne hb, ← cellOf_none hold, Function.update_eq_self]

theorem cellOf_fullDrop (b : RxDataBuf) : cellOf (fullDrop b) = cellOf b := by
  unfold fullDrop
  split
  · rename_i hb
    refine cellOf_same (i := headPtMod b) (by simp [hb]) ?_ (fun j hj => setSlot_ne _ _ _ hj) rfl
    unfold setStatus
    rw [setSlot_self]
    nofun
  · rfl

theorem cellOf_clearRead (b : RxDataBuf) (i : Slot) : cellOf (clearRead b i) = cellOf b := by
  unfold clearRead
  split
  · rename_i hr
    refine cellOf_same (i := i) (by simp [hr]) ?_ (fun j hj => setSlot_ne _ _ _ hj) rfl
    unfold updateBookKeeping
    rw [setSlot_self]
    nofun
  · rfl

theorem cellOf_block {b : RxDataBuf} {i : Slot} (h : (b.book_keep_arr i).status = .kEmpty)
    (now : Nat) : cellOf (block b i now) = cellOf b := by
  refine cellOf_same (i := i) (by simp [h]) ?_ (fun j hj => setSlot_ne _ _ _ hj) rfl
  unfold block
  rw [setSlot_self]
  nofun

/-- The store fills its own cell if that is free, and no other cell. -/
theorem cellOf_store {b : RxDataBuf} {c : EnqueueArgs} (hf : Fits b)
    (hlen : (b.book_keep_arr (seq2Ind c.seq_num)).status ≠ .kOccupiedNew → c.pkt_len ≤ PKT_SIZE) :
    cellOf (store b c) = Function.update (cellOf b) (seq2Ind c.seq_num)
      (some ((cellOf b (seq2Ind c.seq_num)).getD (c.seq_num, c.bytes))) := by
  by_cases hocc : (b.book_keep_arr (seq2Ind c.seq_num)).status = .kOccupiedNew
  · have hsame : store b c = b := if_neg (not_not_intro hocc)
    have hcell : cellOf b (seq2Ind c.seq_num) =
        some ((cellOf b (seq2Ind c.seq_num)).getD (c.seq_num, c.bytes)) := by
      unfold cellOf
      rw [if_pos hocc]
      rfl
    rw [hsame, ← hcell, Function.update_eq_self]
  · have hlen := hlen hocc
    rw [cellOf_none hocc]
    funext j
    by_cases hj : j = seq2Ind c.seq_num
    · subst hj
      rw [Function.update_self]
      unfold cellOf
      rw [if_pos (store_status b c), slotBytes_store_self hocc, store_self, if_neg hocc]
      rfl
    · rw [Function.update_of_ne hj]
      unfold cellOf
      rw [store_ne _ _ hj]
      split
      · rename_i hoj
        rw [slotBytes_store_ne hf hlen hj hoj]
      · rfl

theorem cellOf_wrapAround (b : RxDataBuf) (c : EnqueueArgs) :
    cellOf (wrapAround b c) = fun i =>
      if i = seq2Ind c.seq_num then cellOf b (seq2Ind c.seq_num) else none := by
  funext i
  by_cases hi : i = seq2Ind c.seq_num
  · subst hi
    rw [if_pos rfl]
    exact cellOf_congr (wrapAround_self b c) rfl
  · rw [if_neg hi]
    apply cellOf_none
    rw [wrapAround_ne b c hi]
    nofun

/-! ## Every step moves the cells by its events -/

/-- A packet that is copied to a slot fits it. -/
def StoreFits (_ : List Event) (s : Radio) (l : Label) : Prop :=
  ∀ c ∈ admitted s l, s.buf.head_pt < c.seq_num →
    (s.buf.book_keep_arr (seq2Ind c.seq_num)).status ≠ .kOccupiedNew → c.pkt_len ≤ PKT_SIZE

instance (tr : List Event) (s : Radio) (l : Label) : Decidable (StoreFits tr s l) :=
  inferInstanceAs (Decidable (∀ c ∈ admitted s l, _ → _ → _ ≤ _))

/-- A step by its cells, by the packets that fit, and by the bytes that it writes. -/
structure CellMove (s : Radio) (l : Label) (b : RxDataBuf) (out : List Event) : Prop where
  cells : cellOf b = out.foldl cellsAfter (cellOf s.buf)
  fits : Fits b
  bytes : ∀ a, b.pkt_buf a ≠ s.buf.pkt_buf a → ∃ c ∈ admitted s l,
    (s.buf.book_keep_arr (seq2Ind c.seq_num)).status ≠ .kOccupiedNew ∧
      seq2Ind c.seq_num * PKT_SIZE ≤ a ∧ a < seq2Ind c.seq_num * PKT_SIZE + PKT_SIZE

theorem CellMove.quiet {s : Radio} {l : Label} {b : RxDataBuf} {out : List Event}
    (hf : Fits s.buf) (hb : b.pkt_buf = s.buf.pkt_buf) (hc : cellOf b = cellOf s.buf)
    (hk : ∀ i, (b.book_keep_arr i).status = .kOccupiedNew →
      b.book_keep_arr i = s.buf.book_keep_arr i)
    (ho : out.foldl cellsAfter (cellOf s.buf) = cellOf s.buf) : CellMove s l b out := by
  refine ⟨hc.trans ho.symm, fun i hi => ?_, fun a ha => absurd (congrFun hb a) ha⟩
  have hsame := hk i hi
  rw [hsame] at hi ⊢
  exact hf i hi

theorem CellMove.same {s : Radio} {l : Label} {out : List Event} (hf : Fits s.buf)
    (ho : out.foldl cellsAfter (cellOf s.buf) = cellOf s.buf) : CellMove s l s.buf out :=
  .quiet hf rfl rfl (fun _ _ => rfl) ho

/-- A slot that loses its packet, or had none. -/
theorem CellMove.clear {s : Radio} {l : Label} {b : RxDataBuf} {out : List Event} {i : Slot}
    (hf : Fits s.buf) (hself : (b.book_keep_arr i).status ≠ .kOccupiedNew)
    (hne : ∀ j, j ≠ i → b.book_keep_arr j = s.buf.book_keep_arr j)
    (hb : b.pkt_buf = s.buf.pkt_buf)
    (ho : out.foldl cellsAfter (cellOf s.buf) = Function.update (cellOf s.buf) i none) :
    CellMove s l b out := by
  refine ⟨(cellOf_clear hself hne hb).trans ho.symm, fun j hj => ?_,
    fun a ha => absurd (congrFun hb a) ha⟩
  have hji : j ≠ i := by
    rintro rfl
    exact hself hj
  rw [hne j hji] at hj ⊢
  exact hf j hj

/-- The bytes that a store writes are those of its own slot. -/
theorem store_bytes {b : RxDataBuf} {c : EnqueueArgs} {a : Nat}
    (hlen : (b.book_keep_arr (seq2Ind c.seq_num)).status ≠ .kOccupiedNew → c.pkt_len ≤ PKT_SIZE)
    (ha : (store b c).pkt_buf a ≠ b.pkt_buf a) :
    (b.book_keep_arr (seq2Ind c.seq_num)).status ≠ .kOccupiedNew ∧
      seq2Ind c.seq_num * PKT_SIZE ≤ a ∧ a < seq2Ind c.seq_num * PKT_SIZE + PKT_SIZE := by
  unfold store at ha
  split at ha
  · rename_i hfree
    have hlen := hlen hfree
    rw [updateBookKeeping_pkt_buf] at ha
    unfold storePkt at ha
    simp only at ha
    split at ha
    · exact ⟨hfree, by omega, by omega⟩
    · exact absurd rfl ha
  · exact absurd rfl ha

theorem Fits.storeFree {b : RxDataBuf} (h : Fits b) {c : EnqueueArgs}
    (hlen : (b.book_keep_arr (seq2Ind c.seq_num)).status ≠ .kOccupiedNew → c.pkt_len ≤ PKT_SIZE) :
    Fits (store b c) := by
  by_cases hocc : (b.book_keep_arr (seq2Ind c.seq_num)).status = .kOccupiedNew
  · have hsame : store b c = b := if_neg (not_not_intro hocc)
    rwa [hsame]
  · exact h.store (hlen hocc)

theorem prod_cells {cfg : Config} {s t : Radio} {tr : List Event} {p : Producer} {pick : Pick}
    {out : List Event} (hok : StoreFits tr s (.prod p pick)) (hf : Fits s.buf)
    (m : Move cfg s (.prod p pick) t out) : CellMove s (.prod p pick) t.buf out := by
  cases m with
  | full hent hq hfull he =>
    simp only [setProd_buf, signalElementAvail_buf]
    refine .quiet hf (fullDrop_pkt_buf _) (cellOf_fullDrop _) (fun i hi => ?_) ?_
    · unfold fullDrop at hi ⊢
      split
      · rename_i hb
        rw [if_pos hb] at hi
        by_cases hih : i = headPtMod s.buf
        · subst hih
          simp [setStatus] at hi
        · exact setSlot_ne _ _ _ hih
      · rfl
    · split <;> rfl
  | @wrap _ c _ hent hq hfull hs he hw =>
    have hadm : admitted s (.prod p pick) = some c := admitted_iff.mpr ⟨hent, hq, hfull⟩
    have hlen := hok c hadm hs
    simp only [setProd_buf, signalEmpty_buf, signalFill_buf, signalElementAvail_buf]
    refine ⟨?_, fun i hi => ?_, fun a ha => ⟨c, hadm, store_bytes hlen ha⟩⟩
    · rw [cellOf_wrapAround, cellOf_store hf hlen, Function.update_self]
      rfl
    · by_cases hic : i = seq2Ind c.seq_num
      · subst hic
        rw [wrapAround_self] at hi ⊢
        exact Fits.storeFree hf hlen _ hi
      · rw [wrapAround_ne _ _ hic] at hi
        cases hi
  | @store _ c _ hent hq hfull hs he hw =>
    have hadm : admitted s (.prod p pick) = some c := admitted_iff.mpr ⟨hent, hq, hfull⟩
    have hlen := hok c hadm hs
    rw [enqueueStore_buf]
    exact ⟨cellOf_store hf hlen, Fits.storeFree hf hlen,
      fun a ha => ⟨c, hadm, store_bytes hlen ha⟩⟩
  | stale hent hq hfull hs ht => exact .same hf rfl
  | staleTail hent hq hfull hs ht => exact .same hf rfl
  | @clear _ q i _ hp hi he =>
    simp only [setProd_buf]
    refine .quiet hf (clearRead_pkt_buf _ _) (cellOf_clearRead _ _) (fun j hj => ?_) rfl
    unfold clearRead at hj ⊢
    split
    · rename_i hr
      rw [if_pos hr] at hj
      by_cases hji : j = indMod i
      · subst hji
        simp [updateBookKeeping] at hj
      · exact setSlot_ne _ _ _ hji
    · rfl
  | finish hp hi =>
    simp only [setProd_buf, signalFill_buf]
    exact .quiet hf rfl rfl (fun _ _ => rfl) rfl

theorem cons_cells {cfg : Config} {s t : Radio} {pick : Pick} {out : List Event}
    (hcore : Core s) (hf : Fits s.buf) (m : Move cfg s (.cons pick) t out) :
    CellMove s (.cons pick) t.buf out := by
  cases m with
  | sleepFill hc hq he => exact .same hf rfl
  | top hc hq he =>
    rw [signalFill_buf]
    exact .same hf rfl
  | @block i _ hc hk =>
    refine .quiet hf rfl (cellOf_block hk _) (fun j hj => ?_) rfl
    by_cases hji : j = i
    · subst hji
      simp [block] at hj
    · exact setSlot_ne _ _ _ hji
  | blocked hc hk => exact .same hf rfl
  | deliver hc hk =>
    have hi := hcore.atHead _ hc
    subst hi
    exact .clear hf (deliver_self _ _) (fun j hj => deliver_ne _ hj) rfl rfl
  | giveUp hc hk =>
    have hi := hcore.atHead _ hc
    subst hi
    exact .clear hf (giveUp_self _ _) (fun j hj => giveUp_ne _ hj) rfl rfl
  | sleep hc => exact .same hf rfl
  | wake hc => exact .same hf rfl
  | relock hc hq => exact .same hf rfl

/-- The acknowledgement thread changes the buffer only where it drops a slot. -/
theorem ack_buf {cfg : Config} {s t : Radio} {out : List Event} (hcore : Core s)
    (m : Move cfg s .ack t out) :
    (t.buf = s.buf ∧ ∀ cs, out.foldl cellsAfter cs = cs) ∨
      ∃ q st, t.buf = nackDrop s.buf (seq2Ind q) q ∧ out = [.nackDropped s.buf.head_pt q st] := by
  have hw := hcore.words
  cases m with
  | ackWoken ha hq => exact .inl ⟨by rw [signalFill_buf], fun _ => rfl⟩
  | @scanDrop i _ _ _ _ ns ha hi he hh ho =>
    simp only [ha, AckPc.words, List.forall_mem_cons] at hw
    refine .inr ⟨add32 i 1, _, ?_, rfl⟩
    rw [signalElementAvail_buf, seq2Ind_add32_one hw.1]
  | @overflowDrop q rest _ ha he =>
    exact .inr ⟨q, _, by rw [signalElementAvail_buf], rfl⟩
  | getBatchID ha => exact .inl ⟨rfl, fun _ => rfl⟩
  | ackSleep ha hq hb he => exact .inl ⟨rfl, fun _ => rfl⟩
  | pointers ha hq hb => exact .inl ⟨rfl, fun _ => rfl⟩
  | batchFirst ha => exact .inl ⟨rfl, fun _ => rfl⟩
  | batchRead ha => exact .inl ⟨rfl, fun _ => rfl⟩
  | batchOld ha => exact .inl ⟨rfl, fun _ => rfl⟩
  | batchPast ha => exact .inl ⟨rfl, fun _ => rfl⟩
  | batchDone ha => exact .inl ⟨rfl, fun _ => rfl⟩
  | ackBatchID ha => exact .inl ⟨rfl, fun _ => rfl⟩
  | assertHolds ha hlt => exact .inl ⟨rfl, fun _ => rfl⟩
  | assertFails ha hlt => exact .inl ⟨rfl, fun _ => rfl⟩
  | scanList ha hi he hh ho => exact .inl ⟨rfl, fun _ => rfl⟩
  | scanSkip ha hi he hh => exact .inl ⟨rfl, fun _ => rfl⟩
  | scanEnd ha hi => exact .inl ⟨rfl, fun _ => rfl⟩
  | extra ha hi => exact .inl ⟨rfl, fun _ => rfl⟩
  | tooMany ha hi hn => exact .inl ⟨rfl, fun _ => rfl⟩
  | extraEnd ha hi hn => exact .inl ⟨rfl, fun _ => rfl⟩
  | overflowEnd ha => exact .inl ⟨rfl, fun _ => rfl⟩

theorem ack_cells {cfg : Config} {s t : Radio} {out : List Event} (hcore : Core s)
    (hf : Fits s.buf) (m : Move cfg s .ack t out) : CellMove s .ack t.buf out := by
  rcases ack_buf hcore m with ⟨hb, ho⟩ | ⟨q, st, hb, rfl⟩
  · rw [hb]
    exact .same hf (ho _)
  · rw [hb]
    refine .clear (i := seq2Ind q) hf ?_ (fun j hj => setSlot_ne _ _ _ hj) rfl rfl
    unfold nackDrop
    rw [setSlot_self]
    nofun

theorem move_cells {cfg : Config} {s t : Radio} {tr : List Event} {l : Label} {out : List Event}
    (hok : StoreFits tr s l) (hcore : Core s) (hf : Fits s.buf) (m : Move cfg s l t out) :
    CellMove s l t.buf out := by
  cases l with
  | call p c => cases m; exact .same hf rfl
  | prod p pick => exact prod_cells hok hf m
  | cons pick => exact cons_cells hcore hf m
  | ack => exact ack_cells hcore hf m
  | setBatchInfo => cases m; exact .same hf rfl
  | updateTimeLeft => cases m; exact .same hf rfl
  | setDecodingDone => cases m; exact .same hf rfl
  | tick us => cases m; exact .same hf rfl

/-- The cells of the buffer are the cells of its events. -/
theorem run_cells {cfg : Config} {s : Radio} {tr : List Event}
    (r : Run (radio cfg) StoreFits s tr) : cellOf s.buf = cells tr ∧ Fits s.buf := by
  apply r.invariant (fun s tr => cellOf s.buf = cells tr ∧ Fits s.buf)
  · intro s h0
    refine ⟨funext fun i => cellOf_none (fresh_no_packet h0 i), fun i hi => ?_⟩
    exact absurd hi (fresh_no_packet h0 i)
  · intro s tr l t out r h hok hs
    have hm := move_cells hok (the_tail_stays_in_the_window r) h.2 (step_move hs)
    refine ⟨?_, hm.fits⟩
    rw [hm.cells, h.1, cells_append]

/-- A packet that is delivered is the one of the slot of the head. -/
theorem delivered_cell {cfg : Config} {s t : Radio} {l : Label} {xs ys : List Event} {h q : Nat}
    {bs : List Byte} (hcore : Core s)
    (m : Move cfg s l t (xs ++ .delivered h q bs :: ys)) :
    xs = [] ∧ cellOf s.buf (indMod h) = some (q, bs) := by
  generalize hout : xs ++ .delivered h q bs :: ys = out at m
  cases m
  case deliver i pick hc hk =>
    have hi := hcore.atHead _ hc
    subst hi
    cases xs with
    | nil =>
      cases hout
      exact ⟨rfl, if_pos hk⟩
    | cons x xs => cases xs <;> cases hout
  case full =>
    split at hout
    · cases xs with
      | nil => cases hout
      | cons x xs => cases xs <;> cases hout
    · cases xs <;> cases hout
  all_goals
    cases xs with
    | nil => cases hout
    | cons x xs => cases xs <;> cases hout

/-- With packets that fit their slots, a step writes only into the free slot of
the packet that it stores, and a delivery gives back what was stored. -/
theorem stored_packets_are_isolated {cfg : Config} {s : Radio} {tr : List Event}
    (r : Run (radio cfg) StoreFits s tr) :
    (∀ l t out, StoreFits tr s l → step cfg s l = some (t, out) →
      ∀ a, t.buf.pkt_buf a ≠ s.buf.pkt_buf a → ∃ c ∈ admitted s l,
        (s.buf.book_keep_arr (seq2Ind c.seq_num)).status ≠ .kOccupiedNew ∧
          seq2Ind c.seq_num * PKT_SIZE ≤ a ∧ a < seq2Ind c.seq_num * PKT_SIZE + PKT_SIZE) ∧
    ∀ pre h q bs post, tr = pre ++ .delivered h q bs :: post →
      cells pre (indMod h) = some (q, bs) ∧ (.enqueued q bs ∈ pre ∨ .wrapped q bs ∈ pre) := by
  refine ⟨fun l t out hok hs => ?_, fun pre h q bs post htr => ?_⟩
  · exact (move_cells hok (the_tail_stays_in_the_window r) (run_cells r).2 (step_move hs)).bytes
  · obtain ⟨s', tr', l, t, xs, ys, r', -, hs, rfl⟩ := r.split htr
    obtain ⟨rfl, hcell⟩ := delivered_cell (the_tail_stays_in_the_window r') (step_move hs)
    rw [(run_cells r').1] at hcell
    rw [List.append_nil]
    exact ⟨hcell, mem_of_cells hcell⟩

/-- Packet 2 comes first and packet 1 after it. -/
def pairRun (c : EnqueueArgs) : List Label :=
  [.call .rcvAth (onePkt 2 7), .prod .rcvAth .ath, .prod .rcvAth .ath,
    .prod .rcvAth .ath, .prod .rcvAth .ath, .call .rcvCell c, .prod .rcvCell .ath, .cons .ath,
    .cons .ath, .cons .ath, .cons .ath]

theorem a_pair_is_isolated : ∃ s pre, Run (radio ⟨25, 500⟩) StoreFits s
      (pre ++ [.delivered 1 2 [7]]) ∧ cells pre (indMod 1) = some (2, [7]) ∧
      (.enqueued 2 [7] ∈ pre ∨ .wrapped 2 [7] ∈ pre) := by
  obtain ⟨s, tr, r, hs⟩ := run_of_check (radio ⟨25, 500⟩) StoreFits
    (pairRun (onePkt 1 9))
    (fun x => decide (x.2 = [.enqueued 2 [7], .enqueued 1 [9], .delivered 0 1 [9],
      .delivered 1 2 [7]])) atStart_fresh (by decide +kernel) (by decide +kernel)
  have htr : tr = [.enqueued 2 [7], .enqueued 1 [9], .delivered 0 1 [9]] ++
    [.delivered 1 2 [7]] := of_decide_eq_true hs
  subst htr
  exact ⟨s, _, r, (stored_packets_are_isolated r).2 _ 1 2 [7] [] rfl⟩

/-! ## A packet that does not fit -/

/-- A packet that is longer than its slot can change a byte outside of it. -/
theorem store_isolated_iff (b : RxDataBuf) (i : Slot) (len : Nat) :
    (∀ pkt a, (storePkt b i len pkt).pkt_buf a ≠ b.pkt_buf a →
      i * PKT_SIZE ≤ a ∧ a < i * PKT_SIZE + PKT_SIZE) ↔ len ≤ PKT_SIZE := by
  constructor
  · intro h
    by_contra hlt
    let a := i * PKT_SIZE + PKT_SIZE
    have hne : (storePkt b i len fun _ => b.pkt_buf a + 1).pkt_buf a ≠ b.pkt_buf a := by
      unfold storePkt
      simp only
      rw [if_pos (by omega)]
      intro he
      simp at he
    have hin := h (fun _ => b.pkt_buf a + 1) a hne
    omega
  · intro hlen pkt a ha
    unfold storePkt at ha
    simp only at ha
    split at ha
    · omega
    · exact absurd rfl ha


/-- Packet 1 of the pair, one byte longer than its slot. -/
def longPkt : EnqueueArgs := { onePkt 1 9 with pkt_len := 1473, len_lt := by decide }

/-- The last byte of packet 1 stands in the slot of packet 2. -/
theorem a_long_packet_is_delivered_in_the_next_one :
    ¬∀ (cfg : Config) (s : Radio) (tr : List Event), Run (radio cfg) anyStep s tr →
      ∀ pre h q bs post, tr = pre ++ .delivered h q bs :: post →
        cells pre (indMod h) = some (q, bs) := by
  intro hall
  obtain ⟨s, tr, r, hs⟩ := run_of_check (radio ⟨25, 500⟩) anyStep (pairRun longPkt)
    (fun x => decide (x.2.getLast? = some (.delivered 1 2 [9]) ∧
      cells x.2.dropLast (indMod 1) = some (2, [7]))) atStart_fresh (execOk_any _ _ _)
    (by decide +kernel)
  obtain ⟨hlast, hcell⟩ := of_decide_eq_true hs
  obtain ⟨pre, rfl⟩ := List.getLast?_eq_some_iff.mp hlast
  rw [List.dropLast_concat] at hcell
  have hdel := hall _ s _ r pre 1 2 [9] [] rfl
  rw [hcell] at hdel
  cases hdel

end wspace_client.threads

-- The numbers that `FindNackSeqNum` gives up. It decides on them from pointers
-- and slots that it read before, so a packet can come, and the head can pass,
-- until it marks the slot. Without that, no packet is lost and no mark is read
-- for another number.
import WspaceClient.NackList
import WspaceClient.SlotMoves

namespace wspace_client.threads

open machine batch_info rx_data_buf

/-! ## What happens to a number since the pointers were read -/

/-- The event puts a packet under the number, or takes the head past it. -/
def touches (q : Nat) : Event → Bool
  | .enqueued seq_num _ => decide (seq_num = q)
  | .wrapped seq_num _ => decide (q ≤ seq_num)
  | .delivered head_pt _ _ | .gaveUp head_pt _ _ => decide (head_pt + 1 = q)
  | _ => false

def touchedBy (q : Nat) (t : Bool) : Event → Bool
  | .pointers _ _ => false
  | e => t || touches q e

/-- The number was touched since `FindNackSeqNum` read the pointers last. -/
def touched (q : Nat) (tr : List Event) : Bool := tr.foldl (touchedBy q) false

theorem touched_append (q : Nat) (tr out : List Event) :
    touched q (tr ++ out) = out.foldl (touchedBy q) (touched q tr) := List.foldl_append

theorem SlotMove.touched {s : Radio} {b : RxDataBuf} {tr out : List Event} {q : Nat}
    (m : SlotMove s b out) (h : touched q (tr ++ out) = false) :
    touched q tr = false ∧ ∀ e ∈ out, touches q e = false := by
  rw [touched_append] at h
  cases m with
  | same | clear | block => exact ⟨h, nofun⟩
  | _ =>
    rw [List.foldl_cons, List.foldl_nil] at h
    obtain ⟨h, hout⟩ := Bool.or_eq_false_iff.mp h
    refine ⟨h, fun e he => ?_⟩
    rw [List.mem_singleton.mp he]
    exact hout

/-! ## The condition on a step -/

def overflows (s : Radio) : Bool :=
  match s.ack with
  | .overflow _ _ => true
  | _ => false

/-- A number that is given up was not touched since the pointers were read. When the list
is too long, the number is moreover in the window that was read. -/
def DropsInTime (cfg : Config) (tr : List Event) (s : Radio) (l : Label) : Prop :=
  ∀ q ∈ dropped cfg s l, touched q tr = false ∧ (overflows s = true →
    (snapshot tr).tail_pt + 1 < 2 ^ 32 ∧ q ≤ (snapshot tr).head_pt + BUF_SIZE)

instance (cfg : Config) (tr : List Event) (s : Radio) (l : Label) :
    Decidable (DropsInTime cfg tr s l) :=
  inferInstanceAs (Decidable (∀ q ∈ dropped cfg s l, _ ∧ (_ → _)))

/-! ## The invariant -/

/-- The numbers that a call holds, unless its loop past the tail never ends. -/
def AckPc.nacks : AckPc → List Nat
  | .scan _ _ _ _ _ nacks => nacks
  | .extra _ end_seq nacks => if end_seq + 1 < 2 ^ 32 then nacks else []
  | .overflow rest _ => rest
  | .idle | .gotBatchID _ | .waitFill _ | .gotPointers _ _ | .gotBatchInfo _ _ _
  | .atAssert _ _ _ _ | .aborted => []

theorem mem_nacks_extra {i e q : Nat} {ns : List Nat} :
    q ∈ (AckPc.extra i e ns).nacks ↔ e + 1 < 2 ^ 32 ∧ q ∈ ns := by
  show q ∈ (if e + 1 < 2 ^ 32 then ns else []) ↔ _
  by_cases hend : e + 1 < 2 ^ 32
  · rw [if_pos hend]
    exact (and_iff_right hend).symm
  · rw [if_neg hend]
    exact iff_of_false List.not_mem_nil fun h => hend h.1

/-- A number that the call listed, or can list. -/
def Candidate (p : Snapshot) (pc : AckPc) (q : Nat) : Prop :=
  p.tail_pt < q ∨ (p.tail_pt + 1 < 2 ^ 32 ∧ q ∈ pc.nacks)

/-- What a call can count on: an untouched number is past the head, and there is no packet
under it when it is listed. -/
structure Kept (s : Radio) (tr : List Event) : Prop where
  head : (snapshot tr).head_pt ≤ s.buf.head_pt
  ahead : ∀ q, (snapshot tr).head_pt < q → touched q tr = false → s.buf.head_pt < q
  free : ∀ q, Candidate (snapshot tr) s.ack q → (snapshot tr).head_pt < q →
    q ≤ (snapshot tr).head_pt + BUF_SIZE → q < 2 ^ 32 → touched q tr = false →
      (s.buf.book_keep_arr (seq2Ind q)).status ≠ .kOccupiedNew

/-- The head does not pass an untouched number. -/
theorem SlotMove.ahead {s : Radio} {b : RxDataBuf} {out : List Event} {q : Nat}
    (m : SlotMove s b out) (hq : s.buf.head_pt < q) (hout : ∀ e ∈ out, touches q e = false) :
    b.head_pt < q := by
  cases m with
  | same hh =>
    rw [hh]
    exact hq
  | store =>
    rw [store_head]
    exact hq
  | @wrap c hs =>
    have ht := of_decide_eq_false (hout _ List.mem_cons_self)
    have hsub := sub32_of_le (a := c.seq_num) (b := 1) (by omega) c.seq_lt
    show sub32 c.seq_num 1 < q
    omega
  | deliver hlt =>
    have ht := of_decide_eq_false (hout _ List.mem_cons_self)
    rw [deliver_head hlt]
    omega
  | giveUp hlt =>
    have ht := of_decide_eq_false (hout _ List.mem_cons_self)
    rw [giveUp_head hlt]
    omega
  | _ => exact hq

/-- No packet comes into the slot of an untouched number of the window. -/
theorem SlotMove.free {s : Radio} {b : RxDataBuf} {out : List Event} {q : Nat}
    (m : SlotMove s b out) (hq : s.buf.head_pt < q) (hw : q ≤ s.buf.head_pt + BUF_SIZE)
    (hlt : q < 2 ^ 32) (hout : ∀ e ∈ out, touches q e = false)
    (hs : (s.buf.book_keep_arr (seq2Ind q)).status ≠ .kOccupiedNew) :
    (b.book_keep_arr (seq2Ind q)).status ≠ .kOccupiedNew := by
  intro hocc
  rcases m.occupied hocc with ⟨hs', -⟩ | ⟨c, hic, hhd, ⟨rfl, -, hcw⟩ | ⟨rfl, -⟩⟩
  · exact hs hs'
  · have ht := of_decide_eq_false (hout _ List.mem_cons_self)
    exact ht (eq_of_seq2Ind_eq hhd hcw hq hw c.seq_lt hlt hic.symm)
  · have ht := of_decide_eq_false (hout _ List.mem_cons_self)
    have heq := eq_of_seq2Ind_eq hhd (by omega) hq hw c.seq_lt hlt hic.symm
    omega

theorem others_kept {cfg : Config} {s t : Radio} {l : Label} {tr out : List Event}
    (hcore : Core s) (h : Kept s tr) (m : Move cfg s l t out) (hl : l ≠ .ack) :
    Kept t (tr ++ out) := by
  have ms := others_slots hcore m hl
  have hsnap : snapshot (tr ++ out) = snapshot tr := by
    rw [snapshot_append, m.snapshot_eq hl]
  refine ⟨?_, fun q hq ht => ?_, fun q hc hq hw hlt ht => ?_⟩
  · rw [hsnap]
    exact Nat.le_trans h.head ms.head_le
  · rw [hsnap] at hq
    obtain ⟨hold, hout⟩ := ms.touched ht
    exact ms.ahead (h.ahead q hq hold) hout
  · rw [hsnap] at hc hq hw
    obtain ⟨hold, hout⟩ := ms.touched ht
    have hcand : Candidate (snapshot tr) s.ack q := by
      rcases m.ack_eq hl with he | ⟨-, he⟩
      · rwa [he] at hc
      · rw [he] at hc
        exact hc.imp_right fun hn => absurd hn.2 List.not_mem_nil
    have hhd := h.head
    exact ms.free (h.ahead q hq hold) (by omega) hlt hout (h.free q hcand hq hw hlt hold)

/-- A step of the call touches nothing, unless it reads the pointers. -/
theorem ack_touched {cfg : Config} {s t : Radio} {tr out : List Event} {q : Nat}
    (m : Move cfg s .ack t out) (hp : ∀ hd tl, .pointers hd tl ∉ out) :
    touched q (tr ++ out) = touched q tr := by
  rw [touched_append]
  cases m with
  | pointers | ackWoken => exact absurd List.mem_cons_self (hp _ _)
  | scanDrop | overflowDrop | batchFirst | batchRead | extraEnd | overflowEnd =>
    exact Bool.or_false _
  | _ => rfl

theorem ack_snapshot {cfg : Config} {s t : Radio} {tr out : List Event}
    (m : Move cfg s .ack t out) (hp : ∀ hd tl, .pointers hd tl ∉ out) :
    snapshot (tr ++ out) = snapshot tr := by
  rw [snapshot_append]
  cases m with
  | pointers | ackWoken => exact absurd List.mem_cons_self (hp _ _)
  | _ => rfl

/-- A number that a step puts on the list is past the tail, or its slot is a hole. -/
theorem Candidate.before {cfg : Config} {s t : Radio} {out : List Event} {p : Snapshot} {q : Nat}
    (hcore : Core s) (hloc : AckLocal p s.ack) (m : Move cfg s .ack t out)
    (hc : Candidate p t.ack q) : Candidate p s.ack q ∨
      (s.buf.book_keep_arr (seq2Ind q)).status ≠ .kOccupiedNew := by
  have hwords := hcore.words
  rcases hc with htl | ⟨hwrap, hq⟩
  · exact .inl (.inl htl)
  -- Most steps hold a list that was there before, or none.
  have hkeep : q ∈ s.ack.nacks → Candidate p s.ack q ∨
      (s.buf.book_keep_arr (seq2Ind q)).status ≠ .kOccupiedNew :=
    fun h => .inl (.inr ⟨hwrap, h⟩)
  cases m with
  | ackWoken =>
    rw [signalFill_gotPointers] at hq
    cases hq
  | scanDrop ha =>
    rw [signalElementAvail_ack] at hq
    apply hkeep
    rw [ha]
    exact hq
  | overflowDrop ha =>
    rw [signalElementAvail_ack] at hq
    apply hkeep
    rw [ha]
    exact List.mem_cons_of_mem _ hq
  | @scanList i _ _ _ _ ns ha hi he hh =>
    rcases List.mem_append.mp hq with hq | hq
    · apply hkeep
      rw [ha]
      exact hq
    · rw [ha] at hwords
      rw [List.mem_singleton.mp hq, seq2Ind_add32_one (hwords i List.mem_cons_self)]
      refine .inr fun hocc => ?_
      unfold isHole at hh
      rw [hocc] at hh
      cases hh
  | scanSkip ha =>
    apply hkeep
    rw [ha]
    exact hq
  | scanEnd ha =>
    apply hkeep
    rw [ha]
    exact (mem_nacks_extra.mp hq).2
  | @extra i e ns ha hi =>
    obtain ⟨hend, hq⟩ := mem_nacks_extra.mp hq
    rcases List.mem_append.mp hq with hq | hq
    · apply hkeep
      rw [ha]
      exact mem_nacks_extra.mpr ⟨hend, hq⟩
    · rw [ha] at hloc
      obtain ⟨-, -, -, hcase⟩ := hloc
      rw [List.mem_singleton.mp hq]
      rcases hcase with ⟨-, -, htl, -⟩ | hlast | ⟨hlast, -⟩
      · exact .inl (.inl htl)
      · omega
      · omega
  | @tooMany i e ns ha hi =>
    have hi32 := hwords i (by rw [ha]; exact List.mem_cons_self)
    apply hkeep
    rw [ha]
    exact mem_nacks_extra.mpr ⟨by omega, hq⟩
  | _ => cases hq

/-- A step that reads no pointers. -/
theorem ack_kept {cfg : Config} {s t : Radio} {tr out : List Event} (hcore : Core s)
    (hloc : AckLocal (snapshot tr) s.ack) (h : Kept s tr) (m : Move cfg s .ack t out)
    (hp : ∀ hd tl, .pointers hd tl ∉ out) : Kept t (tr ++ out) := by
  have hsnap := @ack_snapshot _ _ _ tr _ m hp
  -- Its own marks are no packets.
  have hbuf : t.buf.head_pt = s.buf.head_pt ∧ ∀ i,
      (t.buf.book_keep_arr i).status = .kOccupiedNew →
      (s.buf.book_keep_arr i).status = .kOccupiedNew := by
    rcases ack_slots hcore m with ⟨hb, -⟩ | ⟨r, -, -, hb, -⟩
    · rw [hb]
      exact ⟨rfl, fun _ hi => hi⟩
    · rw [hb]
      refine ⟨rfl, fun i hi => ?_⟩
      unfold nackDrop at hi
      by_cases hir : i = seq2Ind r
      · rw [hir, setSlot_self] at hi
        cases hi
      · rwa [setSlot_ne _ _ _ hir] at hi
  refine ⟨?_, fun q hq ht => ?_, fun q hc hq hw hlt ht hocc => ?_⟩
  · rw [hsnap, hbuf.1]
    exact h.head
  · rw [hsnap] at hq
    rw [ack_touched m hp] at ht
    rw [hbuf.1]
    exact h.ahead q hq ht
  · rw [hsnap] at hc hq hw
    rw [ack_touched m hp] at ht
    have hs := hbuf.2 _ hocc
    rcases hc.before hcore hloc m with hcand | hfree
    · exact h.free q hcand hq hw hlt ht hs
    · exact hfree hs

/-- The call reads the pointers. -/
theorem kept_at_pointers {s t : Radio} (hfree : TailFree s) (hq : queueFree s) (tr : List Event)
    (hbuf : t.buf = s.buf) (ha : t.ack = .gotPointers s.buf.head_pt s.buf.tail_pt) :
    Kept t (tr ++ [.pointers s.buf.head_pt s.buf.tail_pt]) := by
  have hsnap : snapshot (tr ++ [.pointers s.buf.head_pt s.buf.tail_pt]) =
      ⟨s.buf.head_pt, s.buf.tail_pt⟩ := snapshot_append tr _
  refine ⟨?_, fun q hlt _ => ?_, fun q hc _ hw hlt _ => ?_⟩
  · rw [hsnap, hbuf]
  · rw [hsnap] at hlt
    rw [hbuf]
    exact hlt
  · rw [hsnap] at hc hw
    rw [hbuf]
    rcases hc with htl | ⟨-, hn⟩
    · exact hfree q (.of_free htl hq) hw hlt
    · rw [ha] at hn
      cases hn

theorem move_kept {cfg : Config} {s t : Radio} {l : Label} {tr out : List Event} (hcore : Core s)
    (hfree : TailFree s) (hloc : AckLocal (snapshot tr) s.ack) (h : Kept s tr)
    (m : Move cfg s l t out) : Kept t (tr ++ out) := by
  by_cases hl : l = .ack
  · subst hl
    by_cases hp : ∃ hd tl, .pointers hd tl ∈ out
    · cases m with
      | pointers ha hq => exact kept_at_pointers hfree hq tr rfl rfl
      | ackWoken ha hq =>
        exact kept_at_pointers hfree hq tr (signalFill_buf _ _) (signalFill_gotPointers ..)
      | _ => simp at hp
    · exact ack_kept hcore hloc h m fun hd tl hm => hp ⟨hd, tl, hm⟩
  · exact others_kept hcore h m hl

theorem run_kept {cfg : Config} {s : Radio} {tr : List Event}
    (r : Run (radio cfg) SeqFits s tr) : Kept s tr := by
  apply r.invariant Kept
  · intro s h0
    obtain ⟨hhd, -⟩ := h0.1
    refine ⟨Nat.zero_le _, fun q hq _ => ?_, fun q _ _ _ _ _ => fresh_no_packet h0 _⟩
    rw [hhd]
    exact hq
  · intro s tr l t out r ih hok hs
    exact move_kept (the_tail_stays_in_the_window r) (run_tailFree r) (run_ackLocal r).2 ih
      (step_move hs)

/-! ## A number that is given up -/

/-- A number that is given up in time is one of the window, and there is no packet under it. -/
theorem drop_in_time {cfg : Config} {s : Radio} {tr : List Event} {q : Nat} (hcore : Core s)
    (hloc : AckLocal (snapshot tr) s.ack) (h : Kept s tr) (hok : DropsInTime cfg tr s .ack)
    (hq : dropped cfg s .ack = some q) :
    s.buf.head_pt < q ∧ q ≤ s.buf.head_pt + BUF_SIZE ∧
      (s.buf.book_keep_arr (seq2Ind q)).status ≠ .kOccupiedNew := by
  have hwords := hcore.words
  have hhead := h.head
  obtain ⟨ht, hover⟩ := hok q hq
  unfold dropped at hq
  cases ha : s.ack with
  | scan i ep tl e et ns =>
    rw [ha] at hloc hwords
    simp only [ha] at hq
    split at hq
    · rename_i hi
      cases hq
      obtain ⟨hw, rfl, hlt, hep, hhd, hle, -⟩ := hloc
      have htl := hw.tail_lt
      have hwin := hw.window
      have hi32 := hwords i List.mem_cons_self
      have hadd : add32 i 1 = i + 1 := add32_of_lt (by omega)
      refine ⟨h.ahead _ (by omega) ht, by omega, ?_⟩
      rw [seq2Ind_add32_one hi32]
      intro hocc
      have hblock := hi.2
      unfold isOverdue at hblock
      rw [hocc] at hblock
      cases hblock
    · cases hq
  | overflow rest e =>
    rw [ha] at hloc hwords
    simp only [ha] at hq
    cases rest with
    | nil => cases hq
    | cons r rest =>
      cases hq
      obtain ⟨hwrap, hwin⟩ := hover (by unfold overflows; rw [ha])
      obtain ⟨-, -, hlist⟩ := hloc
      have hr := (hlist hwrap).range q List.mem_cons_self
      refine ⟨h.ahead q hr.1 ht, by omega, ?_⟩
      refine h.free q (.inr ⟨hwrap, ?_⟩) hr.1 hwin (hwords q List.mem_cons_self) ht
      rw [ha]
      exact List.mem_cons_self
  | _ =>
    simp only [ha] at hq
    cases hq

/-- What a run shows of the numbers that were given up: each drop was of a number of
the window with no packet under it, and a dropped slot was given up for its own number. -/
structure HarmlessDrops (tr : List Event) : Prop where
  drops : ∀ h q st, .nackDropped h q st ∈ tr → h < q ∧ q ≤ h + BUF_SIZE ∧ st ≠ .kOccupiedNew
  marks : ∀ h q, .gaveUp h q .kDrop ∈ tr → q = h + 1 ∨ (q = 0 ∧ .fullDropped h ∈ tr)

/-- The consumer gives up the slot of the head for the number past it. -/
theorem Marks.gaveUp {s : Radio} {b : RxDataBuf} {tr out : List Event} (h : Marks s.buf tr)
    (ha : Aligned s.buf) (m : SlotMove s b out) {hd q : Nat} (hg : .gaveUp hd q .kDrop ∈ out) :
    q = hd + 1 ∨ (q = 0 ∧ .fullDropped hd ∈ tr) := by
  cases m with
  | giveUp hlt hk =>
    obtain ⟨rfl, hq, hst⟩ := Event.gaveUp.inj (List.mem_singleton.mp hg)
    rcases (h (headPtMod s.buf)).dropped hst.symm with ⟨h0, -, hfull⟩ | ⟨hlt', hw⟩
    · exact .inr ⟨hq.trans h0, hfull⟩
    · rcases ha (headPtMod s.buf) with h0 | ⟨hql, hslot⟩
      · omega
      · rw [headPtMod_eq hlt] at hslot hq hlt' hw hql
        refine .inl (hq.trans ?_)
        exact eq_of_seq2Ind_eq hlt' hw (Nat.lt_succ_self _) (by have := BUF_SIZE_pos; omega)
          hql hlt hslot
  | _ => simp at hg

theorem fresh_marks {s : Radio} (h : s.Fresh) : Marks s.buf [] := fun i =>
  .cleared (h.1.2.2.2 i).2.1 (h.1.2.2.2 i).1

theorem SlotMove.not_nackDropped {s : Radio} {b : RxDataBuf} {out : List Event}
    (m : SlotMove s b out) : ∀ h q st, .nackDropped h q st ∉ out := by
  cases m with
  | _ => simp

theorem ack_not_gaveUp {cfg : Config} {s t : Radio} {out : List Event}
    (m : Move cfg s .ack t out) : ∀ h q st, .gaveUp h q st ∉ out := by
  cases m with
  | _ => simp

theorem move_harmless {cfg : Config} {s t : Radio} {l : Label} {tr out : List Event}
    (hcore : Core s) (hloc : AckLocal (snapshot tr) s.ack) (hkept : Kept s tr)
    (hok : DropsInTime cfg tr s l) (hmarks : Marks s.buf tr) (h : HarmlessDrops tr)
    (m : Move cfg s l t out) : Marks t.buf (tr ++ out) ∧ HarmlessDrops (tr ++ out) := by
  have hold : ∀ {hd q}, q = hd + 1 ∨ (q = 0 ∧ .fullDropped hd ∈ tr) →
      q = hd + 1 ∨ (q = 0 ∧ .fullDropped hd ∈ tr ++ out) :=
    fun hm => hm.imp_right fun ⟨h0, hf⟩ => ⟨h0, List.mem_append_left _ hf⟩
  by_cases hl : l = .ack
  · subst hl
    have hdrop := fun q hq => drop_in_time (q := q) hcore hloc hkept hok hq
    refine ⟨ack_marks hcore hmarks (fun q hq => ⟨(hdrop q hq).1, (hdrop q hq).2.1⟩) m,
      fun hd q st he => ?_, fun hd q he => ?_⟩
    · rcases List.mem_append.mp he with he | he
      · exact h.drops hd q st he
      · rcases ack_slots hcore m with ⟨-, hno⟩ | ⟨r, hr, -, -, rfl⟩
        · exact absurd he (hno hd q st)
        · obtain ⟨rfl, rfl, rfl⟩ := Event.nackDropped.inj (List.mem_singleton.mp he)
          exact hdrop _ hr
    · rcases List.mem_append.mp he with he | he
      · exact hold (h.marks hd q he)
      · exact absurd he (ack_not_gaveUp m _ _ _)
  · have ms := others_slots hcore m hl
    refine ⟨ms.marks hmarks hcore.aligned, fun hd q st he => ?_, fun hd q he => ?_⟩
    · rcases List.mem_append.mp he with he | he
      · exact h.drops hd q st he
      · exact absurd he (ms.not_nackDropped _ _ _)
    · rcases List.mem_append.mp he with he | he
      · exact hold (h.marks hd q he)
      · exact hold (hmarks.gaveUp hcore.aligned ms he)

/-- When every number is given up in time, giving up destroys no packet and leaks to no
other number. -/
theorem giving_up_is_harmless {cfg : Config} {s : Radio} {tr : List Event}
    (r : Run (radio cfg) (fun tr s l => SeqFits tr s l ∧ DropsInTime cfg tr s l) s tr) :
    HarmlessDrops tr := by
  have hrun : Marks s.buf tr ∧ HarmlessDrops tr := by
    apply r.invariant (fun s tr => Marks s.buf tr ∧ HarmlessDrops tr)
    · intro s h0
      exact ⟨fresh_marks h0, nofun, nofun⟩
    · intro s tr l t out r ih hok hs
      have hseq := r.mono fun _ _ _ h => h.1
      exact move_harmless (the_tail_stays_in_the_window r) (run_ackLocal hseq).2 (run_kept hseq)
        hok.2 ih.1 ih.2 (step_move hs)
  exact hrun.2

/-! ## A list that is too long -/

/-- Packet 1 comes, and a batch after the packet `seq`. The call is about to list the
numbers in between. -/
def listing (seq : Nat) : List Label :=
  [.setBatchInfo 1 seq false 0 1 1000, .call .rcvAth (onePkt 1 7)] ++
    List.replicate 3 (.prod .rcvAth .ath) ++ List.replicate 6 .ack

/-- Packet 2 comes after it was listed, and then it is given up. -/
def lateDrop : List Label :=
  .ack :: .call .rcvAth (onePkt 2 8) :: List.replicate 3 (.prod .rcvAth .ath) ++ [.ack]

theorem a_long_list_is_given_up_in_time : ∃ s tr,
    Run (radio ⟨25, 3⟩) (fun tr s l => SeqFits tr s l ∧ DropsInTime ⟨25, 3⟩ tr s l) s tr ∧
      .nackDropped 0 2 .kEmpty ∈ tr ∧ HarmlessDrops tr := by
  obtain ⟨s, tr, r, hlast⟩ := run_of_check (radio ⟨25, 3⟩)
    (fun tr s l => SeqFits tr s l ∧ DropsInTime ⟨25, 3⟩ tr s l)
    (listing 4 ++ List.replicate 5 .ack)
    (fun x => decide (.nackDropped 0 2 .kEmpty ∈ x.2)) atStart_fresh (by decide +kernel)
    (by decide +kernel)
  exact ⟨s, tr, r, of_decide_eq_true hlast, giving_up_is_harmless r⟩

/-- The call with the numbers from 2 to 501, which are too many for one packet. -/
def listed (s : Radio) : Radio := { s with ack := .extra (501 + 1) 501 (List.range' 2 500) }

/-- From here a packet 2 that comes late is destroyed. -/
def losesPacketTwo (x : Radio × List Event) : Bool :=
  decide (x.1.ack = .extra 2 501 []) &&
    (exec (radio ⟨25, 500⟩) (listed x.1) lateDrop).any fun y =>
      decide (Event.nackDropped 0 2 .kOccupiedNew ∈ y.2)

theorem a_listed_packet_is_destroyed : ¬∀ (cfg : Config) (s : Radio) (tr : List Event),
    Run (radio cfg) SeqFits s tr → HarmlessDrops tr := by
  intro hall
  obtain ⟨u, tr, r, hu⟩ := run_of_check (radio ⟨25, 500⟩) SeqFits (listing 501) losesPacketTwo
    atStart_fresh (by decide +kernel) (by decide +kernel)
  obtain ⟨hack, hlate⟩ := Bool.and_eq_true_iff.mp hu
  obtain ⟨⟨s, out⟩, hexec, hdrop⟩ := (Option.any_eq_true _ _).mp hlate
  obtain ⟨n, hn⟩ := extra_run ⟨25, 500⟩ (n := 500) (of_decide_eq_true hack) rfl (by decide)
  have hfits : ∀ l ∈ List.replicate n Label.ack ++ lateDrop, ∀ tr s, SeqFits tr s l := by
    intro l hl tr s
    rcases List.mem_append.mp hl with hl | hl
    · rw [List.eq_of_mem_replicate hl]
      trivial
    · unfold lateDrop at hl
      simp only [List.cons_append, List.replicate_succ, List.replicate_zero, List.nil_append,
        List.mem_cons, List.not_mem_nil, or_false] at hl
      rcases hl with rfl | rfl | rfl | rfl | rfl | rfl <;> trivial
  have r' := r.exec (execOk_of_labels hfits tr u) (exec_append hn hexec)
  have hmem := List.mem_append_right tr (List.mem_append_right [] (of_decide_eq_true hdrop))
  exact ((hall _ s _ r').drops 0 2 _ hmem).2.2 rfl

end wspace_client.threads

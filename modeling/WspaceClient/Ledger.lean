-- Accounts of the numbers in the buffer. A rule says what an event tells about a
-- number; the ledger then holds for each number that the head passed, that is
-- marked as given up, or that has a packet in its slot, in every run.
import WspaceClient.SlotMoves

namespace wspace_client.threads

open machine batch_info rx_data_buf

/-! ## The slots that were read -/

/-- The tail is past the number, or an `EnqueuePkt` that moves the tail is. -/
def UpToTail (s : Radio) (q : Nat) : Prop :=
  q ≤ s.buf.tail_pt ∨ ∃ p r i, s.prod p = .clearing r i ∧ q ≤ i

/-- No slot up to the tail is one that was read. -/
def ReadFree (s : Radio) : Prop :=
  ∀ q, s.buf.head_pt < q → UpToTail s q → (s.buf.book_keep_arr (seq2Ind q)).status ≠ .kRead

theorem UpToTail.window {s : Radio} {q : Nat} (hcore : Core s) (h : UpToTail s q) :
    q ≤ s.buf.head_pt + BUF_SIZE ∧ q < 2 ^ 32 := by
  have hw := hcore.window
  have htl := hcore.tail_lt
  rcases h with h | ⟨p, r, i, hp, hq⟩
  · omega
  · obtain ⟨-, hir, -, hrw, hr32⟩ := hcore.clearing p r i hp
    omega

theorem UpToTail.keep {s t : Radio} {q : Nat} (ht : t.buf.tail_pt = s.buf.tail_pt)
    (hp : ∀ p r i, t.prod p = .clearing r i → s.prod p = .clearing r i) (h : UpToTail t q) :
    UpToTail s q := by
  rcases h with h | ⟨p, r, i, hc, hq⟩
  · exact .inl (ht ▸ h)
  · exact .inr ⟨p, r, i, hp p r i hc, hq⟩

/-- A producer that is not in the loop over the tail adds nothing to it. -/
theorem clearing_of_setProd {s : Radio} {p : Producer} {pc : ProducerPc}
    (hpc : pc.holdsQueue = false) (p' : Producer) (r i : Nat)
    (h : (setProd s p pc).prod p' = .clearing r i) : s.prod p' = .clearing r i := by
  by_cases hp : p' = p
  · subst hp
    rw [setProd_self] at h
    rw [h] at hpc
    cases hpc
  · rwa [setProd_ne _ _ _ hp] at h

theorem clearing_of_signalEmpty {s : Radio} {pick : Pick} :
    ∀ p r i, (signalEmpty s pick).prod p = .clearing r i → s.prod p = .clearing r i := by
  intro p r i h
  rcases signalEmpty_prod s pick p with hsame | ⟨c, b, -, hnew⟩
  · rwa [hsame] at h
  · rw [hnew] at h
    cases h

/-- A step that reaches no new number and reads no slot. -/
theorem ReadFree.keep {s t : Radio} (h : ReadFree s) (hh : t.buf.head_pt = s.buf.head_pt)
    (hr : ∀ q, UpToTail t q → UpToTail s q)
    (hk : ∀ i, (t.buf.book_keep_arr i).status = .kRead →
      (s.buf.book_keep_arr i).status = .kRead) : ReadFree t := by
  intro q hq hreach hread
  rw [hh] at hq
  exact h q hq (hr q hreach) (hk _ hread)

/-- A slot that gets another status than `kRead`. -/
theorem setSlot_read {b : RxDataBuf} {i j : Slot} {k : BookKeeping}
    (h : ((setSlot b i k).book_keep_arr j).status = .kRead) (hk : k.status ≠ .kRead) :
    (b.book_keep_arr j).status = .kRead := by
  by_cases hj : j = i
  · subst hj
    rw [setSlot_self] at h
    exact absurd h hk
  · rwa [setSlot_ne _ _ _ hj] at h

theorem store_read {b : RxDataBuf} {c : EnqueueArgs} {i : Slot}
    (h : ((store b c).book_keep_arr i).status = .kRead) :
    (b.book_keep_arr i).status = .kRead := by
  by_cases hi : i = seq2Ind c.seq_num
  · subst hi
    rw [store_status] at h
    cases h
  · rwa [store_ne _ _ hi] at h

theorem clearRead_read {b : RxDataBuf} {i j : Slot}
    (h : ((clearRead b i).book_keep_arr j).status = .kRead) :
    (b.book_keep_arr j).status = .kRead ∧ j ≠ i := by
  unfold clearRead at h
  split at h
  · refine ⟨setSlot_read h nofun, ?_⟩
    rintro rfl
    unfold updateBookKeeping at h
    rw [setSlot_self] at h
    cases h
  · rename_i hi
    refine ⟨h, ?_⟩
    rintro rfl
    exact hi h

/-- A producer moves, and reaches the numbers of its loop. -/
theorem UpToTail.cases_setProd {s u : Radio} {p : Producer} {pc : ProducerPc} {q : Nat}
    (h : UpToTail (setProd u p pc) q) (ht : u.buf.tail_pt = s.buf.tail_pt)
    (hp : u.prod = s.prod) : UpToTail s q ∨ ∃ r i, pc = .clearing r i ∧ q ≤ i := by
  rcases h with h | ⟨p', r, i, hp', hqi⟩
  · rw [setProd_buf, ht] at h
    exact .inl (.inl h)
  · by_cases hpp : p' = p
    · subst hpp
      rw [setProd_self] at hp'
      exact .inr ⟨r, i, hp', hqi⟩
    · rw [setProd_ne _ _ _ hpp, hp] at hp'
      exact .inl (.inr ⟨p', r, i, hp', hqi⟩)

theorem prod_readFree {cfg : Config} {s t : Radio} {p : Producer} {pick : Pick}
    {out : List Event} (hcore : Core s) (h : ReadFree s) (m : Move cfg s (.prod p pick) t out) :
    ReadFree t := by
  cases m with
  | full hent hq hf he =>
    refine h.keep (by simp) (fun q hreach => ?_) fun i hi => ?_
    · rcases hreach.cases_setProd (s := s) (by simp) (by simp) with hold | ⟨r, i, hpc, -⟩
      · exact hold
      · cases hpc
    · simp only [setProd_buf, signalElementAvail_buf] at hi
      unfold fullDrop at hi
      split at hi
      · exact setSlot_read hi nofun
      · exact hi
  | @wrap _ c _ hent hq hf hs he hw =>
    intro q _ _ hread
    simp only [setProd_buf, signalEmpty_buf, signalFill_buf, signalElementAvail_buf] at hread
    by_cases hqc : seq2Ind q = seq2Ind c.seq_num
    · rw [hqc, wrapAround_self, store_status] at hread
      cases hread
    · rw [wrapAround_ne _ _ hqc] at hread
      cases hread
  | @store _ c _ hent hq hf hs he hw =>
    refine h.keep ?_ (fun q hreach => ?_) fun i hi => ?_
    · rw [enqueueStore_buf, store_head]
    · rw [enqueueStore_eq] at hreach
      rcases hreach.cases_setProd (s := s) (by rw [signalIf_buf, store_tail])
        (by rw [signalIf_prod]) with hold | ⟨r, i, hpc, hqi⟩
      · exact hold
      · split at hpc <;> cases hpc
        exact .inl hqi
    · rw [enqueueStore_buf] at hi
      exact store_read hi
  | stale =>
    refine h.keep rfl (fun q hreach => ?_) fun _ hi => hi
    rcases hreach.cases_setProd (s := s) rfl rfl with hold | ⟨r, i, hpc, -⟩
    · exact hold
    · cases hpc
  | staleTail =>
    refine h.keep rfl (fun q hreach => ?_) fun _ hi => hi
    rcases hreach.cases_setProd (s := s) rfl rfl with hold | ⟨r, i, hpc, hqi⟩
    · exact hold
    · cases hpc
      exact .inl hqi
  | @clear _ q i _ hp hi he =>
    intro q' hq' hreach hread
    rw [setProd_buf] at hread hq'
    rw [clearRead_head] at hq'
    obtain ⟨hread, hne⟩ := clearRead_read hread
    obtain ⟨-, -, -, -, hq32⟩ := hcore.clearing p q i hp
    have hadd : add32 i 1 = i + 1 := add32_of_lt (by omega)
    refine h q' hq' ?_ hread
    rcases hreach.cases_setProd (s := s) (clearRead_tail _ _) rfl with hold | ⟨r, j, hpc, hqj⟩
    · exact hold
    · cases hpc
      -- The number of the slot that was just cleared is the only new one.
      have hnew : q' ≠ i + 1 := by
        rintro rfl
        exact hne (seq2Ind_succ (by omega))
      exact .inr ⟨p, q, i, hp, by omega⟩
  | @finish _ q i _ hp hi =>
    refine h.keep ?_ (fun q' hreach => ?_) fun j hj => ?_
    · rw [setProd_buf, signalFill_buf]
    · rcases hreach with hreach | ⟨p', r, j, hp', hqj⟩
      · rw [setProd_buf, signalFill_buf] at hreach
        exact .inr ⟨p, q, i, hp, Nat.le_trans hreach hi⟩
      · have hold := clearing_of_setProd rfl p' r j hp'
        rw [signalFill_prod] at hold
        exact .inr ⟨p', r, j, hold, hqj⟩
    · rwa [setProd_buf, signalFill_buf] at hj

theorem cons_readFree {cfg : Config} {s t : Radio} {pick : Pick} {out : List Event}
    (hcore : Core s) (h : ReadFree s) (m : Move cfg s (.cons pick) t out) : ReadFree t := by
  have hreach : ∀ {u : Radio} {q}, u.buf.tail_pt = s.buf.tail_pt → u.prod = s.prod →
      UpToTail u q → UpToTail s q := fun ht hp hq => hq.keep ht fun p r i hc => by rwa [hp] at hc
  have hhead : ∀ {i}, s.cons = .lockElement i →
      i = indMod s.buf.head_pt ∧ s.buf.head_pt + 1 < 2 ^ 32 := by
    intro i hc
    have hlt := hcore.busy (by rw [hc]; rfl)
    have htl := hcore.tail_lt
    exact ⟨hcore.atHead i hc, by omega⟩
  cases m with
  | top =>
    refine h.keep (by rw [signalFill_buf]) (fun q => hreach ?_ ?_) fun i hi => ?_
    · rw [signalFill_buf]
    · rw [signalFill_prod]
    · rwa [signalFill_buf] at hi
  | block hc hk =>
    exact h.keep rfl (fun q => hreach rfl rfl) fun i hi => setSlot_read hi nofun
  | @deliver i _ hc hk =>
    obtain ⟨rfl, hlt⟩ := hhead hc
    intro q hq hreach' hread
    have hq1 : s.buf.head_pt + 1 < q := by
      rw [signalEmpty_buf, deliver_head hlt] at hq
      exact hq
    have hold : UpToTail s q := hreach'.keep (by rfl) clearing_of_signalEmpty
    obtain ⟨hqw, hq32⟩ := hold.window hcore
    rw [signalEmpty_buf] at hread
    by_cases hslot : seq2Ind q = indMod s.buf.head_pt
    · rw [← seq2Ind_succ hlt] at hslot
      have := eq_of_seq2Ind_eq (by omega) hqw (Nat.lt_succ_self _)
        (by have := BUF_SIZE_pos; omega) hq32 hlt hslot
      omega
    · rw [deliver_ne _ hslot] at hread
      exact h q (by omega) hold hread
  | @giveUp i _ hc hk =>
    obtain ⟨rfl, hlt⟩ := hhead hc
    intro q hq hreach' hread
    have hq1 : s.buf.head_pt + 1 < q := by
      rw [signalEmpty_buf, giveUp_head hlt] at hq
      exact hq
    rw [signalEmpty_buf] at hread
    have hold : UpToTail s q := hreach'.keep (by rfl) clearing_of_signalEmpty
    exact h q (by omega) hold (setSlot_read hread nofun)
  | _ => exact h

theorem move_readFree {cfg : Config} {s t : Radio} {l : Label} {out : List Event}
    (hcore : Core s) (h : ReadFree s) (m : Move cfg s l t out) : ReadFree t := by
  cases l with
  | call p c =>
    cases m
    refine h.keep ?_ (fun q hq => hq.keep ?_ (clearing_of_setProd ?_)) fun _ hi => hi
    all_goals rfl
  | prod p pick => exact prod_readFree hcore h m
  | cons pick => exact cons_readFree hcore h m
  | ack =>
    have hprod : t.prod = s.prod := by
      cases m with
      | ackWoken | scanDrop | overflowDrop => simp
      | _ => rfl
    rcases ack_slots hcore m with ⟨hbuf, -⟩ | ⟨q, -, -, hbuf, -⟩
    · refine h.keep (by rw [hbuf]) (fun q hq => hq.keep (by rw [hbuf]) ?_) fun i hi => ?_
      · intro p r i hc
        rwa [hprod] at hc
      · rwa [hbuf] at hi
    · refine h.keep (by rw [hbuf]; rfl) (fun q hq => hq.keep (by rw [hbuf]; rfl) ?_) fun i hi => ?_
      · intro p r i hc
        rwa [hprod] at hc
      · rw [hbuf] at hi
        exact setSlot_read hi nofun
  | setBatchInfo => cases m; exact h
  | updateTimeLeft => cases m; exact h
  | setDecodingDone => cases m; exact h
  | tick => cases m; exact h

theorem fresh_readFree {s : Radio} (h : s.Fresh) : ReadFree s := by
  intro q _ _ hread
  rw [(h.1.2.2.2 _).2.1] at hread
  cases hread

/-- The slot of the head of a buffer that is not empty was not read. -/
theorem ReadFree.next {s : Radio} (h : ReadFree s) (hlt : s.buf.head_pt < s.buf.tail_pt)
    (htl : s.buf.tail_pt < 2 ^ 32) : (s.buf.book_keep_arr (headPtMod s.buf)).status ≠ .kRead := by
  rw [headPtMod_eq (by omega)]
  exact h _ (Nat.lt_succ_self _) (.inl hlt)

theorem run_readFree {cfg : Config} {ok : List Event → Radio → Label → Prop} {s : Radio}
    {tr : List Event} (r : Run (radio cfg) ok s tr) : ReadFree s :=
  r.invariant (fun s _ => ReadFree s) (fun _ h => fresh_readFree h) fun _ _ _ _ _ r ih _ hs =>
    move_readFree (the_tail_stays_in_the_window r) ih (step_move hs)

/-- The consumer gives up only a slot that is marked. -/
theorem Move.gaveUp {cfg : Config} {s t : Radio} {l : Label} {out : List Event} {hd q : Nat}
    {st : Status} (hcore : Core s) (hread : ReadFree s) (m : Move cfg s l t out)
    (hm : .gaveUp hd q st ∈ out) :
    (s.buf.book_keep_arr (headPtMod s.buf)).status ≠ .kRead ∧ st = .kDrop := by
  cases m with
  | @giveUp i _ hc hk =>
    obtain rfl := hcore.atHead i hc
    have hnext := hread.next (hcore.busy (by rw [hc]; rfl)) hcore.tail_lt
    obtain ⟨-, -, rfl⟩ := Event.gaveUp.inj (List.mem_singleton.mp hm)
    exact ⟨hnext, hk.resolve_left hnext⟩
  | full => split at hm <;> simp at hm
  | _ => simp at hm

theorem run_gaveUp {cfg : Config} {ok : List Event → Radio → Label → Prop} {s : Radio}
    {tr : List Event} (r : Run (radio cfg) ok s tr) {hd q : Nat} {st : Status}
    (hm : .gaveUp hd q st ∈ tr) : st = .kDrop := by
  refine r.events (fun e => ∀ hd q st, e = .gaveUp hd q st → st = .kDrop) ?_ _ hm hd q st rfl
  rintro s tr l t out r _ hs e he hd q st rfl
  exact ((step_move hs).gaveUp (the_tail_stays_in_the_window r) (run_readFree r) he).2

/-! ## The ledger -/

/-- What the events tell: `P` of a number that is done with, and `Q` of one whose
slot has a packet, which bears the number `k`. -/
structure Rules (P : Nat → List Event → Prop) (Q : Nat → Nat → List Event → Prop) : Prop where
  append : ∀ {q tr}, P q tr → ∀ out, P q (tr ++ out)
  appendHeld : ∀ {q k tr}, Q q k tr → ∀ out, Q q k (tr ++ out)
  enqueued : ∀ q bs tr, Q q q (tr ++ [.enqueued q bs])
  wrapped : ∀ {q c} bs tr, q ≤ c → P q (tr ++ [.wrapped c bs])
  wrappedHeld : ∀ c k bs tr, Q c k (tr ++ [.wrapped c bs])
  fullDropped : ∀ hd tr, P (hd + 1) (tr ++ [.fullDropped hd])
  nackDropped : ∀ {q c hd} st tr, seq2Ind c = seq2Ind q → hd < q → q ≤ hd + BUF_SIZE →
    P q (tr ++ [.nackDropped hd c st])
  delivered : ∀ {hd k tr} bs, Q (hd + 1) k tr → P (hd + 1) (tr ++ [.delivered hd k bs])

/-- A number up to the head and one whose slot is marked as given up are done with. -/
structure Ledger (P : Nat → List Event → Prop) (Q : Nat → Nat → List Event → Prop)
    (b : RxDataBuf) (tr : List Event) : Prop where
  passed : ∀ q, 0 < q → q ≤ b.head_pt → P q tr
  stored : ∀ q, Stored b q → Q q (b.book_keep_arr (seq2Ind q)).seq_num tr
  marked : ∀ q, b.head_pt < q → q ≤ b.head_pt + BUF_SIZE → q < 2 ^ 32 →
    (b.book_keep_arr (seq2Ind q)).status = .kDrop → P q tr

section ledger

variable {P : Nat → List Event → Prop} {Q : Nat → Nat → List Event → Prop}

theorem fresh_ledger {s : Radio} (h : s.Fresh) : Ledger P Q s.buf [] := by
  refine ⟨fun q hq hle => ?_, fun q hst => absurd hst.2.2.2 (fresh_no_packet h _),
    fun q _ _ _ hdrop => ?_⟩
  · rw [h.1.1] at hle
    omega
  · rw [(h.1.2.2.2 _).2.1] at hdrop
    cases hdrop

theorem Ledger.append {b : RxDataBuf} {tr : List Event} (hR : Rules P Q) (h : Ledger P Q b tr)
    (out : List Event) : Ledger P Q b (tr ++ out) :=
  ⟨fun q hq hle => hR.append (h.passed q hq hle) out,
    fun q hst => hR.appendHeld (h.stored q hst) out,
    fun q hq hw hl hd => hR.append (h.marked q hq hw hl hd) out⟩

/-- A slot of the window gets another mark, and every other slot stays. -/
theorem Ledger.setSlot {b : RxDataBuf} {tr : List Event} (h : Ledger P Q b tr) {i : Slot}
    {k : BookKeeping} (hocc : k.status ≠ .kOccupiedNew)
    (hdrop : k.status = .kDrop → ∀ q, b.head_pt < q → q ≤ b.head_pt + BUF_SIZE → q < 2 ^ 32 →
      seq2Ind q = i → P q tr) : Ledger P Q (setSlot b i k) tr := by
  refine ⟨h.passed, fun q ⟨hq, hw, hl, ho⟩ => ?_, fun q hq hw hl hd => ?_⟩
  · by_cases hi : seq2Ind q = i
    · rw [hi, setSlot_self] at ho
      exact absurd ho hocc
    · rw [setSlot_ne _ _ _ hi] at ho ⊢
      exact h.stored q ⟨hq, hw, hl, ho⟩
  · by_cases hi : seq2Ind q = i
    · rw [hi, setSlot_self] at hd
      exact hdrop hd q hq hw hl hi
    · rw [setSlot_ne _ _ _ hi] at hd
      exact h.marked q hq hw hl hd

/-- The head passes a number that is done with, and its slot holds nothing any more. -/
theorem Ledger.advance {b b' : RxDataBuf} {tr : List Event} (h : Ledger P Q b tr)
    (hhead : b'.head_pt = b.head_pt + 1)
    (hself : (b'.book_keep_arr (headPtMod b)).status = .kRead ∨
      (b'.book_keep_arr (headPtMod b)).status = .kEmpty)
    (hne : ∀ i, i ≠ headPtMod b → b'.book_keep_arr i = b.book_keep_arr i)
    (hnext : P (b.head_pt + 1) tr) : Ledger P Q b' tr := by
  -- The number that enters the window has the slot that was the one of the head.
  have hold : ∀ q, b'.head_pt < q → q ≤ b'.head_pt + BUF_SIZE → q < 2 ^ 32 →
      (b'.book_keep_arr (seq2Ind q)).status ≠ .kRead →
      (b'.book_keep_arr (seq2Ind q)).status ≠ .kEmpty →
      q ≤ b.head_pt + BUF_SIZE ∧ b'.book_keep_arr (seq2Ind q) = b.book_keep_arr (seq2Ind q) := by
    intro q hq hw hl hr he
    have hslot : seq2Ind q ≠ headPtMod b := by
      intro hi
      rw [hi] at hr he
      exact hself.elim hr he
    refine ⟨?_, hne _ hslot⟩
    by_contra hout
    obtain rfl : q = b.head_pt + BUF_SIZE + 1 := by omega
    exact hslot (seq2Ind_window hl)
  refine ⟨fun q hq hle => ?_, fun q ⟨hq, hw, hl, ho⟩ => ?_, fun q hq hw hl hd => ?_⟩
  · by_cases hqh : q ≤ b.head_pt
    · exact h.passed q hq hqh
    · obtain rfl : q = b.head_pt + 1 := by omega
      exact hnext
  · obtain ⟨hw', hsame⟩ := hold q hq hw hl (by rw [ho]; nofun) (by rw [ho]; nofun)
    rw [hsame] at ho ⊢
    exact h.stored q ⟨by omega, hw', hl, ho⟩
  · obtain ⟨hw', hsame⟩ := hold q hq hw hl (by rw [hd]; nofun) (by rw [hd]; nofun)
    rw [hsame] at hd
    exact h.marked q (by omega) hw' hl hd

/-- The number of a slot after a packet came: the one of the packet, or the old one. -/
theorem store_seq_num (b : RxDataBuf) (c : EnqueueArgs) :
    ((store b c).book_keep_arr (seq2Ind c.seq_num)).seq_num = c.seq_num ∨
      (b.book_keep_arr (seq2Ind c.seq_num)).status = .kOccupiedNew ∧ store b c = b := by
  unfold store
  split
  · unfold updateBookKeeping
    rw [setSlot_self]
    exact .inl rfl
  · rename_i hocc
    exact .inr ⟨not_not.mp hocc, rfl⟩

/-- A packet of the window goes into its slot. -/
theorem Ledger.store {b : RxDataBuf} {tr : List Event} (hR : Rules P Q) (h : Ledger P Q b tr)
    {c : EnqueueArgs} (hs : b.head_pt < c.seq_num) (hw : c.seq_num ≤ b.head_pt + BUF_SIZE) :
    Ledger P Q (store b c) (tr ++ [.enqueued c.seq_num c.bytes]) := by
  have hnew := h.append hR [.enqueued c.seq_num c.bytes]
  rcases store_seq_num b c with hseq | ⟨-, hsame⟩
  · have hone : ∀ q, b.head_pt < q → q ≤ b.head_pt + BUF_SIZE → q < 2 ^ 32 →
        seq2Ind q = seq2Ind c.seq_num → q = c.seq_num := fun q hq hqw hl =>
      eq_of_seq2Ind_eq hq hqw hs hw hl c.seq_lt
    refine ⟨fun q => ?_, fun q ⟨hq, hqw, hl, ho⟩ => ?_, fun q hq hqw hl hd => ?_⟩
    · rw [store_head]
      exact hnew.passed q
    · rw [store_head] at hq hqw
      by_cases hi : seq2Ind q = seq2Ind c.seq_num
      · obtain rfl := hone q hq hqw hl hi
        rw [hseq]
        exact hR.enqueued _ _ tr
      · rw [store_ne _ _ hi] at ho ⊢
        exact hnew.stored q ⟨hq, hqw, hl, ho⟩
    · rw [store_head] at hq hqw
      by_cases hi : seq2Ind q = seq2Ind c.seq_num
      · rw [hi, store_status] at hd
        cases hd
      · rw [store_ne _ _ hi] at hd
        exact hnew.marked q hq hqw hl hd
  · rwa [hsame]

/-- A wrap-around leaves nothing but its packet, whose number it jumped to. -/
theorem ledger_wrap {b : RxDataBuf} {tr : List Event} (hR : Rules P Q) {c : EnqueueArgs}
    (hpos : 1 ≤ c.seq_num) :
    Ledger P Q (wrapAround (store b c) c) (tr ++ [.wrapped c.seq_num c.bytes]) := by
  have hN := BUF_SIZE_pos
  have hhead : (wrapAround (rx_data_buf.store b c) c).head_pt = c.seq_num - 1 :=
    sub32_of_le hpos c.seq_lt
  refine ⟨fun q _ hle => ?_, fun q ⟨hq, hqw, hl, ho⟩ => ?_, fun q hq hqw hl hd => ?_⟩
  · rw [hhead] at hle
    exact hR.wrapped _ tr (by omega)
  · rw [hhead] at hq hqw
    by_cases hi : seq2Ind q = seq2Ind c.seq_num
    · obtain rfl := eq_of_seq2Ind_eq (h := c.seq_num - 1) (by omega) (by omega) (by omega)
        (by omega) hl c.seq_lt hi
      exact hR.wrappedHeld _ _ _ tr
    · rw [wrapAround_ne _ _ hi] at ho
      cases ho
  · by_cases hi : seq2Ind q = seq2Ind c.seq_num
    · rw [hi, wrapAround_self, store_status] at hd
      cases hd
    · rw [wrapAround_ne _ _ hi] at hd
      cases hd

theorem SlotMove.ledger {s : Radio} {b : RxDataBuf} {tr out : List Event} (hR : Rules P Q)
    (h : Ledger P Q s.buf tr) (hnext : ∀ hd q st, .gaveUp hd q st ∈ out →
      (s.buf.book_keep_arr (headPtMod s.buf)).status ≠ .kRead)
    (m : SlotMove s b out) : Ledger P Q b (tr ++ out) := by
  have hN := BUF_SIZE_pos
  have hnew := h.append hR out
  cases m with
  | same hh ha =>
    refine ⟨fun q => hh ▸ hnew.passed q, fun q ⟨hq, hw, hl, ho⟩ => ?_, fun q hq hw hl hd => ?_⟩
    · rw [hh] at hq hw
      rw [ha] at ho ⊢
      exact hnew.stored q ⟨hq, hw, hl, ho⟩
    · rw [hh] at hq hw
      rw [ha] at hd
      exact hnew.marked q hq hw hl hd
  | fullDrop hk =>
    refine hnew.setSlot nofun fun _ q hq hw hl hi => ?_
    have hlt : s.buf.head_pt + 1 < 2 ^ 32 := by omega
    rw [headPtMod_eq hlt] at hi
    obtain rfl := eq_of_seq2Ind_eq hq hw (Nat.lt_succ_self _) (by omega) hl hlt hi
    exact hR.fullDropped _ tr
  | store hs hw => exact h.store hR hs hw
  | wrap hs => exact ledger_wrap hR (by omega)
  | clear => exact hnew.setSlot nofun nofun
  | block => exact hnew.setSlot nofun nofun
  | deliver hlt hk =>
    refine hnew.advance (deliver_head hlt _) (.inl (congrArg BookKeeping.status
      (setSlot_self _ _ _))) (fun i hi => deliver_ne _ hi) (hR.delivered _ ?_)
    rw [headPtMod_eq hlt] at hk ⊢
    exact h.stored _ ⟨Nat.lt_succ_self _, by omega, hlt, hk⟩
  | giveUp hlt hk =>
    have hdrop := hk.resolve_left (hnext _ _ _ List.mem_cons_self)
    refine hnew.advance (giveUp_head hlt _) (.inr (congrArg BookKeeping.status
      (setSlot_self _ _ _))) (fun i hi => giveUp_ne _ hi)
      (hnew.marked _ (Nat.lt_succ_self _) (by omega) hlt ?_)
    rw [← headPtMod_eq hlt]
    exact hdrop

theorem move_ledger {cfg : Config} {s t : Radio} {l : Label} {tr out : List Event}
    (hR : Rules P Q) (hcore : Core s) (hread : ReadFree s) (h : Ledger P Q s.buf tr)
    (m : Move cfg s l t out) : Ledger P Q t.buf (tr ++ out) := by
  by_cases hl : l = .ack
  · subst hl
    rcases ack_slots hcore m with ⟨hbuf, -⟩ | ⟨q, -, -, hbuf, rfl⟩
    · rw [hbuf]
      exact h.append hR out
    · rw [hbuf]
      exact (h.append hR _).setSlot nofun fun _ r hr hw _ hi =>
        hR.nackDropped _ tr hi.symm hr hw
  · exact (others_slots hcore m hl).ledger hR h fun hd q st he => (m.gaveUp hcore hread he).1

/-- The ledger holds in every run. -/
theorem run_ledger {cfg : Config} {ok : List Event → Radio → Label → Prop} (hR : Rules P Q)
    {s : Radio} {tr : List Event} (r : Run (radio cfg) ok s tr) : Ledger P Q s.buf tr :=
  r.invariant (fun s tr => Ledger P Q s.buf tr) (fun _ h => fresh_ledger h)
    fun _ _ _ _ _ r ih _ hs =>
      move_ledger hR (the_tail_stays_in_the_window r) (run_readFree r) ih (step_move hs)

end ledger

end wspace_client.threads

-- The loops of `FindNackSeqNum`, over whole calls from `GetBatchInfo` to the return,
-- with the other threads in between. Both count a `uint32` up to a bound that they
-- include, and the second one starts after the tail.
import WspaceClient.AckAssert
import WspaceClient.NackList

namespace wspace_client.threads

open machine batch_info rx_data_buf

/-! ## One call -/

/-- A call that has read the pointers in `s`, and the steps of all threads since, up to
its return. -/
inductive AckCall (cfg : Config) (s : Radio) : Radio → Log → Prop
  | reads {t : Radio} {out : List Event} (hs : step cfg s .ack = some (t, out)) :
      AckCall cfg s t [⟨s, .ack, out⟩]
  | next {t u : Radio} {l : Label} {log : Log} {out : List Event} (h : AckCall cfg s t log)
      (hin : t.ack ≠ .idle) (hs : step cfg t l = some (u, out)) :
      AckCall cfg s u (log ++ [⟨t, l, out⟩])

/-- The `end_pt` of the call, by what `GetBatchInfo` gives in `s`. -/
def endPt (s : Radio) (tail_pt : Nat) : Nat :=
  if ¬doneNow s ∧ s.batch_info.highest_decoded_seq < tail_pt then
    sub32 s.batch_info.highest_decoded_seq 1
  else sub32 tail_pt 1

/-- The `end_seq` of the call. -/
def callEnd (s : Radio) (tail_pt : Nat) : Nat :=
  if doneNow s then max s.batch_info.highest_decoded_seq tail_pt
  else s.batch_info.highest_decoded_seq

/-- The call does not return before its loops. -/
def ReachesLoops (s : Radio) (head_pt tail_pt : Nat) : Prop :=
  doneNow s ∨ (s.batch_info.highest_decoded_seq ≠ 0 ∧
    (s.batch_info.highest_decoded_seq < tail_pt → head_pt ≤ endPt s tail_pt))

instance (s : Radio) (head_pt tail_pt : Nat) : Decidable (ReachesLoops s head_pt tail_pt) :=
  inferInstanceAs (Decidable (_ ∨ _ ∧ (_ → _)))

/-- The position that a step of the scan visits. -/
def visit (e : Entry Radio Label Event) : Option Nat :=
  match e.label, e.state.ack with
  | .ack, .scan index end_pt _ _ _ _ => if index ≤ end_pt then some index else none
  | _, _ => none

/-- The number that a step of the loop past the tail inserts. -/
def insertion (e : Entry Radio Label Event) : Option Nat :=
  match e.label, e.state.ack with
  | .ack, .extra i end_seq _ => if i ≤ end_seq then some i else none
  | _, _ => none

def visits (log : Log) : List Nat := log.filterMap visit

def insertions (log : Log) : List Nat := log.filterMap insertion

/-- The steps of the call itself. -/
def turns (log : Log) : Nat := log.countP fun e => e.label.isAck

/-- The positions of the scan. -/
def positions (s : Radio) (head_pt tail_pt : Nat) : List Nat :=
  if ReachesLoops s head_pt tail_pt then List.range' head_pt (endPt s tail_pt + 1 - head_pt)
  else []

/-- The numbers past the tail, up to the end. -/
def pastTail (s : Radio) (tail_pt : Nat) : List Nat :=
  List.range' (tail_pt + 1) (callEnd s tail_pt - tail_pt)

/-- The call makes a bounded number of steps and returns, unless a slot stays locked. The
scan visits each of its positions once, and each number past the tail is inserted once. -/
structure LoopsExact (cfg : Config) (head_pt tail_pt : Nat) (s : Radio) : Prop where
  bounded : ∃ n, ∀ t log, AckCall cfg s t log → turns log ≤ n
  loops : ∀ t log, AckCall cfg s t log →
    visits log <+: positions s head_pt tail_pt ∧ insertions log <+: pastTail s tail_pt
  returns : ∀ t log, AckCall cfg s t log → t.ack ≠ .aborted ∧
    (ElementsFree t → ∃ u log', AckCall cfg s u (log ++ log') ∧ u.ack = .idle)
  exact : ∀ t log, AckCall cfg s t log → t.ack = .idle →
    visits log = positions s head_pt tail_pt ∧ insertions log = pastTail s tail_pt

/-- What the read gives, the own steps of the call keep and the steps of others keep with
their entries in the log, holds all through the call, if it rules out the wait. -/
theorem AckCall.invariant {cfg : Config} {s t : Radio} {log : Log} (P : Log → AckPc → Prop)
    (hwait : ∀ log b, ¬P log (.waitFill b))
    (hreads : ∀ t out, step cfg s .ack = some (t, out) → P [⟨s, .ack, out⟩] t.ack)
    (hown : ∀ t u log out, P log t.ack → t.ack ≠ .idle → step cfg t .ack = some (u, out) →
      P (log ++ [⟨t, .ack, out⟩]) u.ack)
    (hother : ∀ t l log out, l ≠ .ack → P log t.ack → P (log ++ [⟨t, l, out⟩]) t.ack)
    (h : AckCall cfg s t log) : P log t.ack := by
  induction h with
  | reads hs => exact hreads _ _ hs
  | @next t u l log out _ hin hs ih =>
    by_cases hl : l = .ack
    · subst hl
      exact hown t u log out ih hin hs
    · rcases (step_move hs).ack_eq hl with he | ⟨hw, -⟩
      · rw [he]
        exact hother t l log out hl ih
      · rw [hw] at ih
        exact absurd ih (hwait _ _)

/-! ## The logs of a call -/

theorem visits_snoc (log : Log) (e : Entry Radio Label Event) :
    visits (log ++ [e]) = visits log ++ (visit e).toList := by
  unfold visits
  rw [List.filterMap_append]
  cases he : visit e with
  | none => rw [List.filterMap_cons_none he]; rfl
  | some q => rw [List.filterMap_cons_some he]; rfl

theorem insertions_snoc (log : Log) (e : Entry Radio Label Event) :
    insertions (log ++ [e]) = insertions log ++ (insertion e).toList := by
  unfold insertions
  rw [List.filterMap_append]
  cases he : insertion e with
  | none => rw [List.filterMap_cons_none he]; rfl
  | some q => rw [List.filterMap_cons_some he]; rfl

theorem turns_snoc (log : Log) (e : Entry Radio Label Event) :
    turns (log ++ [e]) = turns log + if e.label.isAck then 1 else 0 := by
  unfold turns
  rw [List.countP_append, List.countP_singleton]

theorem turns_ack (log : Log) (s : Radio) (out : List Event) :
    turns (log ++ [⟨s, .ack, out⟩]) = turns log + 1 := turns_snoc log _

theorem range'_snoc {a i : Nat} (h : a ≤ i) :
    List.range' a (i - a) ++ [i] = List.range' a (i + 1 - a) := by
  rw [Nat.sub_add_comm h, List.range'_1_concat, Nat.add_sub_cancel' h]

/-! ## How far the call is -/

/-- The steps that the call still makes. Each insertion and each visit adds at most one
number to the list, which the last loop may go through. -/
def turnsLeft : AckPc → Nat
  | .gotBatchInfo head_pt tail_pt end_seq =>
    2 * (sub32 tail_pt 1 + 1 - head_pt) + 2 * (end_seq - tail_pt) + 5
  | .atAssert head_pt tail_pt end_pt end_seq =>
    2 * (end_pt + 1 - head_pt) + 2 * (end_seq - tail_pt) + 4
  | .scan index end_pt tail_pt end_seq _ nacks =>
    2 * (end_pt + 1 - index) + 2 * (end_seq - tail_pt) + nacks.length + 3
  | .extra i end_seq nacks => 2 * (end_seq + 1 - i) + nacks.length + 2
  | .overflow rest _ => rest.length + 1
  | .idle | .gotBatchID _ | .waitFill _ | .gotPointers _ _ | .aborted => 0

/-- Where the loops of a call are that goes up to `end_pt` and to `end_seq`. -/
def AtLoops (head_pt tail_pt end_pt end_seq : Nat) (log : Log) : AckPc → Prop
  | .gotBatchInfo h t e => h = head_pt ∧ t = tail_pt ∧ e = end_seq ∧ end_pt = sub32 tail_pt 1 ∧
      visits log = [] ∧ insertions log = []
  | .atAssert h t p e => h = head_pt ∧ t = tail_pt ∧ p = end_pt ∧ e = end_seq ∧
      visits log = [] ∧ insertions log = []
  | .scan i p t e _ _ => t = tail_pt ∧ p = end_pt ∧ e = end_seq ∧ head_pt ≤ i ∧
      (i ≤ end_pt + 1 ∨ i = head_pt) ∧ visits log = List.range' head_pt (i - head_pt) ∧
        insertions log = []
  | .extra i e _ => e = end_seq ∧ tail_pt + 1 ≤ i ∧ (i ≤ end_seq + 1 ∨ i = tail_pt + 1) ∧
      visits log = List.range' head_pt (end_pt + 1 - head_pt) ∧
        insertions log = List.range' (tail_pt + 1) (i - (tail_pt + 1))
  | .overflow _ _ | .idle => visits log = List.range' head_pt (end_pt + 1 - head_pt) ∧
      insertions log = List.range' (tail_pt + 1) (end_seq - tail_pt)
  | .gotBatchID _ | .waitFill _ | .gotPointers _ _ | .aborted => False

/-- The steps of other threads add nothing to the log of the loops. -/
theorem others_snoc {l : Label} (hl : l ≠ .ack) (s : Radio) (out : List Event) (log : Log) :
    visits (log ++ [⟨s, l, out⟩]) = visits log ∧
      insertions (log ++ [⟨s, l, out⟩]) = insertions log ∧
        turns (log ++ [⟨s, l, out⟩]) = turns log := by
  rw [visits_snoc, insertions_snoc, turns_snoc]
  cases l with
  | ack => exact absurd rfl hl
  | _ => exact ⟨List.append_nil _, List.append_nil _, rfl⟩

/-- Where the loops are depends on the visits and the insertions only. -/
theorem AtLoops.congr {hd tl ep e : Nat} {log log' : Log} {pc : AckPc}
    (h : AtLoops hd tl ep e log pc) (hv : visits log' = visits log)
    (hi : insertions log' = insertions log) : AtLoops hd tl ep e log' pc := by
  unfold AtLoops
  rw [hv, hi]
  exact h

/-- A step that is in neither loop adds nothing to the log of the loops. -/
theorem quiet_snoc {s : Radio} (out : List Event) (log : Log)
    (hs : ∀ i ep tl e et ns, s.ack ≠ .scan i ep tl e et ns) (he : ∀ i e ns, s.ack ≠ .extra i e ns) :
    visits (log ++ [⟨s, .ack, out⟩]) = visits log ∧
      insertions (log ++ [⟨s, .ack, out⟩]) = insertions log := by
  rw [visits_snoc, insertions_snoc]
  unfold visit insertion
  cases ha : s.ack with
  | scan => exact absurd ha (hs _ _ _ _ _ _)
  | extra => exact absurd ha (he _ _ _)
  | _ => exact ⟨List.append_nil _, List.append_nil _⟩

theorem scan_snoc {s : Radio} {i ep tl e et : Nat} {ns : List Nat} (out : List Event) (log : Log)
    (ha : s.ack = .scan i ep tl e et ns) :
    visits (log ++ [⟨s, .ack, out⟩]) = visits log ++ (if i ≤ ep then [i] else []) ∧
      insertions (log ++ [⟨s, .ack, out⟩]) = insertions log := by
  rw [visits_snoc, insertions_snoc]
  unfold visit insertion
  rw [ha]
  refine ⟨congrArg _ ?_, List.append_nil _⟩
  dsimp only
  split <;> rfl

theorem extra_snoc {s : Radio} {i e : Nat} {ns : List Nat} (out : List Event) (log : Log)
    (ha : s.ack = .extra i e ns) :
    visits (log ++ [⟨s, .ack, out⟩]) = visits log ∧
      insertions (log ++ [⟨s, .ack, out⟩]) = insertions log ++ (if i ≤ e then [i] else []) := by
  rw [visits_snoc, insertions_snoc]
  unfold visit insertion
  rw [ha]
  refine ⟨List.append_nil _, congrArg _ ?_⟩
  dsimp only
  split <;> rfl

/-- A turn of the scan visits its position and goes to the next one. -/
theorem scan_atLoops {s : Radio} {log : Log} {hd tl ep e i p t e' et : Nat} {ns ns' : List Nat}
    (hep : ep < tl) (htl : tl + 1 < 2 ^ 32) (h : AtLoops hd tl ep e log s.ack)
    (ha : s.ack = .scan i p t e' et ns) (hi : i ≤ p) (hns : ns'.length ≤ ns.length + 1)
    (out : List Event) :
    AtLoops hd tl ep e (log ++ [⟨s, .ack, out⟩]) (.scan (add32 i 1) p t e' et ns') ∧
      turnsLeft (.scan (add32 i 1) p t e' et ns') < turnsLeft s.ack := by
  obtain ⟨hv, hins⟩ := scan_snoc out log ha
  rw [ha] at h ⊢
  obtain ⟨rfl, rfl, rfl, hle, -, hvis, hno⟩ := h
  rw [add32_of_lt (by omega)]
  refine ⟨⟨rfl, rfl, rfl, by omega, by omega, ?_, hins.trans hno⟩, ?_⟩
  · rw [hv, hvis, if_pos hi]
    exact range'_snoc hle
  · simp only [turnsLeft]
    omega

/-- The loop past the tail is over when it passed the end. -/
theorem extra_atEnd {s : Radio} {log : Log} {hd tl ep e i e' : Nat} {ns : List Nat}
    (h : AtLoops hd tl ep e log s.ack) (ha : s.ack = .extra i e' ns) (hi : e' < i)
    (out : List Event) : AtLoops hd tl ep e (log ++ [⟨s, .ack, out⟩]) .idle := by
  obtain ⟨hv, hins⟩ := extra_snoc out log ha
  rw [ha] at h
  obtain ⟨rfl, hle, hend, hvis, hno⟩ := h
  refine ⟨hv.trans hvis, ?_⟩
  rw [hins, hno, if_neg (Nat.not_le_of_lt hi), List.append_nil]
  congr 1
  omega

/-- Each step of the call brings it nearer to its return. -/
theorem ack_atLoops {cfg : Config} {s t : Radio} {out : List Event} {log : Log} {hd tl ep e : Nat}
    (hep : ep < tl) (htl : tl + 1 < 2 ^ 32) (he : e + 1 < 2 ^ 32)
    (h : AtLoops hd tl ep e log s.ack) (hin : s.ack ≠ .idle)
    (hs : step cfg s .ack = some (t, out)) :
    AtLoops hd tl ep e (log ++ [⟨s, .ack, out⟩]) t.ack ∧ turnsLeft t.ack < turnsLeft s.ack := by
  cases step_move hs with
  | getBatchID ha => exact absurd ha hin
  | ackSleep ha | pointers ha | ackWoken ha | batchFirst ha | batchRead ha | batchOld ha
  | batchPast ha | batchDone ha =>
    rw [ha] at h
    cases h
  | ackBatchID ha =>
    obtain ⟨hv, hins⟩ := quiet_snoc (s := s) [] log (by simp [ha]) (by simp [ha])
    rw [ha] at h ⊢
    obtain ⟨rfl, rfl, rfl, rfl, hvis, hno⟩ := h
    refine ⟨⟨rfl, rfl, rfl, rfl, hv.trans hvis, hins.trans hno⟩, ?_⟩
    exact Nat.lt_succ_self _
  | assertHolds ha hlt =>
    obtain ⟨hv, hins⟩ := quiet_snoc (s := s) [] log (by simp [ha]) (by simp [ha])
    rw [ha] at h ⊢
    obtain ⟨rfl, rfl, rfl, rfl, hvis, hno⟩ := h
    refine ⟨⟨rfl, rfl, rfl, Nat.le_refl _, .inr rfl, ?_, hins.trans hno⟩, ?_⟩
    · rw [hv, hvis, Nat.sub_self, List.range'_zero]
    · exact Nat.lt_succ_self _
  | assertFails ha hlt =>
    rw [ha] at h
    obtain ⟨rfl, rfl, rfl, -⟩ := h
    exact absurd hep hlt
  | scanDrop ha hi =>
    rw [signalElementAvail_ack]
    exact scan_atLoops hep htl h ha hi (Nat.le_succ _) _
  | scanList ha hi => exact scan_atLoops hep htl h ha hi (by simp) _
  | scanSkip ha hi => exact scan_atLoops hep htl h ha hi (Nat.le_succ _) _
  | @scanEnd i p t e' et ns ha hi =>
    obtain ⟨hv, hins⟩ := scan_snoc [] log ha
    rw [ha] at h ⊢
    obtain ⟨rfl, rfl, rfl, hle, hend, hvis, hno⟩ := h
    rw [add32_of_lt (by omega)]
    refine ⟨⟨rfl, Nat.le_refl _, .inr rfl, ?_, ?_⟩, ?_⟩
    · rw [hv, hvis, if_neg (Nat.not_le_of_lt hi), List.append_nil]
      -- The scan stopped one past its end, or made no turn.
      congr 1
      omega
    · rw [hins, hno, Nat.sub_self, List.range'_zero]
    · simp only [turnsLeft]
      omega
  | @extra i e' ns ha hi =>
    obtain ⟨hv, hins⟩ := extra_snoc [] log ha
    rw [ha] at h ⊢
    obtain ⟨rfl, hle, -, hvis, hno⟩ := h
    rw [add32_of_lt (by omega)]
    refine ⟨⟨rfl, by omega, by omega, hv.trans hvis, ?_⟩, ?_⟩
    · rw [hins, hno, if_pos hi]
      exact range'_snoc hle
    · simp only [turnsLeft, List.length_append, List.length_singleton]
      omega
  | tooMany ha hi =>
    obtain ⟨hvis, hins⟩ := extra_atEnd h ha hi []
    refine ⟨⟨hvis, hins⟩, ?_⟩
    rw [ha]
    simp only [turnsLeft]
    omega
  | @extraEnd i e' ns ha hi =>
    refine ⟨extra_atEnd h ha hi _, ?_⟩
    rw [ha]
    exact Nat.succ_pos _
  | overflowEnd ha =>
    obtain ⟨hv, hins⟩ := quiet_snoc (s := s) _ log (by simp [ha]) (by simp [ha])
    rw [ha] at h ⊢
    exact ⟨⟨hv.trans h.1, hins.trans h.2⟩, Nat.succ_pos _⟩
  | overflowDrop ha =>
    obtain ⟨hv, hins⟩ := quiet_snoc (s := s) _ log (by simp [ha]) (by simp [ha])
    rw [signalElementAvail_ack]
    rw [ha] at h ⊢
    exact ⟨⟨hv.trans h.1, hins.trans h.2⟩, Nat.lt_succ_self _⟩

/-! ## Whole calls -/

/-- After `GetBatchInfo` the call returns, or it is on its way to the loops. -/
theorem reads_cases {cfg : Config} {s t : Radio} {out : List Event} {hd tl : Nat}
    (ha : s.ack = .gotPointers hd tl) (hs : step cfg s .ack = some (t, out)) :
    (¬ReachesLoops s hd tl ∧ t.ack = .idle ∧ callEnd s tl ≤ tl) ∨
    (ReachesLoops s hd tl ∧
      (t.ack = .gotBatchInfo hd tl (callEnd s tl) ∧ endPt s tl = sub32 tl 1 ∨
        t.ack = .atAssert hd tl (endPt s tl) (callEnd s tl))) := by
  have m := step_move hs
  unfold ReachesLoops endPt callEnd
  cases m with
  | batchFirst ha' hdone hz =>
    refine .inl ⟨?_, rfl, ?_⟩
    · simp [hdone, hz]
    · rw [if_neg hdone, hz]
      exact Nat.zero_le _
  | batchRead ha' hdone hz htl hhd =>
    rw [ha] at ha'
    cases ha'
    refine .inl ⟨?_, rfl, ?_⟩
    · rintro (hdone' | ⟨-, hgo⟩)
      · exact hdone hdone'
      · have hle := hgo htl
        rw [if_pos ⟨hdone, htl⟩] at hle
        omega
    · rw [if_neg hdone]
      exact Nat.le_of_lt htl
  | batchOld ha' hdone hz htl hhd =>
    rw [ha] at ha'
    cases ha'
    rw [if_pos ⟨hdone, htl⟩, if_neg hdone]
    exact .inr ⟨.inr ⟨hz, fun _ => hhd⟩, .inr rfl⟩
  | batchPast ha' hdone hz htl =>
    rw [ha] at ha'
    cases ha'
    rw [if_neg (fun h => Nat.not_lt_of_le htl h.2), if_neg hdone]
    exact .inr ⟨.inr ⟨hz, fun h => absurd h (Nat.not_lt_of_le htl)⟩, .inr rfl⟩
  | batchDone ha' hdone =>
    rw [ha] at ha'
    cases ha'
    rw [if_neg (fun h => h.1 hdone), if_pos hdone]
    exact .inr ⟨.inl hdone, .inl ⟨rfl, rfl⟩⟩
  | getBatchID ha' | ackSleep ha' | pointers ha' | ackWoken ha' | ackBatchID ha'
  | assertHolds ha' | assertFails ha' | scanDrop ha' | scanList ha' | scanSkip ha'
  | scanEnd ha' | extra ha' | tooMany ha' | extraEnd ha' | overflowEnd ha'
  | overflowDrop ha' =>
    rw [ha] at ha'
    cases ha'

/-- A call that does not reach its loops returns at once. -/
theorem AckCall.early {cfg : Config} {s t : Radio} {log : Log} {hd tl : Nat}
    (ha : s.ack = .gotPointers hd tl) (hr : ¬ReachesLoops s hd tl) (h : AckCall cfg s t log) :
    t.ack = .idle ∧ callEnd s tl ≤ tl ∧ turns log = 1 ∧ visits log = [] ∧ insertions log = [] := by
  induction h with
  | reads hs =>
    rcases reads_cases ha hs with ⟨-, hidle, hle⟩ | ⟨hr', -⟩
    · exact ⟨hidle, hle, rfl, quiet_snoc _ [] (by simp [ha]) (by simp [ha])⟩
    · exact absurd hr' hr
  | next _ hin _ ih => exact absurd ih.1 hin

/-- Where the loops are in a call that reaches them. -/
theorem AckCall.atLoops {cfg : Config} {s t : Radio} {log : Log} {hd tl : Nat}
    (ha : s.ack = .gotPointers hd tl) (hr : ReachesLoops s hd tl) (hep : endPt s tl < tl)
    (htl : tl + 1 < 2 ^ 32) (he : callEnd s tl + 1 < 2 ^ 32) (h : AckCall cfg s t log) :
    AtLoops hd tl (endPt s tl) (callEnd s tl) log t.ack ∧ turns log + turnsLeft t.ack ≤
      2 * (endPt s tl + 1 - hd) + 2 * (callEnd s tl - tl) + 6 := by
  apply h.invariant (fun log pc => AtLoops hd tl (endPt s tl) (callEnd s tl) log pc ∧
    turns log + turnsLeft pc ≤ 2 * (endPt s tl + 1 - hd) + 2 * (callEnd s tl - tl) + 6)
  · intro log b hw
    exact hw.1
  · intro t out hs
    have hone : turns [⟨s, .ack, out⟩] = 1 := rfl
    have hquiet := quiet_snoc (s := s) out [] (by simp [ha]) (by simp [ha])
    rcases reads_cases ha hs with ⟨hr', -⟩ | ⟨-, ⟨hack, hend⟩ | hack⟩
    · exact absurd hr hr'
    · rw [hack, hone]
      refine ⟨⟨rfl, rfl, rfl, hend, hquiet⟩, ?_⟩
      simp only [turnsLeft, hend]
      omega
    · rw [hack, hone]
      refine ⟨⟨rfl, rfl, rfl, rfl, hquiet⟩, ?_⟩
      simp only [turnsLeft]
      omega
  · intro t u log out ih hin hs
    obtain ⟨hat, hlt⟩ := ack_atLoops hep htl he ih.1 hin hs
    refine ⟨hat, ?_⟩
    rw [turns_ack]
    omega
  · intro t l log out hl ih
    obtain ⟨hv, hi, hturns⟩ := others_snoc hl t out log
    rw [hturns]
    exact ⟨ih.1.congr hv hi, ih.2⟩

theorem prefix_range' (a : Nat) {n m : Nat} (h : n ≤ m) :
    List.range' a n <+: List.range' a m := by
  obtain ⟨k, rfl⟩ := Nat.exists_eq_add_of_le h
  rw [← List.range'_append_1]
  exact List.prefix_append _ _

/-- The loops never go past their ends. -/
theorem AtLoops.isPrefix {hd tl ep e : Nat} {log : Log} {pc : AckPc}
    (h : AtLoops hd tl ep e log pc) : visits log <+: List.range' hd (ep + 1 - hd) ∧
      insertions log <+: List.range' (tl + 1) (e - tl) := by
  cases pc with
  | gotBatchInfo =>
    obtain ⟨-, -, -, -, hv, hi⟩ := h
    rw [hv, hi]
    exact ⟨List.nil_prefix, List.nil_prefix⟩
  | atAssert =>
    obtain ⟨-, -, -, -, hv, hi⟩ := h
    rw [hv, hi]
    exact ⟨List.nil_prefix, List.nil_prefix⟩
  | scan i =>
    obtain ⟨-, -, -, -, hend, hv, hi⟩ := h
    rw [hv, hi]
    exact ⟨prefix_range' _ (by omega), List.nil_prefix⟩
  | extra i =>
    obtain ⟨-, -, hend, hv, hi⟩ := h
    rw [hv, hi]
    exact ⟨List.prefix_refl _, prefix_range' _ (by omega)⟩
  | overflow | idle =>
    obtain ⟨hv, hi⟩ := h
    rw [hv, hi]
    exact ⟨List.prefix_refl _, List.prefix_refl _⟩
  | _ => cases h

/-! ## The call returns -/

/-- A step of the call is possible whenever no slot is locked. -/
theorem ack_enabled (cfg : Config) {s : Radio} {hd tl ep e : Nat} {log : Log}
    (h : AtLoops hd tl ep e log s.ack) (hfree : ElementsFree s) :
    ∃ t out, step cfg s .ack = some (t, out) := by
  have halive : s.ack ≠ .aborted := by
    intro ha
    rw [ha] at h
    cases h
  have hstep : step cfg s .ack = stepAck cfg s := if_neg halive
  rw [hstep]
  unfold stepAck
  cases ha : s.ack with
  | gotBatchID | waitFill | gotPointers | aborted =>
    rw [ha] at h
    cases h
  | idle | gotBatchInfo => exact ⟨_, _, rfl⟩
  | atAssert =>
    dsimp only
    split <;> exact ⟨_, _, rfl⟩
  | scan =>
    dsimp only
    rw [if_pos (hfree.free _)]
    split <;> exact ⟨_, _, rfl⟩
  | extra =>
    dsimp only
    split
    · exact ⟨_, _, rfl⟩
    · split <;> exact ⟨_, _, rfl⟩
  | overflow rest =>
    cases rest with
    | nil => exact ⟨_, _, rfl⟩
    | cons q rest =>
      dsimp only
      rw [if_pos (hfree.free _)]
      exact ⟨_, _, rfl⟩

/-- The acknowledgement thread locks no slot past its step. -/
theorem ack_elementsFree {cfg : Config} {s t : Radio} {out : List Event} (hfree : ElementsFree s)
    (m : Move cfg s .ack t out) : ElementsFree t := by
  cases m with
  | ackWoken =>
    rcases signalFill_cases { s with ack := .gotPointers s.buf.head_pt s.buf.tail_pt }
      ⟨false, .rcvAth⟩ with he | ⟨-, he⟩ | ⟨-, he⟩ <;> rw [he]
    · exact hfree
    · exact hfree
    · exact nofun
  | scanDrop | overflowDrop => exact ElementsFree.signal hfree
  | _ => exact hfree

/-- Left alone while no slot is locked, the call returns. -/
theorem AckCall.returns {cfg : Config} {s t : Radio} {log : Log} {hd tl : Nat}
    (ha : s.ack = .gotPointers hd tl) (hr : ReachesLoops s hd tl) (hep : endPt s tl < tl)
    (htl : tl + 1 < 2 ^ 32) (he : callEnd s tl + 1 < 2 ^ 32) (h : AckCall cfg s t log)
    (hfree : ElementsFree t) : ∃ u log', AckCall cfg s u (log ++ log') ∧ u.ack = .idle := by
  -- The induction is on the steps that are left.
  induction hn : turnsLeft t.ack using Nat.strong_induction_on generalizing t log with
  | _ n ih =>
    by_cases hidle : t.ack = .idle
    · exact ⟨t, [], by rwa [List.append_nil], hidle⟩
    · obtain ⟨hat, -⟩ := h.atLoops ha hr hep htl he
      obtain ⟨u, out, hs⟩ := ack_enabled cfg hat hfree
      obtain ⟨-, hlt⟩ := ack_atLoops hep htl he hat hidle hs
      obtain ⟨v, log', hv, hend⟩ := ih _ (hn ▸ hlt) (h.next hidle hs)
        (ack_elementsFree hfree (step_move hs)) rfl
      rw [List.append_assoc] at hv
      exact ⟨v, _, hv, hend⟩

/-- Both loops of a call that reaches them end before the last number. -/
theorem ends_lt {s : Radio} {hd tl : Nat} (hhigh : s.batch_info.highest_decoded_seq + 1 < 2 ^ 32)
    (hr : ReachesLoops s hd tl) (h0 : 0 < tl) (htl : tl + 1 < 2 ^ 32) :
    endPt s tl < tl ∧ callEnd s tl + 1 < 2 ^ 32 := by
  unfold endPt callEnd
  constructor
  · split
    · rename_i hold
      have hz : s.batch_info.highest_decoded_seq ≠ 0 := (hr.resolve_left hold.1).1
      exact Nat.lt_trans (sub_one_lt hz (by omega)) hold.2
    · exact sub_one_lt (by omega) (by omega)
  · split <;> omega

/-- With a tail between 0 and the last number, the loops are exact. -/
theorem loops_exact_of_reaches (cfg : Config) {s : Radio} {hd tl : Nat}
    (ha : s.ack = .gotPointers hd tl) (hhigh : s.batch_info.highest_decoded_seq + 1 < 2 ^ 32)
    (hr : ReachesLoops s hd tl) (h0 : 0 < tl) (htl : tl + 1 < 2 ^ 32) : LoopsExact cfg hd tl s := by
  obtain ⟨hep, he⟩ := ends_lt hhigh hr h0 htl
  have hpos : positions s hd tl = List.range' hd (endPt s tl + 1 - hd) := if_pos hr
  refine ⟨⟨2 * (endPt s tl + 1 - hd) + 2 * (callEnd s tl - tl) + 6, fun t log h => ?_⟩,
    fun t log h => ?_, fun t log h => ⟨?_, ?_⟩, fun t log h hidle => ?_⟩
  · exact Nat.le_trans (Nat.le_add_right _ _) (h.atLoops ha hr hep htl he).2
  · rw [hpos]
    exact (h.atLoops ha hr hep htl he).1.isPrefix
  · intro habort
    have hat := (h.atLoops ha hr hep htl he).1
    rw [habort] at hat
    cases hat
  · exact h.returns ha hr hep htl he
  · have hat := (h.atLoops ha hr hep htl he).1
    rw [hidle] at hat
    rw [hpos]
    exact hat

/-- A call that returns before its loops has none of their turns to make. -/
theorem loops_exact_of_early (cfg : Config) {s : Radio} {hd tl : Nat}
    (ha : s.ack = .gotPointers hd tl) (hr : ¬ReachesLoops s hd tl) : LoopsExact cfg hd tl s := by
  have hpos : positions s hd tl = [] := if_neg hr
  refine ⟨⟨1, fun t log h => ?_⟩, fun t log h => ?_, fun t log h => ⟨?_, fun _ => ?_⟩,
    fun t log h _ => ?_⟩
  · obtain ⟨-, -, hone, -⟩ := h.early ha hr
    exact Nat.le_of_eq hone
  · obtain ⟨-, -, -, hv, hi⟩ := h.early ha hr
    rw [hv, hi]
    exact ⟨List.nil_prefix, List.nil_prefix⟩
  · rw [(h.early ha hr).1]
    nofun
  · exact ⟨t, [], by rwa [List.append_nil], (h.early ha hr).1⟩
  · obtain ⟨-, hle, -, hv, hi⟩ := h.early ha hr
    have hpast : pastTail s tl = [] := by
      unfold pastTail
      rw [Nat.sub_eq_zero_of_le hle, List.range'_zero]
    rw [hpos, hpast]
    exact ⟨hv, hi⟩

/-! ## The first and the last tail -/

/-- A call that reaches its loops can go on with no slot locked. -/
theorem exists_elementsFree (cfg : Config) {s : Radio} {hd tl : Nat}
    (ha : s.ack = .gotPointers hd tl) (hr : ReachesLoops s hd tl) :
    ∃ t log, AckCall cfg s t log ∧ ElementsFree t := by
  obtain ⟨t, out, hs⟩ : ∃ t out, step cfg s .ack = some (t, out) := by
    have hstep : step cfg s .ack = stepAck cfg s := if_neg (by rw [ha]; nofun)
    rw [hstep]
    unfold stepAck
    rw [ha]
    exact ⟨_, _, rfl⟩
  rcases reads_cases ha hs with ⟨hr', -⟩ | ⟨-, hpc⟩
  · exact absurd hr hr'
  · have hidle : t.ack ≠ .idle := by rcases hpc with ⟨he, -⟩ | he <;> rw [he] <;> nofun
    have halive : t.ack ≠ .aborted := by rcases hpc with ⟨he, -⟩ | he <;> rw [he] <;> nofun
    by_cases hfree : ElementsFree t
    · exact ⟨t, _, .reads hs, hfree⟩
    · -- The consumer is between its two waits, and releases the slot.
      unfold ElementsFree at hfree
      push Not at hfree
      obtain ⟨i, hc⟩ := hfree
      have hsleep : step cfg t (.cons .ath) = some ({ t with cons := .waitElement i false }, []) :=
        (step_iff_move halive).mpr (.sleep hc)
      exact ⟨_, _, .next (.reads hs) hidle hsleep, nofun⟩

/-- A call on its way to fail at the assertion. -/
def FailsAssert : AckPc → Prop
  | .gotBatchInfo _ tail_pt _ | .atAssert _ tail_pt _ _ => tail_pt = 0
  | .aborted => True
  | _ => False

/-- With a tail of 0 a call never comes to its loops, and never returns. -/
theorem AckCall.failsAssert {cfg : Config} {s t : Radio} {log : Log} {hd : Nat}
    (ha : s.ack = .gotPointers hd 0) (hr : ReachesLoops s hd 0) (h : AckCall cfg s t log) :
    FailsAssert t.ack := by
  apply h.invariant fun _ pc => FailsAssert pc
  · exact fun _ _ => not_false
  · intro t out hs
    rcases reads_cases ha hs with ⟨hr', -⟩ | ⟨-, ⟨he, -⟩ | he⟩
    · exact absurd hr hr'
    · rw [he]
      rfl
    · rw [he]
      rfl
  · intro t u log out ih _ hs
    cases step_move hs with
    | ackBatchID ha' =>
      rw [ha'] at ih
      exact ih
    | assertFails => trivial
    | assertHolds ha' hlt =>
      rw [ha'] at ih
      exact absurd hlt (ih ▸ Nat.not_lt_zero _)
    | getBatchID ha' | ackSleep ha' | pointers ha' | ackWoken ha' | batchFirst ha' | batchRead ha'
    | batchOld ha' | batchPast ha' | batchDone ha' | scanDrop ha' | scanList ha' | scanSkip ha'
    | scanEnd ha' | extra ha' | tooMany ha' | extraEnd ha' | overflowEnd ha' | overflowDrop ha' =>
      rw [ha'] at ih
      cases ih
  · exact fun _ _ _ _ _ ih => ih

/-- A call whose second loop starts at 0. -/
def StartsAtZero (log : Log) : AckPc → Prop
  | .gotBatchInfo _ tail_pt _ | .atAssert _ tail_pt _ _ | .scan _ _ tail_pt _ _ _ =>
    tail_pt + 1 = 2 ^ 32
  | .extra i _ _ => i = 0 ∨ insertions log ≠ []
  | .overflow _ _ | .idle => insertions log ≠ []
  | .aborted => True
  | .gotBatchID _ | .waitFill _ | .gotPointers _ _ => False

/-- What was inserted stays in the log. -/
theorem insertions_append_ne_nil {log : Log} (h : insertions log ≠ []) (log' : Log) :
    insertions (log ++ log') ≠ [] := by
  unfold insertions
  rw [List.filterMap_append]
  exact List.append_ne_nil_of_left_ne_nil h _

theorem StartsAtZero.mono {log : Log} {pc : AckPc} (h : StartsAtZero log pc) (log' : Log) :
    StartsAtZero (log ++ log') pc := by
  cases pc with
  | extra => exact h.imp_right fun hne => insertions_append_ne_nil hne log'
  | overflow | idle => exact insertions_append_ne_nil h log'
  | _ => exact h

theorem insertions_ne_nil {s : Radio} {out : List Event} {i e : Nat} {ns : List Nat} (log : Log)
    (ha : s.ack = .extra i e ns) (hi : i ≤ e) : insertions (log ++ [⟨s, .ack, out⟩]) ≠ [] := by
  rw [(extra_snoc out log ha).2, if_pos hi]
  exact List.append_ne_nil_of_right_ne_nil _ (List.cons_ne_nil _ _)

/-- With the last number as the tail, a call that returns has inserted a number. -/
theorem AckCall.startsAtZero {cfg : Config} {s t : Radio} {log : Log} {hd tl : Nat}
    (ha : s.ack = .gotPointers hd tl) (hr : ReachesLoops s hd tl) (htl : tl + 1 = 2 ^ 32)
    (h : AckCall cfg s t log) : StartsAtZero log t.ack := by
  apply h.invariant StartsAtZero
  · exact fun _ _ => not_false
  · intro t out hs
    rcases reads_cases ha hs with ⟨hr', -⟩ | ⟨-, ⟨he, -⟩ | he⟩
    · exact absurd hr hr'
    · rw [he]
      exact htl
    · rw [he]
      exact htl
  · intro t u log out ih hin hs
    cases step_move hs with
    | getBatchID ha' => exact absurd ha' hin
    | ackBatchID ha' | assertHolds ha' | scanList ha' | scanSkip ha' =>
      rw [ha'] at ih
      exact ih
    | scanDrop ha' =>
      rw [signalElementAvail_ack]
      rw [ha'] at ih
      exact ih
    | assertFails => trivial
    | @scanEnd _ _ tl' _ _ _ ha' =>
      rw [ha'] at ih
      have hlast : tl' + 1 = 2 ^ 32 := ih
      left
      rw [add32_of_ge (by omega) (by omega) (by decide), hlast, Nat.sub_self]
    | extra ha' hi => exact .inr (insertions_ne_nil log ha' hi)
    | tooMany ha' hi | extraEnd ha' hi =>
      rw [ha'] at ih
      refine insertions_append_ne_nil (ih.resolve_left ?_) _
      omega
    | overflowEnd ha' =>
      rw [ha'] at ih
      exact insertions_append_ne_nil ih _
    | overflowDrop ha' =>
      rw [signalElementAvail_ack]
      rw [ha'] at ih
      exact insertions_append_ne_nil ih _
    | ackSleep ha' | pointers ha' | ackWoken ha' | batchFirst ha' | batchRead ha'
    | batchOld ha' | batchPast ha' | batchDone ha' =>
      rw [ha'] at ih
      cases ih
  · exact fun _ _ _ _ _ ih => ih.mono _

/-- With the first or the last tail the loops of a call that reaches them are not exact. -/
theorem not_loops_exact (cfg : Config) {s : Radio} {hd tl : Nat} (ha : s.ack = .gotPointers hd tl)
    (hhigh : s.batch_info.highest_decoded_seq < 2 ^ 32) (hr : ReachesLoops s hd tl)
    (htl : tl = 0 ∨ tl + 1 = 2 ^ 32) : ¬LoopsExact cfg hd tl s := by
  intro hexact
  obtain ⟨t, log, h, hfree⟩ := exists_elementsFree cfg ha hr
  obtain ⟨u, log', hu, hidle⟩ := (hexact.returns t log h).2 hfree
  rcases htl with rfl | htl
  · have hfail := hu.failsAssert ha hr
    rw [hidle] at hfail
    cases hfail
  · have hne := hu.startsAtZero ha hr htl
    rw [hidle] at hne
    apply hne
    rw [(hexact.exact u _ hu hidle).2]
    have hle : callEnd s tl ≤ tl := by
      unfold callEnd
      split <;> omega
    unfold pastTail
    rw [Nat.sub_eq_zero_of_le hle, List.range'_zero]

/-- Up to the last number, the loop past the tail never ends: each step inserts a number
and stays in the loop. -/
theorem extra_never_ends (cfg : Config) {s : Radio} {i : Nat} {ns : List Nat}
    (ha : s.ack = .extra i (2 ^ 32 - 1) ns) (hi : i < 2 ^ 32) (n : Nat) :
    ∃ t j ns', exec (radio cfg) s (List.replicate n .ack) = some (t, []) ∧
      t.ack = .extra j (2 ^ 32 - 1) ns' ∧ ns'.length = ns.length + n := by
  induction n generalizing s i ns with
  | zero => exact ⟨s, i, ns, rfl, ha, rfl⟩
  | succ n ih =>
    have hone := exec_ack ha nofun (@Move.extra cfg s i _ ns ha (by omega))
    obtain ⟨t, j, ns', hexec, ht, hlen⟩ := ih (s := { s with
      ack := .extra (add32 i 1) (2 ^ 32 - 1) (ns ++ [i]) }) rfl (add32_lt i 1)
    refine ⟨t, j, ns', exec_append hone hexec, ht, ?_⟩
    rw [hlen, List.length_append, List.length_singleton]
    omega

end wspace_client.threads

namespace wspace_client.feed

open machine bytes code_header rcv_ath
open threads (Radio ReachesLoops LoopsExact)

/-- The number before a batch is below the last number. -/
theorem agrees_le {b h : Nat} {r : RcvAth} {todo : List Event} (ha : Agrees b h r todo) :
    h ≤ r.start_seq - 1 := by
  induction todo generalizing b h with
  | nil => exact Nat.le_of_eq ha.2
  | cons e todo ih =>
    cases e with
    | setBatchInfo =>
      obtain ⟨-, -, hle, -, ha⟩ := ha
      exact Nat.le_trans hle (ih ha)
    | setDecodingDone => exact ih ha.2
    | _ => exact ih ha

theorem Sync.highest {s : Feed} (h : Sync s) :
    s.radio.batch_info.highest_decoded_seq + 1 < 2 ^ 32 := by
  have hle := agrees_le h.agrees
  have hlt := h.start_lt
  omega

/-- In every run, the loops of a call that read the pointers are exact, and the call
returns, just when the tail is neither 0 nor the last number, or the call returns before
its loops. -/
theorem loops_are_exact_iff {cfg : threads.Config} {acfg : Config}
    {ok : List threads.Event → Feed → FeedLabel → Prop} {s : Feed} {tr : List threads.Event}
    (r : Run (downlink cfg acfg) ok s tr) {hd tl : Nat} (ha : s.radio.ack = .gotPointers hd tl) :
    LoopsExact cfg hd tl s.radio ↔
      (0 < tl ∧ tl + 1 < 2 ^ 32) ∨ ¬ReachesLoops s.radio hd tl := by
  obtain ⟨log, hlog, -⟩ := r.log
  obtain ⟨hsync, hrun, -⟩ := @run_feed _ _ anyStep _ _ (hlog.mono fun _ _ _ _ _ _ => trivial)
  have hhigh := hsync.highest
  refine ⟨fun hexact => ?_, fun h => ?_⟩
  · -- The tail that the call read is a `uint32`.
    obtain ⟨-, hloc⟩ := threads.run_ackLocal
      (hrun.forget fun _ _ _ h => feed.seqFits_of_rcvCalls h.1)
    rw [ha] at hloc
    obtain ⟨hwin, hsnap⟩ := hloc
    have htl : tl < 2 ^ 32 := by
      have hlt := hwin.tail_lt
      rwa [hsnap] at hlt
    by_contra hno
    push Not at hno
    exact threads.not_loops_exact cfg ha (by omega) hno.2 (by omega) hexact
  · by_cases hr : ReachesLoops s.radio hd tl
    · obtain ⟨h0, htl⟩ := h.resolve_right (not_not_intro hr)
      exact threads.loops_exact_of_reaches cfg ha hhigh hr h0 htl
    · exact threads.loops_exact_of_early cfg ha hr

/-- Batch 1 is the packet 1, and a call has read the pointers. -/
def readPointers : List FeedLabel :=
  packet (header 1 1 0 1 1) ::
    (List.replicate 4 .next ++ List.replicate 3 (.other (.prod .rcvAth .ath)) ++ [.next] ++
      List.replicate 2 (.other .ack))

theorem the_loops_of_a_first_ack : ∃ s tr, Run (downlink ⟨25, 500⟩ ⟨1, 1, 36⟩) anyStep s tr ∧
    s.radio.ack = .gotPointers 0 1 ∧ LoopsExact ⟨25, 500⟩ 0 1 s.radio := by
  obtain ⟨s, tr, r, hb⟩ := run_of_check (downlink ⟨25, 500⟩ ⟨1, 1, 36⟩) anyStep readPointers
    (fun x => decide (x.1.radio.ack = .gotPointers 0 1)) atStart_fresh (execOk_any _ _ _)
    (by decide +kernel)
  have ha := of_decide_eq_true hb
  exact ⟨s, tr, r, ha, (loops_are_exact_iff r ha).mpr (.inl (by decide))⟩

/-- Batch 1 is the last number, and a call has read the pointers. -/
def lastNumber : List FeedLabel :=
  packet (header 1 4294967295 0 1 1) ::
    (List.replicate 4 .next ++ [.other (.prod .rcvAth .ath), .next] ++
      List.replicate 2 (.other .ack))

/-- The batch is done, so the loop past the tail goes up to the last number. -/
theorem a_last_number_never_ends : ¬∀ (cfg : threads.Config) (acfg : Config) (s : Feed)
    (tr : List threads.Event), Run (downlink cfg acfg) anyStep s tr →
      ∀ hd tl, s.radio.ack = .gotPointers hd tl → LoopsExact cfg hd tl s.radio := by
  intro hall
  obtain ⟨s, tr, r, hb⟩ := run_of_check (downlink ⟨25, 500⟩ ⟨1, 1, 36⟩) anyStep lastNumber
    (fun x => decide (x.1.radio.ack = .gotPointers (2 ^ 32 - 2) (2 ^ 32 - 1)) &&
      threads.doneNow x.1.radio &&
      decide (x.1.radio.batch_info.highest_decoded_seq < 2 ^ 32)) atStart_fresh
    (execOk_any _ _ _) (by decide +kernel)
  simp only [Bool.and_eq_true, decide_eq_true_eq] at hb
  obtain ⟨⟨ha, hdone⟩, hhigh⟩ := hb
  exact threads.not_loops_exact ⟨25, 500⟩ ha hhigh (.inl hdone) (.inr (by decide))
    (hall _ _ s tr r _ _ ha)

end wspace_client.feed

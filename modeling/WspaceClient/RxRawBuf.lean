-- `RxRawBuf`: which raw packets were lost, and how often each was reported.
-- Every report tiles the sequence space: it starts where the last one ended.
import WspaceClient.Machine
import WspaceClient.Words
import Mathlib.Data.List.TakeWhile

namespace wspace_client.rx_raw_buf

open machine

def ACK_WINDOW : Nat := 500

/-- A lost packet, with the number of acknowledgements that it was in. -/
structure RawPktRcvStatus where
  seq : Nat
  send_cnt : Nat
  deriving DecidableEq

structure RxRawBuf where
  nack_deq : List RawPktRcvStatus
  end_seq : Nat
  max_send_cnt : Nat
  pkt_cnt : Nat

/-- The buffer as its constructor and `set_max_send_cnt` leave it. -/
def start (max_send_cnt : Nat) : RxRawBuf := ⟨[], 0, max_send_cnt, 0⟩

/-- The capacity test of `PushPkts`. -/
def fits (b : RxRawBuf) (cur_seq : Nat) : Bool :=
  decide (sub32 cur_seq b.end_seq ≤ sub32 ACK_WINDOW b.pkt_cnt)

/-- The numbers between two packets, which were lost. -/
def holes (end_seq cur_seq : Nat) : List Nat := List.range' (end_seq + 1) (cur_seq - end_seq - 1)

def pushPkts (b : RxRawBuf) (cur_seq : Nat) (is_cur_good : Bool) : Bool × RxRawBuf :=
  if cur_seq ≤ b.end_seq then (false, b)
  else
    let b1 :=
      if fits b cur_seq then
        { b with
          nack_deq := b.nack_deq ++ (holes b.end_seq cur_seq).map fun i => ⟨i, 0⟩
          pkt_cnt := add32 b.pkt_cnt (sub32 cur_seq b.end_seq) }
      else { b with nack_deq := [], pkt_cnt := 1 }
    let b2 := if is_cur_good then b1 else { b1 with nack_deq := b1.nack_deq ++ [⟨cur_seq, 0⟩] }
    (true, { b2 with end_seq := cur_seq })

/-- `send_cnt_` is a `uint8`. -/
def sent (e : RawPktRcvStatus) : RawPktRcvStatus := { e with send_cnt := (e.send_cnt + 1) % 2 ^ 8 }

/-- `PopPktStatus`, past its wait: the lost numbers, the highest number and the
number of packets that it counts, which is a `uint16`. -/
def popPktStatus (b : RxRawBuf) : (List Nat × Nat × Nat) × RxRawBuf :=
  ((b.nack_deq.map (·.seq), b.end_seq, b.pkt_cnt % 2 ^ 16),
    { b with
      nack_deq := (b.nack_deq.map sent).dropWhile fun e => e.send_cnt = b.max_send_cnt
      pkt_cnt := 0 })

/-! ## Runs of the buffer -/

inductive Label
  | push (cur_seq : Nat) (is_cur_good : Bool) (h : cur_seq < 2 ^ 32)
  | pop (min_pkt_cnt : Nat)

inductive Event
  /-- `PushPkts` returned true; `fit` tells whether the capacity test passed. -/
  | pushed (seq : Nat) (good fit : Bool)
  /-- `PopPktStatus` returned. -/
  | popped (seq_vec : List Nat) (good_seq num_pkts : Nat)
  deriving DecidableEq

/-- One call. `PopPktStatus` waits for `min_pkt_cnt` packets. -/
def step (b : RxRawBuf) : Label → Option (RxRawBuf × List Event)
  | .push cur_seq is_cur_good _ =>
    let (ok, b') := pushPkts b cur_seq is_cur_good
    some (b', if ok then [.pushed cur_seq is_cur_good (fits b cur_seq)] else [])
  | .pop min_pkt_cnt =>
    if b.pkt_cnt < min_pkt_cnt then none
    else
      let ((seq_vec, good_seq, num_pkts), b') := popPktStatus b
      some (b', [.popped seq_vec good_seq num_pkts])

def rawBuf (max_send_cnt : Nat) : Machine RxRawBuf Label Event where
  init b := b = start max_send_cnt
  step := step

/-- The ways a call can go. -/
inductive Call (b : RxRawBuf) : Label → RxRawBuf → List Event → Prop
  /-- The packet is not past the last one. -/
  | stale {cur_seq : Nat} {good : Bool} {hfit : cur_seq < 2 ^ 32} (hle : cur_seq ≤ b.end_seq) :
      Call b (.push cur_seq good hfit) b []
  | push {cur_seq : Nat} {good : Bool} {hfit : cur_seq < 2 ^ 32} (hlt : b.end_seq < cur_seq) :
      Call b (.push cur_seq good hfit) (pushPkts b cur_seq good).2
        [.pushed cur_seq good (fits b cur_seq)]
  | pop {min_pkt_cnt : Nat} (hmin : min_pkt_cnt ≤ b.pkt_cnt) :
      Call b (.pop min_pkt_cnt) (popPktStatus b).2
        [.popped (b.nack_deq.map (·.seq)) b.end_seq (b.pkt_cnt % 2 ^ 16)]

theorem step_call {b b' : RxRawBuf} {l : Label} {out : List Event}
    (hs : step b l = some (b', out)) : Call b l b' out := by
  cases l with
  | push cur_seq good hfit =>
    simp only [step, Option.some.injEq, Prod.mk.injEq] at hs
    by_cases hle : cur_seq ≤ b.end_seq
    · have hp : pushPkts b cur_seq good = (false, b) := if_pos hle
      rw [hp] at hs
      obtain ⟨rfl, rfl⟩ := hs
      exact .stale hle
    · have hp : (pushPkts b cur_seq good).1 = true := by simp [pushPkts, hle]
      rw [hp] at hs
      obtain ⟨rfl, rfl⟩ := hs
      exact .push (Nat.lt_of_not_le hle)
  | pop min_pkt_cnt =>
    simp only [step] at hs
    split at hs
    · cases hs
    · rename_i hmin
      cases hs
      exact .pop (Nat.le_of_not_lt hmin)

/-! ## The history of a run -/

/-- The last packet that was accepted, and the lost numbers of each round
between two reports, newest round first. An overflow forgets every round. -/
structure History where
  last : Nat
  rounds : List (List Nat)

def History.lost (h : History) (qs : List Nat) : List (List Nat) :=
  match h.rounds with
  | [] => [qs]
  | r :: rs => (r ++ qs) :: rs

def History.after (h : History) : Event → History
  | .pushed q good true => ⟨q, h.lost (holes h.last q ++ if good then [] else [q])⟩
  | .pushed q good false => ⟨q, [if good then [] else [q]]⟩
  | .popped _ _ _ => ⟨h.last, [] :: h.rounds⟩

def history (tr : List Event) : History := tr.foldl History.after ⟨0, [[]]⟩

/-- The numbers of every report. -/
def reported (tr : List Event) : List Nat :=
  tr.flatMap fun | .popped v _ _ => v | _ => []

/-- The numbers that `PushPkts` accepted as good. -/
def accepted (tr : List Event) : List Nat :=
  tr.flatMap fun | .pushed q true _ => [q] | _ => []

/-- The end of the last report, unless the capacity test failed since. -/
def lastEnd (tr : List Event) : Option Nat :=
  tr.foldl (fun g e => match e with
    | .popped _ g' _ => some g'
    | .pushed _ _ fit => if fit then g else none) none

/-- The entries of the rounds that were reported fewer than `m` times, oldest
first. The newest of these rounds was reported `age` times. -/
def outstanding (m : Nat) : Nat → List (List Nat) → List RawPktRcvStatus
  | _, [] => []
  | age, r :: rs =>
    if age < m then outstanding m (age + 1) rs ++ r.map fun q => ⟨q, age⟩ else []

theorem outstanding_of_ge {m age : Nat} (h : m ≤ age) (rs : List (List Nat)) :
    outstanding m age rs = [] := by
  cases rs with
  | nil => rfl
  | cons r rs => simp [outstanding, Nat.not_lt.mpr h]

theorem mem_outstanding {m age q : Nat} {rs : List (List Nat)}
    (h : q ∈ (outstanding m age rs).map (·.seq)) : ∃ r ∈ rs, q ∈ r := by
  induction rs generalizing age with
  | nil => simp [outstanding] at h
  | cons r rs ih =>
    unfold outstanding at h
    split at h
    · simp only [List.map_append, List.map_map, List.mem_append] at h
      rcases h with h | h
      · obtain ⟨r', hr', hq⟩ := ih h
        exact ⟨r', List.mem_cons_of_mem _ hr', hq⟩
      · exact ⟨r, List.mem_cons_self, by simpa [Function.comp_def] using h⟩
    · simp at h

theorem dropWhile_of_forall_not {α : Type} {p : α → Bool} {l : List α} (h : ∀ a ∈ l, ¬p a = true) :
    l.dropWhile p = l := by
  cases l with
  | nil => rfl
  | cons a l => simp [h a List.mem_cons_self]

/-- A report raises every count, and forgets the round whose count is full. -/
theorem outstanding_reported {m : Nat} (hm : m < 2 ^ 8) (age : Nat) (rs : List (List Nat)) :
    ((outstanding m age rs).map sent).dropWhile (fun e => e.send_cnt = m) =
      outstanding m (age + 1) rs := by
  induction rs generalizing age with
  | nil => rfl
  | cons r rs ih =>
    by_cases hage : age < m
    · have hsent : (r.map fun q => (⟨q, age⟩ : RawPktRcvStatus)).map sent =
          r.map fun q => ⟨q, age + 1⟩ := by
        simp only [List.map_map]
        refine List.map_congr_left fun q _ => ?_
        have hlt : (age + 1) % 2 ^ 8 = age + 1 := Nat.mod_eq_of_lt (by omega)
        simp only [Function.comp_apply, sent, hlt]
      rw [outstanding, if_pos hage, List.map_append, hsent]
      by_cases hnext : age + 1 < m
      · -- The newer round keeps its entries, so only the older ones are cut.
        have hkeep : ∀ e ∈ r.map (fun q => (⟨q, age + 1⟩ : RawPktRcvStatus)),
            ¬decide (e.send_cnt = m) = true := by
          intro e he
          obtain ⟨q, -, rfl⟩ := List.mem_map.mp he
          simp only [decide_eq_true_eq]
          omega
        have hstop : (r.map fun q => (⟨q, age + 1⟩ : RawPktRcvStatus)).dropWhile
            (fun e => e.send_cnt = m) = r.map fun q => ⟨q, age + 1⟩ :=
          dropWhile_of_forall_not hkeep
        rw [outstanding, if_pos hnext, ← ih (age + 1), List.dropWhile_append, hstop]
        split
        · rename_i hnil
          rw [List.isEmpty_iff] at hnil
          rw [hnil, List.nil_append]
        · rfl
      · have hm' : age + 1 = m := by omega
        rw [outstanding_of_ge (by omega), outstanding_of_ge (by omega), List.map_nil,
          List.nil_append, List.dropWhile_eq_nil_iff]
        intro e he
        obtain ⟨q, -, rfl⟩ := List.mem_map.mp he
        exact decide_eq_true hm'
    · rw [outstanding_of_ge (by omega), outstanding_of_ge (by omega)]
      rfl

/-! ## The history after one more event -/

theorem history_snoc (tr : List Event) (e : Event) :
    history (tr ++ [e]) = (history tr).after e := by simp [history]

theorem lastEnd_snoc_pushed (tr : List Event) (q : Nat) (good fit : Bool) :
    lastEnd (tr ++ [.pushed q good fit]) = if fit then lastEnd tr else none := by simp [lastEnd]

theorem lastEnd_snoc_popped (tr : List Event) (v : List Nat) (g n : Nat) :
    lastEnd (tr ++ [.popped v g n]) = some g := by simp [lastEnd]

theorem accepted_append (xs ys : List Event) :
    accepted (xs ++ ys) = accepted xs ++ accepted ys := by
  simp [accepted]

/-! ## The invariant -/

/-- The numbers that the next report counts and that did not come as good. -/
def fresh (b : RxRawBuf) (tr : List Event) : List Nat :=
  (List.range' (b.end_seq - b.pkt_cnt + 1) b.pkt_cnt).filter fun q => q ∉ accepted tr

structure Tracked (m : Nat) (b : RxRawBuf) (tr : List Event) : Prop where
  max : b.max_send_cnt = m
  cnt_window : b.pkt_cnt ≤ ACK_WINDOW
  cnt_end : b.pkt_cnt ≤ b.end_seq
  end_lt : b.end_seq < 2 ^ 32
  last : (history tr).last = b.end_seq
  deq : b.nack_deq = outstanding m 0 (history tr).rounds
  /-- The newest round is what is fresh, and the older ones were reported. -/
  rounds : ∃ older, (history tr).rounds = fresh b tr :: older ∧
    ∀ r ∈ older, ∀ q ∈ r, q ∈ reported tr
  reported_le : ∀ q ∈ reported tr, q ≤ b.end_seq - b.pkt_cnt
  accepted_le : ∀ q ∈ accepted tr, q ≤ b.end_seq
  base : ∀ g, lastEnd tr = some g → b.end_seq - b.pkt_cnt = g

theorem start_tracked (m : Nat) : Tracked m (start m) [] := by
  refine ⟨rfl, Nat.zero_le _, Nat.zero_le _, Nat.two_pow_pos 32, rfl, ?_,
    ⟨[], rfl, by simp⟩, ?_, ?_,
    ?_⟩
  · simp [start, history, outstanding]
  · simp [reported]
  · simp [accepted]
  · simp [lastEnd]

/-- With the counts in their ranges, the capacity test is the exact one. -/
theorem fits_iff {b : RxRawBuf} {cur_seq : Nat} (hw : b.pkt_cnt ≤ ACK_WINDOW)
    (he : b.end_seq < cur_seq) (hlt : cur_seq < 2 ^ 32) :
    fits b cur_seq ↔ b.pkt_cnt + (cur_seq - b.end_seq) ≤ ACK_WINDOW := by
  have hW : ACK_WINDOW < 2 ^ 32 := by decide
  rw [fits, decide_eq_true_eq, sub32_of_le (by omega) hlt, sub32_of_le hw hW]
  omega

theorem not_mem_accepted {b : RxRawBuf} {tr : List Event} {q : Nat}
    (hacc : ∀ q ∈ accepted tr, q ≤ b.end_seq) (hq : b.end_seq < q) : q ∉ accepted tr := by
  intro h
  have := hacc q h
  omega

theorem accepted_pushed (tr : List Event) (q : Nat) (good fit : Bool) :
    accepted (tr ++ [.pushed q good fit]) = accepted tr ++ if good then [q] else [] := by
  cases good <;> simp [accepted]

/-- The packet of a push is fresh, unless it came as good. -/
theorem filter_cur {b : RxRawBuf} {tr : List Event} {cur_seq : Nat} (good fit : Bool)
    (hacc : ∀ q ∈ accepted tr, q ≤ b.end_seq) (he : b.end_seq < cur_seq) :
    [cur_seq].filter (fun q => q ∉ accepted (tr ++ [.pushed cur_seq good fit])) =
      if good then [] else [cur_seq] := by
  have hnot := not_mem_accepted hacc he
  cases good <;> simp [accepted_pushed, hnot]

theorem fresh_push_fits {b b' : RxRawBuf} {tr : List Event} {cur_seq : Nat} {good : Bool}
    (hcnt : b.pkt_cnt ≤ b.end_seq) (hacc : ∀ q ∈ accepted tr, q ≤ b.end_seq)
    (he : b.end_seq < cur_seq) (he' : b'.end_seq = cur_seq)
    (hc' : b'.pkt_cnt = b.pkt_cnt + (cur_seq - b.end_seq)) :
    fresh b' (tr ++ [.pushed cur_seq good true]) =
      fresh b tr ++ (holes b.end_seq cur_seq ++ if good then [] else [cur_seq]) := by
  have hbase : b'.end_seq - b'.pkt_cnt = b.end_seq - b.pkt_cnt := by omega
  have hnew : List.range' (b.end_seq + 1) (cur_seq - b.end_seq) =
      holes b.end_seq cur_seq ++ [cur_seq] := by
    have hlen : cur_seq - b.end_seq = cur_seq - b.end_seq - 1 + 1 := by omega
    rw [hlen, List.range'_1_concat, holes]
    congr 2
    omega
  have hsplit : List.range' (b.end_seq - b.pkt_cnt + 1) b'.pkt_cnt =
      List.range' (b.end_seq - b.pkt_cnt + 1) b.pkt_cnt ++
        (holes b.end_seq cur_seq ++ [cur_seq]) := by
    rw [hc', ← hnew, ← List.range'_append_1]
    congr 2
    omega
  rw [fresh, hbase, hsplit, List.filter_append, List.filter_append,
    filter_cur good true hacc he, fresh]
  congr 1
  · refine List.filter_congr fun q hq => ?_
    rw [List.mem_range'_1] at hq
    have hqc : q ≠ cur_seq := by omega
    cases good <;> simp [accepted_pushed, hqc]
  · congr 1
    rw [List.filter_eq_self]
    intro q hq
    rw [holes, List.mem_range'_1] at hq
    have hnot := not_mem_accepted hacc (show b.end_seq < q by omega)
    have hqc : q ≠ cur_seq := by omega
    cases good <;> simp [accepted_pushed, hnot, hqc]

theorem fresh_push_full {b b' : RxRawBuf} {tr : List Event} {cur_seq : Nat} {good : Bool}
    (hacc : ∀ q ∈ accepted tr, q ≤ b.end_seq) (he : b.end_seq < cur_seq)
    (he' : b'.end_seq = cur_seq) (hc' : b'.pkt_cnt = 1) :
    fresh b' (tr ++ [.pushed cur_seq good false]) = if good then [] else [cur_seq] := by
  have hone : cur_seq - 1 + 1 = cur_seq := by omega
  rw [fresh, he', hc', hone]
  exact filter_cur good false hacc he

/-! ## Every call keeps it -/

/-- A push that fits adds its holes, and itself unless it came as good. -/
theorem pushPkts_of_fits {b : RxRawBuf} {cur_seq : Nat} (good : Bool) (hw : b.pkt_cnt ≤ ACK_WINDOW)
    (he : b.end_seq < cur_seq) (hlt : cur_seq < 2 ^ 32) (hfit : fits b cur_seq) :
    (pushPkts b cur_seq good).2 = { b with
      nack_deq := b.nack_deq ++
        (holes b.end_seq cur_seq ++ if good then [] else [cur_seq]).map fun i => ⟨i, 0⟩
      pkt_cnt := b.pkt_cnt + (cur_seq - b.end_seq)
      end_seq := cur_seq } := by
  have hsum := (fits_iff hw he hlt).mp hfit
  have hsub : sub32 cur_seq b.end_seq = cur_seq - b.end_seq := sub32_of_le (by omega) hlt
  have hadd : add32 b.pkt_cnt (cur_seq - b.end_seq) = b.pkt_cnt + (cur_seq - b.end_seq) :=
    add32_of_lt (by simp only [ACK_WINDOW] at hsum; omega)
  simp only [pushPkts, Nat.not_le.mpr he, hfit, if_true, if_false, hsub, hadd]
  cases good <;> simp

/-- A push that does not fit starts the buffer again. -/
theorem pushPkts_of_full {b : RxRawBuf} {cur_seq : Nat} (good : Bool) (he : b.end_seq < cur_seq)
    (hfit : ¬fits b cur_seq) :
    (pushPkts b cur_seq good).2 = { b with
      nack_deq := (if good then [] else [cur_seq]).map fun i => ⟨i, 0⟩
      pkt_cnt := 1
      end_seq := cur_seq } := by
  simp only [pushPkts, Nat.not_le.mpr he, hfit, if_false]
  cases good <;> simp

theorem push_tracked {m : Nat} {b : RxRawBuf} {tr : List Event} {cur_seq : Nat} {good : Bool}
    (hm : 0 < m) (h : Tracked m b tr) (hlt : cur_seq < 2 ^ 32) (he : b.end_seq < cur_seq) :
    Tracked m (pushPkts b cur_seq good).2 (tr ++ [.pushed cur_seq good (fits b cur_seq)]) := by
  have hw := h.cnt_window
  have hce := h.cnt_end
  obtain ⟨older, hrounds, holder⟩ := h.rounds
  have hrep : ∀ fit, reported (tr ++ [.pushed cur_seq good fit]) = reported tr := by
    intro fit
    simp [reported]
  have hacc : ∀ fit, ∀ q ∈ accepted (tr ++ [.pushed cur_seq good fit]), q ≤ cur_seq := by
    intro fit q hq
    rw [accepted_pushed, List.mem_append] at hq
    rcases hq with hq | hq
    · have := h.accepted_le q hq
      omega
    · cases good <;> simp at hq
      omega
  by_cases hfit : fits b cur_seq
  · have hsum := (fits_iff hw he hlt).mp hfit
    rw [pushPkts_of_fits good hw he hlt hfit, hfit]
    refine ⟨h.max, hsum, ?_, hlt, ?_, ?_, ⟨older, ?_, ?_⟩, ?_, hacc _, ?_⟩
    · change b.pkt_cnt + (cur_seq - b.end_seq) ≤ cur_seq
      omega
    · rw [history_snoc]
      rfl
    · rw [history_snoc]
      simp only [History.after, History.lost, hrounds, h.last]
      rw [h.deq, hrounds, outstanding, outstanding, if_pos hm, if_pos hm]
      simp only [List.map_append, List.append_assoc]
    · rw [fresh_push_fits hce h.accepted_le he rfl rfl, history_snoc]
      simp only [History.after, History.lost, hrounds, h.last]
    · rw [hrep]
      exact holder
    · rw [hrep]
      intro q hq
      have := h.reported_le q hq
      change q ≤ cur_seq - (b.pkt_cnt + (cur_seq - b.end_seq))
      omega
    · intro g hg
      rw [lastEnd_snoc_pushed, if_pos rfl] at hg
      have := h.base g hg
      change cur_seq - (b.pkt_cnt + (cur_seq - b.end_seq)) = g
      omega
  · rw [pushPkts_of_full good he hfit]
    rw [Bool.not_eq_true] at hfit
    rw [hfit]
    refine ⟨h.max, (by decide : 1 ≤ ACK_WINDOW), ?_, hlt, ?_, ?_, ⟨[], ?_, by simp⟩, ?_, hacc _, ?_⟩
    · change 1 ≤ cur_seq
      omega
    · rw [history_snoc]
      rfl
    · rw [history_snoc]
      simp only [History.after, outstanding, if_pos hm, List.nil_append]
    · rw [fresh_push_full h.accepted_le he rfl rfl, history_snoc]
      rfl
    · rw [hrep]
      intro q hq
      have := h.reported_le q hq
      change q ≤ cur_seq - 1
      omega
    · intro g hg
      rw [lastEnd_snoc_pushed] at hg
      cases hg

theorem pop_tracked {m : Nat} {b : RxRawBuf} {tr : List Event} (hm : 0 < m) (hm' : m < 2 ^ 8)
    (h : Tracked m b tr) :
    Tracked m (popPktStatus b).2
      (tr ++ [.popped (b.nack_deq.map (·.seq)) b.end_seq (b.pkt_cnt % 2 ^ 16)]) := by
  have hw := h.cnt_window
  have hce := h.cnt_end
  obtain ⟨older, hrounds, holder⟩ := h.rounds
  have hmem : ∀ q ∈ b.nack_deq.map (·.seq), q ≤ b.end_seq := by
    intro q hq
    rw [h.deq] at hq
    obtain ⟨r, hr, hqr⟩ := mem_outstanding hq
    rw [hrounds, List.mem_cons] at hr
    rcases hr with rfl | hr
    · rw [fresh, List.mem_filter, List.mem_range'_1] at hqr
      omega
    · have := h.reported_le q (holder r hr q hqr)
      omega
  have hrep : ∀ v g n, reported (tr ++ [.popped v g n]) = reported tr ++ v := by
    intro v g n
    simp [reported]
  refine ⟨h.max, Nat.zero_le _, Nat.zero_le _, h.end_lt, ?_, ?_, ?_, ?_, ?_, ?_⟩
  · rw [history_snoc]
    exact h.last
  · rw [history_snoc]
    change (b.nack_deq.map sent).dropWhile _ = outstanding m 0 ([] :: (history tr).rounds)
    rw [h.deq, h.max, outstanding_reported hm', outstanding, if_pos hm, List.map_nil,
      List.append_nil]
  · refine ⟨(history tr).rounds, ?_, ?_⟩
    · rw [history_snoc]
      rfl
    · intro r hr q hq
      rw [hrep, List.mem_append]
      rw [hrounds, List.mem_cons] at hr
      rcases hr with rfl | hr
      · right
        rw [h.deq, hrounds, outstanding, if_pos hm, List.map_append, List.mem_append]
        right
        simpa [Function.comp_def] using hq
      · exact .inl (holder r hr q hq)
  · intro q hq
    rw [hrep, List.mem_append] at hq
    change q ≤ b.end_seq - 0
    rcases hq with hq | hq
    · have := h.reported_le q hq
      omega
    · exact hmem q hq
  · intro q hq
    apply h.accepted_le q
    simpa [accepted] using hq
  · intro g hg
    rw [lastEnd_snoc_popped, Option.some.injEq] at hg
    exact hg

theorem step_tracked {m : Nat} {b b' : RxRawBuf} {l : Label} {tr out : List Event} (hm : 0 < m)
    (hm' : m < 2 ^ 8) (h : Tracked m b tr) (hs : step b l = some (b', out)) :
    Tracked m b' (tr ++ out) := by
  cases step_call hs with
  | stale => simpa using h
  | @push cur_seq good hfit hlt => exact push_tracked hm h hfit hlt
  | pop => exact pop_tracked hm hm' h

theorem run_tracked {m : Nat} {ok : List Event → RxRawBuf → Label → Prop} {b : RxRawBuf}
    {tr : List Event} (hm : 0 < m) (hm' : m < 2 ^ 8) (r : Run (rawBuf m) ok b tr) :
    Tracked m b tr := by
  refine r.invariant (Tracked m) ?_ (fun _ _ _ _ _ _ h _ hs => step_tracked hm hm' h hs)
  rintro b rfl
  exact start_tracked m

/-! ## The laws of the reports -/

/-- A report comes from a call on the buffer that the events before it left. -/
theorem report_split {m : Nat} {ok : List Event → RxRawBuf → Label → Prop} {b : RxRawBuf}
    {tr pre post : List Event} {v : List Nat} {g n : Nat} (r : Run (rawBuf m) ok b tr)
    (htr : tr = pre ++ .popped v g n :: post) :
    ∃ b' min, Run (rawBuf m) ok b' pre ∧ ok pre b' (.pop min) ∧ min ≤ b'.pkt_cnt ∧
      v = b'.nack_deq.map (·.seq) ∧ g = b'.end_seq ∧ n = b'.pkt_cnt % 2 ^ 16 := by
  obtain ⟨b', tr', l, t, xs, ys, r', hok, hs, rfl⟩ := r.split htr
  generalize hout : xs ++ Event.popped v g n :: ys = out at hs
  cases step_call hs with
  | stale => simp at hout
  | push => cases xs <;> simp at hout
  | @pop min_pkt_cnt hmin =>
    cases xs with
    | nil =>
      simp only [List.nil_append, List.cons.injEq, Event.popped.injEq] at hout
      obtain ⟨⟨rfl, rfl, rfl⟩, -⟩ := hout
      exact ⟨b', min_pkt_cnt, by simpa using r', by simpa using hok, hmin, rfl, rfl, rfl⟩
    | cons x xs => simp at hout

/-- The capacity test of the push failed. -/
def Event.isOverflow : Event → Bool
  | .pushed _ _ fit => !fit
  | .popped _ _ _ => false

def Event.isReport : Event → Bool
  | .pushed _ _ _ => false
  | .popped _ _ _ => true

theorem lastEnd_after (tr mid : List Event) (v : List Nat) (g n : Nat)
    (h : ∀ e ∈ mid, e.isReport = false ∧ e.isOverflow = false) :
    lastEnd (tr ++ .popped v g n :: mid) = some g := by
  rw [lastEnd, List.foldl_append, List.foldl_cons]
  simp only
  induction mid with
  | nil => rfl
  | cons e mid ih =>
    obtain ⟨hr, ho⟩ := h e List.mem_cons_self
    have ih := ih fun x hx => h x (List.mem_cons_of_mem _ hx)
    cases e with
    | pushed q good fit =>
      simp only [Event.isOverflow, Bool.not_eq_eq_eq_not, Bool.not_false] at ho
      rw [List.foldl_cons]
      simpa [ho] using ih
    | popped v g n => cases hr

/-- What a report lists for the first time is what is fresh. -/
theorem first_reports {m : Nat} {b : RxRawBuf} {tr : List Event} (hm : 0 < m)
    (h : Tracked m b tr) :
    (b.nack_deq.map (·.seq)).filter (fun q => q ∉ reported tr) = fresh b tr := by
  obtain ⟨older, hrounds, holder⟩ := h.rounds
  have hold : ((outstanding m 1 older).map (·.seq)).filter (fun q => q ∉ reported tr) = [] := by
    rw [List.filter_eq_nil_iff]
    intro q hq
    obtain ⟨r, hr, hqr⟩ := mem_outstanding hq
    simpa using holder r hr q hqr
  have hnew : (fresh b tr).filter (fun q => q ∉ reported tr) = fresh b tr := by
    rw [List.filter_eq_self]
    intro q hq
    rw [fresh, List.mem_filter, List.mem_range'_1] at hq
    have hnot : q ∉ reported tr := by
      intro hrep
      have := h.reported_le q hrep
      omega
    simpa using hnot
  rw [h.deq, hrounds, outstanding, if_pos hm, List.map_append, List.filter_append, hold,
    List.nil_append, List.map_map]
  simpa [Function.comp_def] using hnew

/-- The counts stay in range; each report lists for the first time, in order,
the numbers that it counts and that did not come as good; and it starts where
the last report ended, unless the capacity test failed in between. -/
theorem raw_acks_tile_the_sequence_space {m : Nat} (hm : 1 ≤ m) (hm' : m ≤ 255) {b : RxRawBuf}
    {tr : List Event} (r : Run (rawBuf m) anyStep b tr) :
    (b.pkt_cnt ≤ ACK_WINDOW ∧ b.pkt_cnt ≤ b.end_seq) ∧
    (∀ pre v g n post, tr = pre ++ .popped v g n :: post →
      n ≤ g ∧ (v.filter (fun q => q ∉ reported pre)).Pairwise (· < ·) ∧
      ∀ q, q ∈ v ∧ q ∉ reported pre ↔ g - n < q ∧ q ≤ g ∧ q ∉ accepted pre) ∧
    (∀ pre v' g' n' mid v g n post,
      tr = pre ++ .popped v' g' n' :: (mid ++ .popped v g n :: post) →
      (∀ e ∈ mid, e.isReport = false ∧ e.isOverflow = false) → g - n = g') := by
  have hlt : m < 2 ^ 8 := by omega
  have hcnt : ∀ b tr, Run (rawBuf m) anyStep b tr → b.pkt_cnt % 2 ^ 16 = b.pkt_cnt := by
    intro b tr r
    have := (run_tracked hm hlt r).cnt_window
    exact Nat.mod_eq_of_lt (by simp only [ACK_WINDOW] at this; omega)
  refine ⟨⟨(run_tracked hm hlt r).cnt_window, (run_tracked hm hlt r).cnt_end⟩, ?_, ?_⟩
  · intro pre v g n post htr
    obtain ⟨b', min, r', -, -, rfl, rfl, rfl⟩ := report_split r htr
    have h := run_tracked hm hlt r'
    have hce := h.cnt_end
    have hfirst := first_reports hm h
    rw [hcnt b' pre r']
    refine ⟨hce, ?_, fun q => ?_⟩
    · rw [hfirst]
      exact (List.pairwise_lt_range' 1).filter _
    · have hmem : q ∈ b'.nack_deq.map (·.seq) ∧ q ∉ reported pre ↔ q ∈ fresh b' pre := by
        rw [← hfirst, List.mem_filter]
        simp
      rw [hmem, fresh, List.mem_filter, List.mem_range'_1]
      simp only [decide_eq_true_eq]
      constructor
      · rintro ⟨hr, ha⟩
        exact ⟨by omega, by omega, ha⟩
      · rintro ⟨h1, h2, ha⟩
        exact ⟨by omega, ha⟩
  · intro pre v' g' n' mid v g n post htr hmid
    rw [← List.cons_append, ← List.append_assoc] at htr
    obtain ⟨b', min, r', -, -, -, rfl, rfl⟩ := report_split r htr
    rw [hcnt b' _ r']
    exact (run_tracked hm hlt r').base g' (lastEnd_after pre mid v' g' n' hmid)

/-- Packets 3, 6 and 8 come, with a report after packet 6 and one after packet 8. -/
def tilingRun : List Label :=
  [.push 3 true (by decide), .push 6 true (by decide), .pop 1, .push 8 true (by decide), .pop 1]

theorem two_reports_tile :
    ∃ b tr, Run (rawBuf 2) anyStep b tr ∧ b.pkt_cnt ≤ ACK_WINDOW ∧
      tr = [.pushed 3 true true, .pushed 6 true true, .popped [1, 2, 4, 5] 6 6,
        .pushed 8 true true, .popped [1, 2, 4, 5, 7] 8 2] ∧ 8 - 2 = 6 := by
  obtain ⟨b, tr, r, hs⟩ := run_of_check (rawBuf 2) anyStep tilingRun
    (fun x => decide (x.2 = [.pushed 3 true true, .pushed 6 true true, .popped [1, 2, 4, 5] 6 6,
      .pushed 8 true true, .popped [1, 2, 4, 5, 7] 8 2])) rfl (execOk_any _ _ _) (by decide)
  have htr := of_decide_eq_true hs
  obtain ⟨⟨hw, -⟩, -, hadj⟩ := raw_acks_tile_the_sequence_space (by decide) (by decide) r
  exact ⟨b, tr, r, hw, htr, hadj [.pushed 3 true true, .pushed 6 true true] [1, 2, 4, 5] 6 6
    [.pushed 8 true true] _ 8 2 [] htr (by simp [Event.isReport, Event.isOverflow])⟩

end wspace_client.rx_raw_buf

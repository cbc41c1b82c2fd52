-- How often a lost raw packet is reported: it ages by one round with every
-- report, and it leaves the deque with its whole round.
import WspaceClient.RxRawBuf
import Mathlib.Data.List.Induction
import Mathlib.Data.List.Nodup

namespace wspace_client.rx_raw_buf

open machine

/-! ## The order of the deque -/

theorem mem_outstanding_cnt {m age : Nat} {rs : List (List Nat)} {e : RawPktRcvStatus}
    (h : e ∈ outstanding m age rs) : age ≤ e.send_cnt ∧ e.send_cnt < m := by
  induction rs generalizing age with
  | nil => cases h
  | cons r rs ih =>
    unfold outstanding at h
    split at h
    · rename_i hage
      rcases List.mem_append.mp h with h | h
      · obtain ⟨hle, hlt⟩ := ih h
        exact ⟨by omega, hlt⟩
      · obtain ⟨q, -, rfl⟩ := List.mem_map.mp h
        exact ⟨Nat.le_refl _, hage⟩
    · cases h

/-- The older rounds stand first, with the higher counts. -/
theorem outstanding_sorted (m age : Nat) (rs : List (List Nat)) :
    (outstanding m age rs).Pairwise fun e f => f.send_cnt ≤ e.send_cnt := by
  induction rs generalizing age with
  | nil => exact .nil
  | cons r rs ih =>
    unfold outstanding
    split
    · rw [List.pairwise_append]
      refine ⟨ih (age + 1), ?_, fun e he f hf => ?_⟩
      · rw [List.pairwise_map]
        exact List.pairwise_of_forall fun _ _ => Nat.le_refl _
      · obtain ⟨q, -, rfl⟩ := List.mem_map.mp hf
        have hle := (mem_outstanding_cnt he).1
        show age ≤ e.send_cnt
        omega
    · exact .nil

/-- In a deque with falling counts, the saturated entries are a prefix. -/
theorem dropWhile_saturated {m : Nat} {l : List RawPktRcvStatus}
    (hs : l.Pairwise fun e f => f.send_cnt ≤ e.send_cnt) (hm : ∀ e ∈ l, e.send_cnt ≤ m) :
    l.dropWhile (fun e => e.send_cnt = m) = l.filter fun e => e.send_cnt ≠ m := by
  induction l with
  | nil => rfl
  | cons e l ih =>
    obtain ⟨hle, hs⟩ := List.pairwise_cons.mp hs
    by_cases he : e.send_cnt = m
    · have hpos : decide (e.send_cnt = m) = true := decide_eq_true he
      rw [List.dropWhile_cons, if_pos hpos, List.filter_cons_of_neg (by simpa using he)]
      exact ih hs fun f hf => hm f (List.mem_cons_of_mem _ hf)
    · have hneg : ¬decide (e.send_cnt = m) = true := by simpa using he
      rw [List.dropWhile_cons, if_neg hneg, eq_comm, List.filter_eq_self]
      intro f hf
      have hem := hm e List.mem_cons_self
      rw [decide_eq_true_eq]
      rcases List.mem_cons.mp hf with rfl | hf
      · exact he
      · have hfe := hle f hf
        omega

theorem sent_cnt {e : RawPktRcvStatus} (h : e.send_cnt < 2 ^ 8 - 1) :
    (sent e).send_cnt = e.send_cnt + 1 := by
  unfold sent
  exact Nat.mod_eq_of_lt (by omega)

/-! ## The age of a lost packet -/

/-- The numbers that a push records as lost. -/
def recorded (last : Nat) : Event → List Nat
  | .pushed q good true => holes last q ++ if good then [] else [q]
  | .pushed q good false => if good then [] else [q]
  | .popped _ _ _ => []

/-- The reports of a list of events. -/
def reports (tr : List Event) : Nat := tr.countP Event.isReport

/-- A number that was lost `age` reports ago, in a history that forgot nothing
before its `m` reports were made. -/
def Kept (m q age : Nat) (h : History) : Prop :=
  q ≤ h.last ∧
    ((∃ newer r older, h.rounds = newer ++ r :: older ∧ newer.length = age ∧ r.count q = 1 ∧
        ∀ r' ∈ newer ++ older, q ∉ r') ∨
      (m ≤ age ∧ ∀ r ∈ h.rounds, q ∉ r))

theorem count_outstanding_of_not_mem {m q : Nat} {rs : List (List Nat)}
    (h : ∀ r ∈ rs, q ∉ r) (age : Nat) : ((outstanding m age rs).map (·.seq)).count q = 0 := by
  rw [List.count_eq_zero]
  intro hq
  obtain ⟨r, hr, hqr⟩ := mem_outstanding hq
  exact h r hr hqr

theorem outstanding_cons_seq {m age : Nat} (hage : age < m) (r : List Nat) (rs : List (List Nat)) :
    (outstanding m age (r :: rs)).map (·.seq) = (outstanding m (age + 1) rs).map (·.seq) ++ r := by
  rw [outstanding, if_pos hage, List.map_append, List.map_map]
  simp [Function.comp_def]

theorem count_outstanding {m age q : Nat} {newer older : List (List Nat)} {r : List Nat}
    (hr : r.count q = 1) (hn : ∀ r' ∈ newer ++ older, q ∉ r') :
    ((outstanding m age (newer ++ r :: older)).map (·.seq)).count q =
      if age + newer.length < m then 1 else 0 := by
  induction newer generalizing age with
  | nil =>
    rw [List.nil_append, List.length_nil, Nat.add_zero]
    split
    · rename_i hage
      have hold := @count_outstanding_of_not_mem m q older hn
      rw [outstanding_cons_seq hage, List.count_append, hold (age + 1), hr]
    · rename_i hage
      rw [outstanding_of_ge (by omega)]
      rfl
  | cons r' newer ih =>
    have hr' : q ∉ r' := hn r' List.mem_cons_self
    have ih := @ih (age + 1) fun x hx => hn x (List.mem_cons_of_mem _ hx)
    rw [List.cons_append, List.length_cons]
    by_cases hage : age < m
    · rw [outstanding_cons_seq hage, List.count_append, ih, List.count_eq_zero.mpr hr',
        Nat.add_zero, Nat.add_assoc, Nat.add_comm 1]
    · rw [outstanding_of_ge (by omega), if_neg (by omega)]
      rfl

theorem Kept.count {m q age : Nat} {h : History} (hk : Kept m q age h) :
    ((outstanding m 0 h.rounds).map (·.seq)).count q = if age < m then 1 else 0 := by
  rcases hk.2 with ⟨newer, r, older, hrounds, hlen, hr, hn⟩ | ⟨hage, hn⟩
  · rw [hrounds, count_outstanding hr hn, hlen, Nat.zero_add]
  · rw [if_neg (by omega), count_outstanding_of_not_mem hn 0]

theorem not_mem_holes {q last cur : Nat} (h : q ≤ last) : q ∉ holes last cur := by
  unfold holes
  rw [List.mem_range'_1]
  omega

theorem not_mem_recorded {q last cur : Nat} (good fit : Bool) (h : q ≤ last) (hcur : last < cur) :
    q ∉ recorded last (.pushed cur good fit) := by
  have hholes := @not_mem_holes q last cur h
  have hne : q ≠ cur := by omega
  cases good <;> cases fit <;> simp [recorded, hholes, hne]

theorem mem_lost {h : History} {qs r : List Nat} (hr : r ∈ h.lost qs) :
    (∃ r' ∈ h.rounds, r = r' ++ qs) ∨ r ∈ h.rounds ∨ r = qs := by
  unfold History.lost at hr
  cases hrounds : h.rounds with
  | nil =>
    rw [hrounds] at hr
    exact .inr (.inr (List.mem_singleton.mp hr))
  | cons r' rs =>
    rw [hrounds] at hr
    rcases List.mem_cons.mp hr with rfl | hr
    · exact .inl ⟨r', List.mem_cons_self, rfl⟩
    · exact .inr (.inl (List.mem_cons_of_mem _ hr))

/-- What a push adds to the newest round leaves an older packet in its place. -/
theorem Kept.lost {m q age : Nat} {h : History} {qs : List Nat} {last : Nat}
    (hk : Kept m q age h) (hqs : q ∉ qs) (hlast : h.last ≤ last) :
    Kept m q age ⟨last, h.lost qs⟩ := by
  refine ⟨hk.1.trans hlast, hk.2.imp ?_ ?_⟩
  · rintro ⟨newer, r, older, hrounds, hlen, hr, hn⟩
    cases newer with
    | nil =>
      refine ⟨[], r ++ qs, older, ?_, hlen, ?_, hn⟩
      · unfold History.lost
        rw [hrounds]
        rfl
      · rw [List.count_append, hr, List.count_eq_zero.mpr hqs]
    | cons r' newer =>
      refine ⟨(r' ++ qs) :: newer, r, older, ?_, hlen, hr, ?_⟩
      · unfold History.lost
        rw [hrounds]
        rfl
      · intro x hx
        rcases List.mem_cons.mp hx with rfl | hx
        · rw [List.mem_append, not_or]
          exact ⟨hn r' List.mem_cons_self, hqs⟩
        · exact hn x (List.mem_cons_of_mem _ hx)
  · rintro ⟨hage, hn⟩
    refine ⟨hage, fun r hr => ?_⟩
    rcases mem_lost hr with ⟨r', hr', rfl⟩ | hr' | rfl
    · rw [List.mem_append, not_or]
      exact ⟨hn r' hr', hqs⟩
    · exact hn r hr'
    · exact hqs

/-- One more event makes a lost packet one report older, or leaves its age. -/
theorem Kept.after {m q age : Nat} {h : History} {e : Event} (hk : Kept m q age h)
    (hasc : ∀ cur good fit, e = .pushed cur good fit → h.last < cur)
    (hover : e.isOverflow = true → m ≤ age) :
    Kept m q (age + if e.isReport then 1 else 0) (h.after e) := by
  cases e with
  | pushed cur good fit =>
    have hcur := hasc cur good fit rfl
    have hnew := not_mem_recorded good fit hk.1 hcur
    cases fit with
    | true => exact hk.lost hnew hcur.le
    | false =>
      refine ⟨hk.1.trans hcur.le, .inr ⟨hover rfl, fun r hr => ?_⟩⟩
      rw [List.mem_singleton.mp hr]
      exact hnew
  | popped v g n =>
    refine ⟨hk.1, hk.2.imp ?_ ?_⟩
    · rintro ⟨newer, r, older, hrounds, hlen, hr, hn⟩
      refine ⟨[] :: newer, r, older, ?_, congrArg (· + 1) hlen, hr, ?_⟩
      · show [] :: h.rounds = _
        rw [hrounds]
        rfl
      · intro x hx
        rcases List.mem_cons.mp hx with rfl | hx
        · exact List.not_mem_nil
        · exact hn x hx
    · rintro ⟨hage, hn⟩
      refine ⟨Nat.le_succ_of_le hage, fun r hr => ?_⟩
      rcases List.mem_cons.mp hr with rfl | hr
      · exact List.not_mem_nil
      · exact hn r hr

/-! ## Runs -/

/-- The numbers of the rounds were all passed. -/
def Passed (h : History) : Prop := ∀ r ∈ h.rounds, ∀ q ∈ r, q ≤ h.last

theorem mem_recorded {q last cur : Nat} {good fit : Bool}
    (h : q ∈ recorded last (.pushed cur good fit)) (hcur : last < cur) : last < q ∧ q ≤ cur := by
  have hself : q ∈ (if good then [] else [cur]) → last < q ∧ q ≤ cur := by
    cases good
    · intro hq
      rw [List.mem_singleton.mp hq]
      exact ⟨hcur, Nat.le_refl _⟩
    · nofun
  cases fit with
  | false => exact hself h
  | true =>
    rcases List.mem_append.mp h with h | h
    · unfold holes at h
      rw [List.mem_range'_1] at h
      omega
    · exact hself h

/-- Every push is past the pushes before it. -/
def Ascending (tr : List Event) : Prop :=
  ∀ pre cur good fit post, tr = pre ++ .pushed cur good fit :: post → (history pre).last < cur

theorem Ascending.prefix {xs ys : List Event} (h : Ascending (xs ++ ys)) : Ascending xs :=
  fun pre cur good fit post he => h pre cur good fit (post ++ ys) (by rw [he]; simp)

theorem Ascending.passed {tr : List Event} (h : Ascending tr) : Passed (history tr) := by
  induction tr using List.reverseRecOn with
  | nil =>
    intro r hr
    rw [List.mem_singleton.mp hr]
    nofun
  | append_singleton tr e ih =>
    have ih := ih h.prefix
    rw [history_snoc]
    cases e with
    | popped v g n =>
      intro r hr
      rcases List.mem_cons.mp hr with rfl | hr
      · nofun
      · exact ih r hr
    | pushed cur good fit =>
      have hcur := h tr cur good fit [] rfl
      have hold : ∀ r ∈ (history tr).rounds, ∀ q ∈ r, q ≤ cur := fun r hr q hq =>
        (ih r hr q hq).trans hcur.le
      have hnew : ∀ q ∈ recorded (history tr).last (.pushed cur good fit), q ≤ cur := fun q hq =>
        (mem_recorded hq hcur).2
      cases fit with
      | false =>
        intro r hr
        rw [List.mem_singleton.mp hr]
        exact hnew
      | true =>
        intro r hr q hq
        rcases mem_lost hr with ⟨r', hr', rfl⟩ | hr' | rfl
        · rcases List.mem_append.mp hq with hq | hq
          · exact hold r' hr' q hq
          · exact hnew q hq
        · exact hold r hr' q hq
        · exact hnew q hq

theorem run_ascending {m : Nat} (hm : 0 < m) (hm' : m < 2 ^ 8) {b : RxRawBuf} {tr : List Event}
    (r : Run (rawBuf m) anyStep b tr) : Ascending tr := by
  intro pre cur good fit post htr
  obtain ⟨b', tr', l, t, xs, ys, r', -, hs, rfl⟩ := r.split htr
  have htracked := run_tracked hm hm' r'
  generalize hout : xs ++ Event.pushed cur good fit :: ys = out at hs
  cases step_call hs with
  | stale => simp at hout
  | push hlt =>
    cases xs with
    | nil =>
      cases hout
      rwa [List.append_nil, htracked.last]
    | cons x xs => simp at hout
  | pop => cases xs <;> simp at hout

theorem count_recorded {q last cur : Nat} {good fit : Bool} (hcur : last < cur)
    (h : q ∈ recorded last (.pushed cur good fit)) :
    (recorded last (.pushed cur good fit)).count q = 1 := by
  have hself : (if good then [] else [cur] : List Nat).Nodup := by
    cases good
    · exact List.nodup_singleton _
    · exact List.nodup_nil
  have hnodup : (recorded last (.pushed cur good fit)).Nodup := by
    cases fit with
    | false => exact hself
    | true =>
      refine List.nodup_append'.mpr ⟨List.nodup_range', hself, fun x hx hx' => ?_⟩
      unfold holes at hx
      rw [List.mem_range'_1] at hx
      cases good
      · rw [List.mem_singleton.mp hx'] at hx
        omega
      · cases hx'
  exact List.count_eq_one_of_mem hnodup h

theorem kept_recorded {m q cur : Nat} {good fit : Bool} {pre : List Event}
    (hpassed : Passed (history pre)) (hcur : (history pre).last < cur)
    (hq : q ∈ recorded (history pre).last (.pushed cur good fit)) :
    Kept m q 0 ((history pre).after (.pushed cur good fit)) := by
  have hone := count_recorded hcur hq
  obtain ⟨hlast, hle⟩ := mem_recorded hq hcur
  have hnot : ∀ r ∈ (history pre).rounds, q ∉ r := fun r hr hqr => by
    have hqle := hpassed r hr q hqr
    omega
  refine ⟨by cases fit <;> exact hle, .inl ?_⟩
  cases fit with
  | false => exact ⟨[], _, [], rfl, rfl, hone, nofun⟩
  | true =>
    cases hrounds : (history pre).rounds with
    | nil =>
      refine ⟨[], recorded (history pre).last (.pushed cur good true), [], ?_, rfl, hone, nofun⟩
      show (history pre).lost _ = _
      unfold History.lost
      rw [hrounds]
      rfl
    | cons r rs =>
      rw [hrounds] at hnot
      refine ⟨[], r ++ recorded (history pre).last (.pushed cur good true), rs, ?_, rfl, ?_,
        fun x hx => hnot x (List.mem_cons_of_mem _ hx)⟩
      · show (history pre).lost _ = _
        unfold History.lost
        rw [hrounds]
        rfl
      · rw [List.count_append, hone, List.count_eq_zero.mpr (hnot r List.mem_cons_self)]

theorem kept_after {m q cur : Nat} {good fit : Bool} {pre mid : List Event}
    (hasc : Ascending (pre ++ .pushed cur good fit :: mid))
    (hq : q ∈ recorded (history pre).last (.pushed cur good fit))
    (hover : ∀ xs e ys, mid = xs ++ e :: ys → e.isOverflow = true → m ≤ reports xs) :
    Kept m q (reports mid) (history (pre ++ .pushed cur good fit :: mid)) := by
  induction mid using List.reverseRecOn with
  | nil =>
    rw [history_snoc]
    exact kept_recorded hasc.prefix.passed (hasc pre cur good fit [] rfl) hq
  | append_singleton mid e ih =>
    have hsplit : pre ++ .pushed cur good fit :: (mid ++ [e]) =
        pre ++ .pushed cur good fit :: mid ++ [e] := by simp
    have ih := ih (by rw [hsplit] at hasc; exact hasc.prefix)
      (fun xs e' ys he => hover xs e' (ys ++ [e]) (by rw [he]; simp))
    have hreports : reports (mid ++ [e]) = reports mid + if e.isReport then 1 else 0 := by
      unfold reports
      rw [List.countP_append, List.countP_singleton]
    rw [hsplit, history_snoc, hreports]
    refine ih.after (fun cur' good' fit' he => ?_) (hover mid e [] rfl)
    subst he
    exact hasc _ cur' good' fit' [] hsplit

/-- A lost packet is in each of the next `m` reports once, and in none after
them; and the saturated entries that a report erases are all there are. -/
theorem each_lost_packet_is_reported_m_times {m : Nat} (hm : 1 ≤ m) (hm' : m ≤ 255)
    {b : RxRawBuf} {tr : List Event} (r : Run (rawBuf m) anyStep b tr) :
    ((∀ e ∈ b.nack_deq, e.send_cnt < m) ∧
      b.nack_deq.Pairwise (fun e f => f.send_cnt ≤ e.send_cnt) ∧
      (popPktStatus b).2.nack_deq = (b.nack_deq.map sent).filter fun e => e.send_cnt ≠ m) ∧
    ∀ pre cur good fit mid v g n post q,
      tr = pre ++ .pushed cur good fit :: (mid ++ .popped v g n :: post) →
      q ∈ recorded (history pre).last (.pushed cur good fit) →
      (∀ xs e ys, mid = xs ++ e :: ys → e.isOverflow = true → m ≤ reports xs) →
      v.count q = if reports mid < m then 1 else 0 := by
  have hlt : m < 2 ^ 8 := by omega
  have h := run_tracked hm hlt r
  have hcnt : ∀ e ∈ b.nack_deq, e.send_cnt < m := by
    rw [h.deq]
    exact fun e he => (mem_outstanding_cnt he).2
  have hsorted : b.nack_deq.Pairwise fun e f => f.send_cnt ≤ e.send_cnt := by
    rw [h.deq]
    exact outstanding_sorted m 0 _
  refine ⟨⟨hcnt, hsorted, ?_⟩, ?_⟩
  · have hsent : ∀ e ∈ b.nack_deq, (sent e).send_cnt = e.send_cnt + 1 := fun e he =>
      sent_cnt (by have := hcnt e he; omega)
    unfold popPktStatus
    rw [h.max]
    apply dropWhile_saturated
    · rw [List.pairwise_map]
      refine hsorted.imp_of_mem fun he hf hle => ?_
      rw [hsent _ he, hsent _ hf]
      omega
    · intro e he
      obtain ⟨f, hf, rfl⟩ := List.mem_map.mp he
      rw [hsent f hf]
      exact hcnt f hf
  · intro pre cur good fit mid v g n post q htr hq hover
    have hsplit : tr = (pre ++ .pushed cur good fit :: mid) ++ .popped v g n :: post := by
      rw [htr]
      simp
    obtain ⟨b', min, r', -, -, rfl, -, -⟩ := report_split r hsplit
    rw [(run_tracked hm hlt r').deq]
    exact (kept_after (run_ascending hm hlt r') hq hover).count

/-- Packet 4 is lost before packet 6, and three reports follow. -/
def threeReports : List Label := tilingRun ++ [.pop 0]

theorem a_lost_packet_is_reported_twice : ∃ b, Run (rawBuf 2) anyStep b
    [.pushed 3 true true, .pushed 6 true true, .popped [1, 2, 4, 5] 6 6, .pushed 8 true true,
      .popped [1, 2, 4, 5, 7] 8 2, .popped [7] 8 0] ∧
    [1, 2, 4, 5, 7].count 4 = 1 ∧ [7].count 4 = 0 := by
  obtain ⟨b, tr, r, hs⟩ := run_of_check (rawBuf 2) anyStep threeReports
    (fun x => decide (x.2 = [.pushed 3 true true, .pushed 6 true true, .popped [1, 2, 4, 5] 6 6,
      .pushed 8 true true, .popped [1, 2, 4, 5, 7] 8 2, .popped [7] 8 0])) rfl
    (execOk_any _ _ _) (by decide)
  have htr : tr = _ := of_decide_eq_true hs
  subst htr
  have hcount := (each_lost_packet_is_reported_m_times (by decide) (by decide) r).2
  have hover : ∀ xs e ys, ∀ mid : List Event, mid = xs ++ e :: ys →
      (∀ e ∈ mid, e.isOverflow = false) → e.isOverflow = true → 2 ≤ reports xs := by
    intro xs e ys mid hmid hno he
    have hfit := hno e (by rw [hmid]; simp)
    rw [hfit] at he
    cases he
  refine ⟨b, r, ?_, ?_⟩
  · exact hcount [.pushed 3 true true] 6 true true
      [.popped [1, 2, 4, 5] 6 6, .pushed 8 true true] _ 8 2 [.popped [7] 8 0] 4 rfl (by decide)
      fun xs e ys h => hover xs e ys _ h (by decide)
  · exact hcount [.pushed 3 true true] 6 true true
      [.popped [1, 2, 4, 5] 6 6, .pushed 8 true true, .popped [1, 2, 4, 5, 7] 8 2] _ 8 0 [] 4 rfl
      (by decide) fun xs e ys h => hover xs e ys _ h (by decide)

end wspace_client.rx_raw_buf

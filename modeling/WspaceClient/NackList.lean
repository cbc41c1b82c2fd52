-- `FindNackSeqNum` past its wait, with nobody in between: the list it returns
-- is exactly what is missing up to the end that it reports.
import WspaceClient.Pointers

namespace wspace_client.threads

open machine batch_info rx_data_buf

/-! ## The specification -/

/-- The end that `FindNackSeqNum` reports when it reads the batch now. -/
def endSeq (s : Radio) : Nat :=
  if doneNow s then max s.batch_info.highest_decoded_seq s.buf.tail_pt
  else s.batch_info.highest_decoded_seq

/-- The slot of a number is blocked, and its block time is over. -/
def Overdue (cfg : Config) (s : Radio) (q : Nat) : Prop :=
  (s.buf.book_keep_arr (seq2Ind q)).status = .kBlock ∧
    (s.now : Int) - (s.buf.book_keep_arr (seq2Ind q)).timestamp > 1000 * cfg.block_time

/-- A number that has to be sent again. -/
def Missing (cfg : Config) (s : Radio) (q : Nat) : Prop :=
  s.buf.head_pt < q ∧ q ≤ endSeq s ∧ (s.buf.tail_pt < q ∨
    (s.buf.book_keep_arr (seq2Ind q)).status = .kEmpty ∨
    ((s.buf.book_keep_arr (seq2Ind q)).status = .kBlock ∧ ¬Overdue cfg s q))

instance (cfg : Config) (s : Radio) (q : Nat) : Decidable (Overdue cfg s q) :=
  inferInstanceAs (Decidable (_ ∧ _))

instance (cfg : Config) (s : Radio) (q : Nat) : Decidable (Missing cfg s q) :=
  inferInstanceAs (Decidable (_ ∧ _))

/-- The missing numbers in their order. -/
def missing (cfg : Config) (s : Radio) : List Nat :=
  (List.range' (s.buf.head_pt + 1) (endSeq s - s.buf.head_pt)).filter fun q => Missing cfg s q

theorem mem_missing {cfg : Config} {s : Radio} {q : Nat} :
    q ∈ missing cfg s ↔ Missing cfg s q := by
  unfold missing
  rw [List.mem_filter, List.mem_range'_1, decide_eq_true_eq]
  refine and_iff_right_of_imp fun h => ?_
  have h1 := h.1
  have h2 := h.2.1
  omega

theorem missing_sorted (cfg : Config) (s : Radio) : (missing cfg s).Pairwise (· < ·) :=
  (List.pairwise_lt_range' 1).filter _

/-! ## Runs of the acknowledgement thread alone -/

/-- The acknowledgement thread runs on its own. -/
def AckRun (cfg : Config) (s t : Radio) (out : List Event) : Prop :=
  ∃ n, exec (radio cfg) s (List.replicate n .ack) = some (t, out)

theorem AckRun.refl (cfg : Config) (s : Radio) : AckRun cfg s s [] := ⟨0, rfl⟩

theorem AckRun.trans {cfg : Config} {s t u : Radio} {out out' : List Event}
    (h : AckRun cfg s t out) (h' : AckRun cfg t u out') : AckRun cfg s u (out ++ out') := by
  obtain ⟨n, hn⟩ := h
  obtain ⟨m, hm⟩ := h'
  refine ⟨n + m, ?_⟩
  rw [List.replicate_add]
  exact exec_append hn hm

theorem AckRun.last {cfg : Config} {s t : Radio} {out : List Event}
    (hs : stepAck cfg s = some (t, out)) (halive : s.ack ≠ .aborted) : AckRun cfg s t out := by
  refine ⟨1, exec_one ?_⟩
  exact (if_neg halive).trans hs

theorem AckRun.step {cfg : Config} {s t u : Radio} {out out' : List Event}
    (hs : stepAck cfg s = some (t, out)) (halive : s.ack ≠ .aborted) (h : AckRun cfg t u out') :
    AckRun cfg s u (out ++ out') :=
  (AckRun.last hs halive).trans h

theorem AckRun.silent {cfg : Config} {s t u : Radio} {out : List Event}
    (hs : stepAck cfg s = some (t, [])) (halive : s.ack ≠ .aborted) (h : AckRun cfg t u out) :
    AckRun cfg s u out :=
  AckRun.step hs halive h

/-! ## The scan -/

/-- No thread keeps the lock of a slot. -/
def ElementsFree (s : Radio) : Prop := ∀ i, s.cons ≠ .beforeWait i

theorem ElementsFree.free {s : Radio} (h : ElementsFree s) (i : Slot) : elementFree s i = true := by
  unfold elementFree
  exact bne_iff_ne.mpr (h i)

theorem ElementsFree.signal {s : Radio} (h : ElementsFree s) :
    ElementsFree (signalElementAvail s) := by
  intro i
  rw [signalElementAvail_cons]
  cases hc : s.cons with
  | beforeWait j => exact absurd hc (h j)
  | _ => nofun

/-- The position of an overdue slot. -/
def overdueAt (cfg : Config) (s : Radio) (x : Nat) : Bool :=
  isOverdue (s.buf.book_keep_arr (indMod x)) cfg.block_time s.now

/-- The position of a hole that is listed. -/
def listedAt (cfg : Config) (s : Radio) (x : Nat) : Bool :=
  isHole (s.buf.book_keep_arr (indMod x)) && !overdueAt cfg s x

/-- The buffer `b` after the scan of `s` over the positions from its head up to `x`. -/
structure Scanned (cfg : Config) (s : Radio) (x : Nat) (b : RxDataBuf) : Prop where
  head : b.head_pt = s.buf.head_pt
  tail : b.tail_pt = s.buf.tail_pt
  bytes : b.pkt_buf = s.buf.pkt_buf
  slots : ∀ y, s.buf.head_pt ≤ y → y < s.buf.head_pt + BUF_SIZE →
    b.book_keep_arr (indMod y) =
      if y < x ∧ overdueAt cfg s y then
        { s.buf.book_keep_arr (indMod y) with status := .kDrop, seq_num := y + 1 }
      else s.buf.book_keep_arr (indMod y)

theorem Scanned.start (cfg : Config) (s : Radio) : Scanned cfg s s.buf.head_pt s.buf :=
  ⟨rfl, rfl, rfl, fun y hy _ => (if_neg fun h => by omega).symm⟩

theorem indMod_ne {h x y : Nat} (hx : h ≤ x) (hx' : x < h + BUF_SIZE) (hy : h ≤ y)
    (hy' : y < h + BUF_SIZE) (hne : y ≠ x) : indMod y ≠ indMod x := fun he =>
  hne (eq_of_mod_eq_of_window hy hy' hx hx' (congrArg Fin.val he))

/-- The slot at the next position is as it was before the scan. -/
theorem Scanned.next {cfg : Config} {s : Radio} {x : Nat} {b : RxDataBuf} (h : Scanned cfg s x b)
    (hx : s.buf.head_pt ≤ x) (hx' : x < s.buf.head_pt + BUF_SIZE) :
    b.book_keep_arr (indMod x) = s.buf.book_keep_arr (indMod x) := by
  rw [h.slots x hx hx', if_neg fun h => by omega]

theorem Scanned.skip {cfg : Config} {s : Radio} {x : Nat} {b : RxDataBuf} (h : Scanned cfg s x b)
    (hover : overdueAt cfg s x = false) : Scanned cfg s (x + 1) b := by
  refine ⟨h.head, h.tail, h.bytes, fun y hy hy' => ?_⟩
  rw [h.slots y hy hy']
  by_cases hyx : y = x
  · subst hyx
    rw [if_neg fun h => by omega, if_neg fun h => by rw [hover] at h; cases h.2]
  · by_cases hlt : y < x
    · simp only [hlt, Nat.lt_succ_of_lt hlt]
    · rw [if_neg fun h => hlt h.1, if_neg fun h => by omega]

theorem Scanned.drop {cfg : Config} {s : Radio} {x : Nat} {b : RxDataBuf} (h : Scanned cfg s x b)
    (hx : s.buf.head_pt ≤ x) (hx' : x < s.buf.head_pt + BUF_SIZE)
    (hover : overdueAt cfg s x = true) :
    Scanned cfg s (x + 1) (nackDrop b (indMod x) (x + 1)) := by
  refine ⟨h.head, h.tail, h.bytes, fun y hy hy' => ?_⟩
  by_cases hyx : y = x
  · subst hyx
    rw [if_pos ⟨Nat.lt_succ_self y, hover⟩]
    unfold nackDrop
    rw [setSlot_self, h.next hx hx']
  · have hne := indMod_ne hx hx' hy hy' hyx
    unfold nackDrop
    rw [setSlot_ne _ _ _ hne, h.slots y hy hy']
    by_cases hlt : y < x
    · simp only [hlt, Nat.lt_succ_of_lt hlt]
    · rw [if_neg fun h => hlt h.1, if_neg fun h => by omega]

/-- The events of a scan. -/
def OnlyDrops (out : List Event) : Prop := ∀ e ∈ out, ∃ h q st, e = .nackDropped h q st

theorem OnlyDrops.nil : OnlyDrops [] := nofun

theorem OnlyDrops.append {xs ys : List Event} (hx : OnlyDrops xs) (hy : OnlyDrops ys) :
    OnlyDrops (xs ++ ys) := fun e he =>
  (List.mem_append.mp he).elim (hx e) (hy e)

/-- One turn of the scan, at a position that it has not seen. -/
theorem scan_step {cfg : Config} {s0 s : Radio} {x ep tl e : Nat} {ns : List Nat}
    (ha : s.ack = .scan x ep tl e s0.now ns) (hfree : ElementsFree s)
    (hscan : Scanned cfg s0 x s.buf) (hx : s0.buf.head_pt ≤ x)
    (hx' : x < s0.buf.head_pt + BUF_SIZE) (hle : x ≤ ep) (hlt : x + 1 < 2 ^ 32) :
    ∃ t out, stepAck cfg s = some (t, out) ∧ OnlyDrops out ∧ ElementsFree t ∧
      t.ack = .scan (x + 1) ep tl e s0.now (ns ++ if listedAt cfg s0 x then [x + 1] else []) ∧
      Scanned cfg s0 (x + 1) t.buf := by
  have hnext := hscan.next hx hx'
  have hadd : add32 x 1 = x + 1 := add32_of_lt hlt
  have hstep : stepAck cfg s = some (ackScan cfg s x ep tl e s0.now ns) := by
    unfold stepAck
    rw [ha]
    simp only [hle, hfree.free, if_true]
  rw [hstep]
  unfold ackScan
  simp only [hadd]
  by_cases hhole : isHole (s.buf.book_keep_arr (indMod x))
  · rw [if_pos hhole]
    by_cases hover : isOverdue (s.buf.book_keep_arr (indMod x)) cfg.block_time s0.now
    · have hov : overdueAt cfg s0 x = true := by
        unfold overdueAt
        rwa [← hnext]
      have hlist : listedAt cfg s0 x = false := by
        unfold listedAt
        rw [hov, Bool.not_true, Bool.and_false]
      rw [if_pos hover, hlist]
      refine ⟨_, _, rfl, fun e he => ⟨_, _, _, List.mem_singleton.mp he⟩, ?_, ?_, ?_⟩
      · exact ElementsFree.signal hfree
      · rw [signalElementAvail_ack, if_neg Bool.false_ne_true, List.append_nil]
      · rw [signalElementAvail_buf]
        exact hscan.drop hx hx' hov
    · have hov : overdueAt cfg s0 x = false := by
        unfold overdueAt
        rw [← hnext]
        exact Bool.not_eq_true _ ▸ hover
      have hlist : listedAt cfg s0 x = true := by
        unfold listedAt
        rw [hov, ← hnext, hhole]
        rfl
      rw [if_neg hover, hlist]
      exact ⟨_, _, rfl, .nil, hfree, rfl, hscan.skip hov⟩
  · have hhole0 : isHole (s0.buf.book_keep_arr (indMod x)) = false := by
      rw [← hnext]
      exact Bool.not_eq_true _ ▸ hhole
    have hov : overdueAt cfg s0 x = false := by
      unfold overdueAt isOverdue
      unfold isHole at hhole0
      rw [Bool.or_eq_false_iff] at hhole0
      rw [hhole0.2, Bool.false_and]
    have hlist : listedAt cfg s0 x = false := by
      unfold listedAt
      rw [hhole0, Bool.false_and]
    rw [if_neg hhole, hlist]
    refine ⟨_, _, rfl, .nil, hfree, ?_, hscan.skip hov⟩
    rw [if_neg Bool.false_ne_true, List.append_nil]

/-- The numbers of the listed positions of a range. -/
def listedIn (cfg : Config) (s : Radio) (x n : Nat) : List Nat :=
  (List.range' (x + 1) n).filter fun q => listedAt cfg s (q - 1)

theorem listedIn_succ (cfg : Config) (s : Radio) (x n : Nat) :
    listedIn cfg s x (n + 1) =
      (if listedAt cfg s x then [x + 1] else []) ++ listedIn cfg s (x + 1) n := by
  unfold listedIn
  rw [List.range'_succ, List.filter_cons, Nat.add_sub_cancel]
  split <;> rfl

/-- The scan from a position to its end. -/
theorem scan_run (cfg : Config) (s0 : Radio) {s : Radio} {x : Nat} (n : Nat) {ep tl e : Nat}
    {ns : List Nat}
    (ha : s.ack = .scan x ep tl e s0.now ns) (hfree : ElementsFree s)
    (hscan : Scanned cfg s0 x s.buf) (hx : s0.buf.head_pt ≤ x) (hn : x + n = ep + 1)
    (hwin : ep < s0.buf.head_pt + BUF_SIZE) (hlt : ep + 1 < 2 ^ 32) :
    ∃ t out, AckRun cfg s t out ∧ OnlyDrops out ∧
      t.ack = .scan (ep + 1) ep tl e s0.now (ns ++ listedIn cfg s0 x n) ∧
      Scanned cfg s0 (ep + 1) t.buf := by
  induction n generalizing s x ns with
  | zero =>
    rw [Nat.add_zero] at hn
    subst hn
    refine ⟨s, [], .refl cfg s, .nil, ?_, hscan⟩
    rw [ha]
    unfold listedIn
    rw [List.range'_zero, List.filter_nil, List.append_nil]
  | succ n ih =>
    obtain ⟨t, out, hs, hd, hf, hta, hsc⟩ :=
      scan_step ha hfree hscan hx (by omega) (by omega) (by omega)
    obtain ⟨u, out', hr, hd', hua, hsc'⟩ := ih hta hf hsc (by omega) (by omega)
    refine ⟨u, out ++ out', .step hs (by rw [ha]; nofun) hr, hd.append hd', ?_, hsc'⟩
    rw [hua, listedIn_succ, List.append_assoc]

/-! ## The numbers past the tail -/

theorem extra_run (cfg : Config) {s : Radio} {i n e : Nat} {ns : List Nat}
    (ha : s.ack = .extra i e ns) (hn : i + n = e + 1) (hlt : e + 1 < 2 ^ 32) :
    AckRun cfg s { s with ack := .extra (e + 1) e (ns ++ List.range' i n) } [] := by
  induction n generalizing s i ns with
  | zero =>
    rw [Nat.add_zero] at hn
    subst hn
    rw [List.range'_zero, List.append_nil, ← ha]
    exact .refl cfg s
  | succ n ih =>
    have hstep : stepAck cfg s = some ({ s with ack := .extra (i + 1) e (ns ++ [i]) }, []) := by
      unfold stepAck
      rw [ha]
      simp only [show i ≤ e by omega, if_true, add32_of_lt (show i + 1 < 2 ^ 32 by omega)]
    have hrest := @ih { s with ack := .extra (i + 1) e (ns ++ [i]) } _ _ rfl (by omega)
    rw [List.range'_succ, List.append_cons]
    exact .step hstep (by rw [ha]; nofun) hrest

/-- The end of a call that collects few numbers. -/
theorem finish_run (cfg : Config) {s : Radio} {tl e : Nat} {ns : List Nat}
    (ha : s.ack = .extra (tl + 1) e ns) (hlt : e + 1 < 2 ^ 32)
    (hmax : (ns ++ List.range' (tl + 1) (e - tl)).length < cfg.max_num_nacks) :
    ∃ t, AckRun cfg s t [.acked e (ns ++ List.range' (tl + 1) (e - tl))] ∧ t.ack = .idle ∧
      t.buf = s.buf := by
  have hlast : ∀ (u : Radio) (i : Nat) (ms : List Nat), u.ack = .extra i e ms → e < i →
      ms.length < cfg.max_num_nacks → AckRun cfg u { u with ack := .idle } [.acked e ms] := by
    intro u i ms hu hi hm
    have hstep : stepAck cfg u = some ({ u with ack := .idle }, [.acked e ms]) := by
      unfold stepAck
      rw [hu]
      simp only [show ¬i ≤ e by omega, show ¬ms.length ≥ cfg.max_num_nacks by omega, if_false]
      rfl
    exact .step hstep (by rw [hu]; nofun) (.refl cfg _)
  by_cases hle : e ≤ tl
  · rw [Nat.sub_eq_zero_of_le hle, List.range'_zero, List.append_nil] at hmax ⊢
    exact ⟨_, hlast s _ ns ha (by omega) hmax, rfl, rfl⟩
  · have hloop := extra_run cfg (n := e - tl) ha (by omega) hlt
    exact ⟨_, hloop.trans (hlast _ (e + 1) _ rfl (by omega) hmax), rfl, rfl⟩

/-- A call from its assertion on. -/
theorem assert_run (cfg : Config) {s : Radio} {tl ep e : Nat}
    (ha : s.ack = .atAssert s.buf.head_pt tl ep e) (hfree : ElementsFree s) (hep : ep < tl)
    (hhd : s.buf.head_pt ≤ ep + 1) (hwin : tl ≤ s.buf.head_pt + BUF_SIZE) (htl : tl + 1 < 2 ^ 32)
    (he : e + 1 < 2 ^ 32)
    (hmax : (listedIn cfg s s.buf.head_pt (ep + 1 - s.buf.head_pt) ++
      List.range' (tl + 1) (e - tl)).length < cfg.max_num_nacks) :
    ∃ t drops, AckRun cfg s t (drops ++ [.acked e
        (listedIn cfg s s.buf.head_pt (ep + 1 - s.buf.head_pt) ++ List.range' (tl + 1) (e - tl))]) ∧
      OnlyDrops drops ∧ t.ack = .idle ∧ Scanned cfg s (ep + 1) t.buf := by
  have hassert : stepAck cfg s =
      some ({ s with ack := .scan s.buf.head_pt ep tl e s.now [] }, []) := by
    unfold stepAck
    rw [ha]
    simp only [hep, if_true]
  obtain ⟨t, drops, hscan, hd, hta, hsc⟩ := scan_run cfg s
    (s := { s with ack := .scan s.buf.head_pt ep tl e s.now [] })
    (ep + 1 - s.buf.head_pt) rfl hfree (.start cfg s) (Nat.le_refl _) (by omega) (by omega)
    (by omega)
  have hend : stepAck cfg t = some ({ t with
      ack := .extra (tl + 1) e (listedIn cfg s s.buf.head_pt (ep + 1 - s.buf.head_pt)) }, []) := by
    unfold stepAck
    rw [hta]
    simp only [show ¬ep + 1 ≤ ep by omega, if_false, add32_of_lt htl, List.nil_append]
  obtain ⟨u, hfin, hua, hub⟩ := finish_run cfg (s := { t with
    ack := .extra (tl + 1) e (listedIn cfg s s.buf.head_pt (ep + 1 - s.buf.head_pt)) }) rfl he hmax
  refine ⟨u, drops, ?_, hd, hua, by rw [hub]; exact hsc⟩
  refine .silent hassert (by rw [ha]; nofun) (hscan.trans ?_)
  exact .silent hend (by rw [hta]; nofun) hfin

/-! ## The list is exact -/

theorem listedAt_iff {cfg : Config} {s : Radio} {q : Nat} (hq : 0 < q) (hlt : q < 2 ^ 32) :
    listedAt cfg s (q - 1) = true ↔
      (s.buf.book_keep_arr (seq2Ind q)).status = .kEmpty ∨
        ((s.buf.book_keep_arr (seq2Ind q)).status = .kBlock ∧ ¬Overdue cfg s q) := by
  have hslot : indMod (q - 1) = seq2Ind q := by
    rw [← seq2Ind_succ (x := q - 1) (by omega), Nat.sub_add_cancel hq]
  unfold listedAt overdueAt isHole isOverdue Overdue
  rw [hslot]
  cases hst : (s.buf.book_keep_arr (seq2Ind q)).status <;> simp

theorem overdueAt_iff {cfg : Config} {s : Radio} {q : Nat} (hq : 0 < q) (hlt : q < 2 ^ 32) :
    overdueAt cfg s (q - 1) = true ↔ Overdue cfg s q := by
  have hslot : indMod (q - 1) = seq2Ind q := by
    rw [← seq2Ind_succ (x := q - 1) (by omega), Nat.sub_add_cancel hq]
  unfold overdueAt isOverdue Overdue
  rw [hslot, Bool.and_eq_true, decide_eq_true_eq, decide_eq_true_eq]

/-- The numbers of the two loops, which meet at the tail. -/
theorem mem_loops {cfg : Config} {s : Radio} {ep q : Nat} (htl : s.buf.tail_pt < 2 ^ 32)
    (hep : ep + 1 = min s.buf.tail_pt (endSeq s)) (hhd : s.buf.head_pt ≤ ep + 1) :
    q ∈ listedIn cfg s s.buf.head_pt (ep + 1 - s.buf.head_pt) ++
        List.range' (s.buf.tail_pt + 1) (endSeq s - s.buf.tail_pt) ↔ Missing cfg s q := by
  unfold listedIn Missing
  rw [List.mem_append, List.mem_filter, List.mem_range'_1, List.mem_range'_1]
  by_cases hq : s.buf.head_pt < q ∧ q ≤ s.buf.tail_pt
  · rw [listedAt_iff (by omega) (by omega)]
    constructor
    · rintro (⟨hr, hl⟩ | hr)
      · exact ⟨by omega, by omega, .inr hl⟩
      · omega
    · rintro ⟨h1, h2, h3 | h3⟩
      · omega
      · exact .inl ⟨by omega, h3⟩
  · constructor
    · rintro (⟨hr, -⟩ | hr)
      · omega
      · exact ⟨by omega, by omega, .inl (by omega)⟩
    · rintro ⟨h1, h2, -⟩
      exact .inr (by omega)

theorem loops_sorted (cfg : Config) {s : Radio} {ep : Nat}
    (hep : ep + 1 ≤ s.buf.tail_pt) (hhd : s.buf.head_pt ≤ ep + 1) :
    (listedIn cfg s s.buf.head_pt (ep + 1 - s.buf.head_pt) ++
      List.range' (s.buf.tail_pt + 1) (endSeq s - s.buf.tail_pt)).Pairwise (· < ·) := by
  rw [List.pairwise_append]
  refine ⟨(List.pairwise_lt_range' 1).filter _, List.pairwise_lt_range' 1, fun x hx y hy => ?_⟩
  have hx := (List.mem_filter.mp hx).1
  rw [List.mem_range'_1] at hx hy
  omega

theorem loops_eq (cfg : Config) {s : Radio} {ep : Nat} (htl : s.buf.tail_pt < 2 ^ 32)
    (hep : ep + 1 = min s.buf.tail_pt (endSeq s)) (hhd : s.buf.head_pt ≤ ep + 1) :
    listedIn cfg s s.buf.head_pt (ep + 1 - s.buf.head_pt) ++
      List.range' (s.buf.tail_pt + 1) (endSeq s - s.buf.tail_pt) = missing cfg s := by
  have hs := @loops_sorted cfg s ep (by omega) hhd
  have hnodup : ∀ l : List Nat, l.Pairwise (· < ·) → l.Nodup := fun l hl =>
    hl.imp fun h => Nat.ne_of_lt h
  have hm := missing_sorted cfg s
  refine List.Perm.eq_of_pairwise (fun a b _ _ hab hba => ?_) hs hm ?_
  · exact absurd (Nat.lt_trans hab hba) (Nat.lt_irrefl a)
  · rw [List.perm_ext_iff_of_nodup (hnodup _ hs) (hnodup _ hm)]
    exact fun q => (mem_loops htl hep hhd).trans mem_missing.symm

/-! ## What the call leaves -/

/-- The numbers that the scan looks at. -/
def InScan (s : Radio) (q : Nat) : Prop :=
  s.buf.head_pt < q ∧ q ≤ min s.buf.tail_pt (endSeq s)

/-- The buffer after the call: the overdue slots of the scan are dropped. -/
structure Dropped (cfg : Config) (s : Radio) (b : RxDataBuf) : Prop where
  head : b.head_pt = s.buf.head_pt
  tail : b.tail_pt = s.buf.tail_pt
  bytes : b.pkt_buf = s.buf.pkt_buf
  dropped : ∀ q, InScan s q → Overdue cfg s q → b.book_keep_arr (seq2Ind q) =
    { s.buf.book_keep_arr (seq2Ind q) with status := .kDrop, seq_num := q }
  kept : ∀ i, (∀ q, InScan s q → Overdue cfg s q → seq2Ind q ≠ i) →
    b.book_keep_arr i = s.buf.book_keep_arr i

theorem exists_position (hd : Nat) (i : Slot) :
    ∃ y, hd ≤ y ∧ y < hd + BUF_SIZE ∧ indMod y = i := by
  have hi := i.isLt
  refine ⟨hd + (i + BUF_SIZE - hd % BUF_SIZE) % BUF_SIZE, by omega, ?_, Fin.ext ?_⟩
  · unfold BUF_SIZE
    omega
  · unfold indMod
    unfold BUF_SIZE at *
    simp only
    omega

theorem Scanned.dropped {cfg : Config} {s : Radio} {x : Nat} {b : RxDataBuf}
    (h : Scanned cfg s x b) (hwin : s.buf.tail_pt ≤ s.buf.head_pt + BUF_SIZE)
    (htl : s.buf.tail_pt < 2 ^ 32)
    (hx : ∀ q, s.buf.head_pt < q → (q ≤ x ↔ q ≤ min s.buf.tail_pt (endSeq s))) :
    Dropped cfg s b := by
  have hslot : ∀ q, InScan s q → indMod (q - 1) = seq2Ind q ∧ q - 1 + 1 = q := by
    intro q hq
    have h1 := hq.1
    have h2 := hq.2
    have hq1 : q - 1 + 1 = q := by omega
    exact ⟨by rw [← seq2Ind_succ (x := q - 1) (by omega), hq1], hq1⟩
  refine ⟨h.head, h.tail, h.bytes, fun q hq ho => ?_, fun i hi => ?_⟩
  · obtain ⟨h1, h2⟩ := hq
    obtain ⟨hs, hq1⟩ := hslot q ⟨h1, h2⟩
    have hqx := (hx q h1).mpr h2
    have hov := (overdueAt_iff (by omega) (by omega)).mpr ho
    have hb := h.slots (q - 1) (by omega) (by omega)
    rw [if_pos ⟨by omega, hov⟩, hs, hq1] at hb
    exact hb
  · obtain ⟨y, hy, hy', rfl⟩ := exists_position s.buf.head_pt i
    rw [h.slots y hy hy']
    refine if_neg fun ⟨hyx, hov⟩ => ?_
    have hin : InScan s (y + 1) := ⟨by omega, (hx (y + 1) (by omega)).mp hyx⟩
    have h2 := hin.2
    apply hi (y + 1) hin
    · exact (overdueAt_iff (q := y + 1) (by omega) (by omega)).mp hov
    · exact (hslot (y + 1) hin).1.symm

/-- A number that is not on the list was received, delivered or given up. -/
theorem Dropped.settled {cfg : Config} {s : Radio} {b : RxDataBuf} (h : Dropped cfg s b)
    (hwin : s.buf.tail_pt ≤ s.buf.head_pt + BUF_SIZE) (htl : s.buf.tail_pt < 2 ^ 32) {q : Nat}
    (hq : q ≤ endSeq s) (hno : ¬Missing cfg s q) :
    q ≤ b.head_pt ∨ (b.book_keep_arr (seq2Ind q)).status = .kOccupiedNew ∨
      (b.book_keep_arr (seq2Ind q)).status = .kRead ∨
      (b.book_keep_arr (seq2Ind q)).status = .kDrop := by
  rw [h.head]
  by_cases hhd : q ≤ s.buf.head_pt
  · exact .inl hhd
  · have hrest : ¬(s.buf.tail_pt < q ∨ (s.buf.book_keep_arr (seq2Ind q)).status = .kEmpty ∨
        ((s.buf.book_keep_arr (seq2Ind q)).status = .kBlock ∧ ¬Overdue cfg s q)) :=
      fun hm => hno ⟨by omega, hq, hm⟩
    rw [not_or, not_or, not_and, not_not] at hrest
    obtain ⟨htail, hempty, hblock⟩ := hrest
    have hin : InScan s q := ⟨by omega, by omega⟩
    by_cases ho : Overdue cfg s q
    · rw [h.dropped q hin ho]
      exact .inr (.inr (.inr rfl))
    · have hkept := h.kept (seq2Ind q) fun r hr hor he => by
        have hr1 := hr.1
        have hr2 := hr.2
        have hqr := eq_of_seq2Ind_eq (h := s.buf.head_pt) (by omega) (by omega) (by omega)
          (by omega) (by omega) (by omega) he
        exact ho (hqr ▸ hor)
      rw [hkept]
      cases hst : (s.buf.book_keep_arr (seq2Ind q)).status with
      | kEmpty => exact absurd hst hempty
      | kBlock => exact absurd (hblock hst) ho
      | kOccupiedNew => exact .inr (.inl rfl)
      | kRead => exact .inr (.inr (.inl rfl))
      | kDrop => exact .inr (.inr (.inr rfl))

/-! ## A whole call -/

/-- A call that is exact: its end, its list, and the buffer after it. -/
structure ExactCall (cfg : Config) (s t : Radio) (nacks : List Nat) : Prop where
  idle : t.ack = .idle
  sorted : nacks.Pairwise (· < ·)
  mem : ∀ q, q ∈ nacks ↔ Missing cfg s q
  buf : Dropped cfg s t.buf
  settled : ∀ q, q ≤ endSeq s → q ∉ nacks → q ≤ t.buf.head_pt ∨
    (t.buf.book_keep_arr (seq2Ind q)).status = .kOccupiedNew ∨
    (t.buf.book_keep_arr (seq2Ind q)).status = .kRead ∨
    (t.buf.book_keep_arr (seq2Ind q)).status = .kDrop

section call

variable {cfg : Config} {s : Radio} (hwin : s.buf.tail_pt ≤ s.buf.head_pt + BUF_SIZE)
  (htl : s.buf.tail_pt < 2 ^ 32 - 1) (hend : endSeq s < 2 ^ 32 - 1)

include hwin htl

theorem exactCall_missing {t : Radio} (hidle : t.ack = .idle) (hb : Dropped cfg s t.buf) :
    ExactCall cfg s t (missing cfg s) := by
  refine ⟨hidle, missing_sorted cfg s, fun q => mem_missing, hb, fun q hq hno => ?_⟩
  exact hb.settled hwin (by omega) hq fun hm => hno (mem_missing.mpr hm)

/-- A call that returns before its scan. -/
theorem exactCall_early {t : Radio} (hle : endSeq s ≤ s.buf.head_pt) (hb : t.buf = s.buf)
    (hidle : t.ack = .idle) : ExactCall cfg s t [] := by
  have hnil : missing cfg s = [] := by
    unfold missing
    rw [Nat.sub_eq_zero_of_le hle, List.range'_zero, List.filter_nil]
  rw [← hnil]
  apply exactCall_missing hwin htl hidle
  rw [hb]
  exact (Scanned.start cfg s).dropped hwin (by omega) fun q hq => by omega

include hend

/-- A call from its assertion on, which holds. -/
theorem exactCall_scan {u : Radio} {ep : Nat} (hbuf : u.buf = s.buf) (hnow : u.now = s.now)
    (ha : u.ack = .atAssert s.buf.head_pt s.buf.tail_pt ep (endSeq s)) (hfree : ElementsFree u)
    (hep : ep + 1 = min s.buf.tail_pt (endSeq s)) (hhd : s.buf.head_pt ≤ ep + 1)
    (hmax : (missing cfg s).length < cfg.max_num_nacks) :
    ∃ t drops, AckRun cfg u t (drops ++ [.acked (endSeq s) (missing cfg s)]) ∧
      OnlyDrops drops ∧ ExactCall cfg s t (missing cfg s) := by
  have hloops := loops_eq cfg (s := s) (by omega) hep hhd
  have hlisted : listedIn cfg u = listedIn cfg s := by
    unfold listedIn listedAt overdueAt
    rw [hbuf, hnow]
  have htail : ep < u.buf.tail_pt ∧ u.buf.tail_pt + 1 < 2 ^ 32 := by
    rw [hbuf]
    omega
  rw [← hbuf] at ha
  obtain ⟨t, drops, hrun, hd, hidle, hscan⟩ := assert_run cfg ha hfree htail.1
    (by rw [hbuf]; omega) (by rw [hbuf]; omega) htail.2 (by omega)
    (by rw [hlisted, hbuf, hloops]; exact hmax)
  rw [hlisted, hbuf, hloops] at hrun
  refine ⟨t, drops, hrun, hd, exactCall_missing hwin htl hidle ?_⟩
  have hscan' : Scanned cfg s (ep + 1) t.buf := by
    refine ⟨by rw [hscan.head, hbuf], by rw [hscan.tail, hbuf], by rw [hscan.bytes, hbuf],
      fun y hy hy' => ?_⟩
    have hslot := hscan.slots y (by rw [hbuf]; exact hy) (by rw [hbuf]; exact hy')
    unfold overdueAt at hslot ⊢
    rwa [hbuf, hnow] at hslot
  exact hscan'.dropped hwin (by omega) fun q hq => by omega

end call

/-- A call that reads a batch that is not done. -/
theorem not_done_call {cfg : Config} {s : Radio}
    (ha : s.ack = .gotPointers s.buf.head_pt s.buf.tail_pt) (hfree : ElementsFree s)
    (hpos : 1 ≤ s.buf.tail_pt) (htl : s.buf.tail_pt < 2 ^ 32 - 1)
    (hord : s.buf.head_pt ≤ s.buf.tail_pt) (hwin : s.buf.tail_pt ≤ s.buf.head_pt + BUF_SIZE)
    (hend : endSeq s < 2 ^ 32 - 1) (hmax : (missing cfg s).length < cfg.max_num_nacks)
    (hdone : ¬doneNow s) :
    ∃ t drops nacks, AckRun cfg s t (drops ++ [.acked (endSeq s) nacks]) ∧ OnlyDrops drops ∧
      ExactCall cfg s t nacks := by
  have halive : s.ack ≠ .aborted := by rw [ha]; nofun
  have hes : endSeq s = s.batch_info.highest_decoded_seq := if_neg hdone
  have hread : stepAck cfg s = some (ackBatchInfo s s.buf.head_pt s.buf.tail_pt) := by
    unfold stepAck
    rw [ha]
  rw [ackBatchInfo_of_not_done hdone] at hread
  -- The scan, when the end is past the head.
  have hscan : ∀ ep, ep + 1 = min s.buf.tail_pt (endSeq s) → s.buf.head_pt ≤ ep + 1 →
      stepAck cfg s = some ({ s with
        batch_info := decodingDone s.batch_info s.now
        ack := .atAssert s.buf.head_pt s.buf.tail_pt ep (endSeq s) }, []) →
      ∃ t drops nacks, AckRun cfg s t (drops ++ [.acked (endSeq s) nacks]) ∧ OnlyDrops drops ∧
        ExactCall cfg s t nacks := by
    intro ep hep hhd hs1
    obtain ⟨t, drops, hrun, hdr, hcall⟩ := exactCall_scan hwin htl hend (u := { s with
      batch_info := decodingDone s.batch_info s.now
      ack := .atAssert s.buf.head_pt s.buf.tail_pt ep (endSeq s) }) rfl rfl rfl hfree hep hhd hmax
    exact ⟨t, drops, _, .silent hs1 halive hrun, hdr, hcall⟩
  by_cases hz : s.batch_info.highest_decoded_seq = 0
  · rw [if_pos hz, ← hes] at hread
    refine ⟨_, [], [], .last hread halive, .nil, ?_⟩
    exact exactCall_early hwin htl (by omega) rfl rfl
  · rw [if_neg hz] at hread
    by_cases hlt : s.batch_info.highest_decoded_seq < s.buf.tail_pt
    · have hsub : sub32 s.batch_info.highest_decoded_seq 1 + 1 = endSeq s := by
        rw [sub32_of_le (by omega) (by omega)]
        omega
      rw [if_pos hlt] at hread
      by_cases hhd : s.buf.head_pt > sub32 s.batch_info.highest_decoded_seq 1
      · rw [if_pos hhd, ← hes] at hread
        refine ⟨_, [], [], .last hread halive, .nil, ?_⟩
        exact exactCall_early hwin htl (by omega) rfl rfl
      · rw [if_neg hhd, ← hes] at hread
        exact hscan _ (by rw [hes] at hsub ⊢; omega) (by rw [← hes] at hhd; omega) hread
    · have hsub : sub32 s.buf.tail_pt 1 + 1 = s.buf.tail_pt := by
        rw [sub32_of_le hpos (by omega)]
        omega
      rw [if_neg hlt, ← hes] at hread
      exact hscan _ (by omega) (by omega) hread

/-- A call that reads a batch that is done: it reads the batch's id once more. -/
theorem done_call {cfg : Config} {s : Radio}
    (ha : s.ack = .gotPointers s.buf.head_pt s.buf.tail_pt) (hfree : ElementsFree s)
    (hpos : 1 ≤ s.buf.tail_pt) (htl : s.buf.tail_pt < 2 ^ 32 - 1)
    (hord : s.buf.head_pt ≤ s.buf.tail_pt) (hwin : s.buf.tail_pt ≤ s.buf.head_pt + BUF_SIZE)
    (hend : endSeq s < 2 ^ 32 - 1) (hmax : (missing cfg s).length < cfg.max_num_nacks)
    (hdone : doneNow s) :
    ∃ t drops nacks, AckRun cfg s t (drops ++ [.acked (endSeq s) nacks]) ∧ OnlyDrops drops ∧
      ExactCall cfg s t nacks := by
  have halive : s.ack ≠ .aborted := by rw [ha]; nofun
  have hes : endSeq s = max s.batch_info.highest_decoded_seq s.buf.tail_pt := if_pos hdone
  have hep : sub32 s.buf.tail_pt 1 + 1 = min s.buf.tail_pt (endSeq s) := by
    rw [sub32_of_le hpos (by omega)]
    omega
  let s1 : Radio := { s with
    batch_info := decodingDone s.batch_info s.now
    ack := .gotBatchInfo s.buf.head_pt s.buf.tail_pt (endSeq s) }
  let s2 : Radio := { s1 with
    batch_id_prev := max s.batch_id_prev s1.batch_info.batch_id
    ack := .atAssert s.buf.head_pt s.buf.tail_pt (sub32 s.buf.tail_pt 1) (endSeq s) }
  have hs1 : stepAck cfg s = some (s1, []) := by
    unfold stepAck
    rw [ha]
    change some (ackBatchInfo s s.buf.head_pt s.buf.tail_pt) = _
    unfold ackBatchInfo getBatchInfo
    have hd : (decodingDone s.batch_info s.now).decoding_done = true := hdone
    simp only [hd, Bool.not_true, Bool.false_eq_true, if_false]
    rw [← hes]
  have hs2 : stepAck cfg s1 = some (s2, []) := rfl
  obtain ⟨t, drops, hrun, hd, hcall⟩ := exactCall_scan hwin htl hend (u := s2) rfl rfl rfl hfree hep
    (by omega) hmax
  refine ⟨t, drops, _, ?_, hd, hcall⟩
  exact .silent hs1 halive (.silent hs2 nofun hrun)

/-- A call that nobody disturbs past its wait, and that collects few numbers,
returns exactly what is missing, in order, and drops exactly the overdue slots. -/
theorem nack_list_is_exact (cfg : Config) {s : Radio}
    (ha : s.ack = .gotPointers s.buf.head_pt s.buf.tail_pt) (hfree : ElementsFree s)
    (hpos : 1 ≤ s.buf.tail_pt) (htl : s.buf.tail_pt < 2 ^ 32 - 1)
    (hord : s.buf.head_pt ≤ s.buf.tail_pt) (hwin : s.buf.tail_pt ≤ s.buf.head_pt + BUF_SIZE)
    (hend : endSeq s < 2 ^ 32 - 1) (hmax : (missing cfg s).length < cfg.max_num_nacks) :
    ∃ t drops nacks, AckRun cfg s t (drops ++ [.acked (endSeq s) nacks]) ∧ OnlyDrops drops ∧
      ExactCall cfg s t nacks := by
  by_cases hdone : doneNow s
  · exact done_call ha hfree hpos htl hord hwin hend hmax hdone
  · exact not_done_call ha hfree hpos htl hord hwin hend hmax hdone

/-- Packet 1 blocked the head for two seconds, packet 2 is here, and packets 3
and 4 belong to the batches before. -/
def twoMissing : Radio := { Radio.atStart with
  buf := ⟨0, 2, fun i => if i.val = 0 then ⟨0, .kBlock, 0, 0⟩ else
    if i.val = 1 then ⟨2, .kOccupiedNew, 5, 0⟩ else ⟨0, .kEmpty, 0, 0⟩, fun _ => 0⟩
  batch_info := ⟨3, 4, false, 2000000, 1000⟩
  now := 2000000
  ack := .gotPointers 0 2 }

theorem two_missing_are_listed :
    missing ⟨1000, 500⟩ twoMissing = [3, 4] ∧ ∃ t drops nacks,
      AckRun ⟨1000, 500⟩ twoMissing t (drops ++ [.acked (endSeq twoMissing) nacks]) ∧
        OnlyDrops drops ∧ ExactCall ⟨1000, 500⟩ twoMissing t nacks :=
  ⟨by decide +kernel, nack_list_is_exact ⟨1000, 500⟩ rfl nofun (by decide) (by decide) (by decide)
    (by decide) (by decide) (by decide +kernel)⟩

end wspace_client.threads

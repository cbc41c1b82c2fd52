-- Batches over whole sequences of packets: each one is decoded at most once,
-- and each of its packets is enqueued once, whatever is lost, repeated or late.
import WspaceClient.Reception
import WspaceClient.RoundTrip
import Mathlib.Data.List.TakeWhile

namespace wspace_client.rcv_ath

open fec

/-! ## The packets that a batch uses -/

theorem arrivals_append (b : Nat) (ps : List AthCodePkt) (p : AthCodePkt) :
    arrivals b (ps ++ [p]) = if (∀ q ∈ ps, q.batch_id ≤ b) ∧ p.batch_id = b
      then arrivals b ps ++ [p] else arrivals b ps := by
  unfold arrivals
  by_cases hall : ∀ q ∈ ps, q.batch_id ≤ b
  · have hps : ps.takeWhile (fun p => p.batch_id ≤ b) = ps := by
      rw [List.takeWhile_eq_self_iff]
      exact fun q hq => decide_eq_true (hall q hq)
    rw [List.takeWhile_append, hps, if_pos rfl]
    by_cases hp : p.batch_id = b
    · rw [if_pos ⟨hall, hp⟩]
      simp [hp]
    · rw [if_neg fun h => hp h.2]
      by_cases hle : p.batch_id ≤ b
      · simp [hp, hle]
      · simp [hle]
  · have hps : (ps.takeWhile fun p => p.batch_id ≤ b).length ≠ ps.length := by
      intro hlen
      refine hall fun q hq => ?_
      have hself := (List.takeWhile_prefix fun p : AthCodePkt => p.batch_id ≤ b).eq_of_length hlen
      rw [← hself] at hq
      exact of_decide_eq_true
        (List.mem_takeWhile_imp (p := fun q : AthCodePkt => q.batch_id ≤ b) hq)
    rw [List.takeWhile_append, if_neg hps, if_neg fun h => hall h.1]

theorem mem_of_mem_arrivals {b : Nat} {ps : List AthCodePkt} {p : AthCodePkt}
    (h : p ∈ arrivals b ps) : p ∈ ps ∧ p.batch_id = b := by
  obtain ⟨hp, hb⟩ := List.mem_filter.mp h
  exact ⟨(List.takeWhile_sublist _).mem hp, of_decide_eq_true hb⟩

theorem used_append (ps : List AthCodePkt) (p : AthCodePkt) :
    used (ps ++ [p]) = keepNew (used ps) p := by
  unfold used
  rw [List.foldl_append]
  rfl

theorem mem_keepNew {us : List AthCodePkt} {p q : AthCodePkt} (h : q ∈ keepNew us p) :
    q ∈ us ∨ q = p := by
  unfold keepNew at h
  split at h
  · rwa [List.mem_append, List.mem_singleton] at h
  · exact .inl h

theorem mem_of_mem_used {ps : List AthCodePkt} {p : AthCodePkt} (h : p ∈ used ps) : p ∈ ps := by
  induction ps using List.reverseRecOn with
  | nil => exact h
  | append_singleton ps q ih =>
    rw [used_append] at h
    rcases mem_keepNew h with h | rfl
    · exact List.mem_append_left _ (ih h)
    · exact List.mem_append_right _ List.mem_cons_self

theorem used_ne_nil {ps : List AthCodePkt} (hk : ∀ p ∈ ps, 0 < p.k) (hne : ps ≠ []) :
    used ps ≠ [] := by
  obtain ⟨init, p, rfl⟩ := List.eq_nil_or_concat ps |>.resolve_left hne
  have hp := hk p (by simp)
  rw [List.concat_eq_append, used_append]
  unfold keepNew
  split
  · exact List.append_ne_nil_of_right_ne_nil _ (List.cons_ne_nil _ _)
  · rintro hnil
    rename_i hfull
    rw [hnil] at hfull
    exact hfull ⟨hp, List.not_mem_nil⟩

/-! ## A run -/

/-- The state and the events after a sequence of packets. -/
structure Current (s : RcvAth) (ps : List AthCodePkt) (tr : List Event) : Prop where
  top : ∀ p ∈ ps, p.batch_id ≤ s.batch_id
  seen : s.batch_id = 0 ∨ ∃ p ∈ ps, p.batch_id = s.batch_id
  holds : Holds s (used (arrivals s.batch_id ps))
  outcome : ∀ b, Outcome (used (arrivals b ps)) (decodes b tr) (enqueues b tr)

theorem RcvAth.Fresh.current {s : RcvAth} (h : s.Fresh) : Current s [] [] := by
  refine ⟨nofun, .inl h.batch_id, ⟨h.codec, h.max_batch_size, h.pkt_size, nofun, ?_, ?_, ?_, nofun⟩,
    fun b => .inl ⟨nofun, rfl, rfl⟩⟩
  · rw [h.early]
    rfl
  · rw [h.cur_ind]
    exact fun _ => rfl
  · rw [h.decoding_done]
    exact iff_of_false Bool.false_ne_true nofun

theorem Current.stale {s : RcvAth} {ps : List AthCodePkt} {tr : List Event} {p : AthCodePkt}
    (h : Current s ps tr) (hlt : p.batch_id < s.batch_id) : Current s (ps ++ [p]) tr := by
  have hkeep : ∀ b, arrivals b (ps ++ [p]) = arrivals b ps := by
    intro b
    rw [arrivals_append]
    refine if_neg fun ⟨hall, hp⟩ => ?_
    rcases h.seen with h0 | ⟨q, hq, hqb⟩
    · omega
    · have hqle := hall q hq
      omega
  refine ⟨fun q hq => ?_, h.seen.imp_right ?_, ?_, fun b => ?_⟩
  · rcases List.mem_append.mp hq with hq | hq
    · exact h.top q hq
    · rw [List.mem_singleton.mp hq]
      exact hlt.le
  · rintro ⟨q, hq, hqb⟩
    exact ⟨q, List.mem_append_left _ hq, hqb⟩
  · rw [hkeep]
    exact h.holds
  · rw [hkeep]
    exact h.outcome b

theorem Current.step {cfg : Config} {s : RcvAth} {ps : List AthCodePkt} {tr : List Event}
    {p : AthCodePkt} (dur : Nat) (h : Current s ps tr) (hp : Downlink cfg p)
    (hk : ∀ q ∈ ps, 0 < q.k) (hc : Consistent (ps ++ [p])) :
    ∃ s' out, rcvBatch cfg s p dur = .ok (s', out) ∧ Current s' (ps ++ [p]) (tr ++ out) := by
  by_cases hlt : p.batch_id < s.batch_id
  · refine ⟨s, [], if_pos hlt, ?_⟩
    rw [List.append_nil]
    exact h.stale hlt
  have hle : s.batch_id ≤ p.batch_id := by omega
  have hall : ∀ q ∈ ps, q.batch_id ≤ p.batch_id := fun q hq => (h.top q hq).trans hle
  have harr : arrivals p.batch_id (ps ++ [p]) = arrivals p.batch_id ps ++ [p] := by
    rw [arrivals_append, if_pos ⟨hall, rfl⟩]
  have hothers : ∀ b, b ≠ p.batch_id → arrivals b (ps ++ [p]) = arrivals b ps := fun b hb => by
    rw [arrivals_append, if_neg fun h => hb h.2.symm]
  have hvs : used (arrivals p.batch_id ps) =
      if s.batch_id < p.batch_id then [] else used (arrivals s.batch_id ps) := by
    by_cases hnew : s.batch_id < p.batch_id
    · have hnil : arrivals p.batch_id ps = [] := by
        rw [List.eq_nil_iff_forall_not_mem]
        intro q hq
        obtain ⟨hq, hqb⟩ := mem_of_mem_arrivals hq
        have hqs := h.top q hq
        omega
      rw [if_pos hnew, hnil]
      rfl
    · rw [if_neg hnew, Nat.le_antisymm hle (by omega)]
  have hne : s.batch_id = p.batch_id → used (arrivals s.batch_id ps) ≠ [] := by
    intro hb
    have hpos := hp.header.batch_pos
    obtain ⟨q, hq, hqb⟩ := h.seen.resolve_left (by omega)
    refine used_ne_nil (fun r hr => hk r (mem_of_mem_arrivals hr).1)
      (List.ne_nil_of_mem (a := q) ?_)
    refine List.mem_filter.mpr ⟨?_, decide_eq_true hqb⟩
    rw [List.takeWhile_eq_self_iff.mpr fun r hr => decide_eq_true (h.top r hr)]
    exact hq
  have hsame : ∀ q ∈ used (arrivals p.batch_id ps), SameBatch q p := by
    intro q hq
    obtain ⟨hq, hqb⟩ := mem_of_mem_arrivals (mem_of_mem_used hq)
    exact hc q (List.mem_append_left _ hq) p (List.mem_append_right _ List.mem_cons_self) hqb
  obtain ⟨s', out, hrcv, hb', hholds, hans⟩ := rcvBatch_ok dur hp h.holds hle hvs hne hsame
  refine ⟨s', out, hrcv, fun q hq => ?_, .inr ⟨p, by simp, hb'.symm⟩, ?_, fun b => ?_⟩
  · rw [hb']
    rcases List.mem_append.mp hq with hq | hq
    · exact hall q hq
    · rw [List.mem_singleton.mp hq]
  · rw [hb', harr, used_append]
    exact hholds
  · rw [enqueues_append, decodes_append]
    by_cases hb : b = p.batch_id
    · subst hb
      rw [harr, used_append]
      exact hans.outcome _ _ (h.outcome _)
    · have hquiet := hans.others b hb
      rw [hothers b hb, hquiet.enqueues, hquiet.decodes, List.append_nil, List.append_nil]
      exact h.outcome b

/-- The packets of the downlink pass every check before the rate. -/
theorem Downlink.rxRcvAth {cfg : Config} {p : AthCodePkt} (hp : Downlink cfg p) (s : RcvAth) :
    rxRcvAth cfg s p = match getRate p.rate with
      | none => .error .getRate
      | some rate => do
        let (s, out) ← rcvBatch cfg s p (perPktDuration p.nread rate)
        return (s, .pushPkts p.raw_seq :: .setBsId p.bs_id :: out) := by
  unfold rcv_ath.rxRcvAth
  refine (if_neg (by rw [hp.good]; decide)).trans ?_
  refine (if_neg (by rw [hp.parsed]; decide)).trans ?_
  refine (if_neg (not_not_intro hp.client)).trans ?_
  refine (if_neg (not_not_intro hp.radio.symm)).trans ?_
  cases getRate p.rate <;> rfl

theorem rxRcvAth_ok {cfg : Config} {s : RcvAth} {ps : List AthCodePkt} {tr : List Event}
    {p : AthCodePkt} {rate : Nat} (h : Current s ps tr) (hp : Downlink cfg p)
    (hk : ∀ q ∈ ps, 0 < q.k) (hc : Consistent (ps ++ [p])) (hrate : getRate p.rate = some rate) :
    ∃ s' out, rxRcvAth cfg s p = .ok (s', out) ∧ Current s' (ps ++ [p]) (tr ++ out) := by
  obtain ⟨s', out, hrcv, hcur⟩ := h.step (perPktDuration p.nread rate) hp hk hc
  have hheader : ∀ b, Silent b [.pushPkts p.raw_seq, .setBsId p.bs_id] := fun _ => ⟨rfl, rfl⟩
  rw [hp.rxRcvAth, hrate]
  simp only [hrcv, bind, Except.bind]
  refine ⟨s', _, rfl, hcur.top, hcur.seen, hcur.holds, fun b => ?_⟩
  have hout := hcur.outcome b
  rw [enqueues_append, decodes_append] at hout ⊢
  exact hout

/-- A run ends the process only for a rate that is not one. -/
theorem receive_current {cfg : Config} {s : RcvAth} {done ps : List AthCodePkt} {tr : List Event}
    (h : Current s done tr) (hps : ∀ p ∈ ps, Downlink cfg p) (hk : ∀ q ∈ done, 0 < q.k)
    (hc : Consistent (done ++ ps)) :
    (∃ p ∈ ps, getRate p.rate = none ∧ receive cfg s ps = .error .getRate) ∨
      ∃ s' out, receive cfg s ps = .ok (s', out) ∧ Current s' (done ++ ps) (tr ++ out) := by
  induction ps generalizing s done tr with
  | nil =>
    refine .inr ⟨s, [], rfl, ?_⟩
    rw [List.append_nil, List.append_nil]
    exact h
  | cons p ps ih =>
    have hp := hps p List.mem_cons_self
    unfold receive
    cases hrate : getRate p.rate with
    | none =>
      refine .inl ⟨p, List.mem_cons_self, hrate, ?_⟩
      rw [hp.rxRcvAth, hrate]
      rfl
    | some rate =>
      have hsplit : done ++ p :: ps = done ++ [p] ++ ps := by simp
      rw [hsplit] at hc ⊢
      obtain ⟨s1, out, h1, hcur⟩ := rxRcvAth_ok h hp hk
        (fun q hq r hr => hc q (List.mem_append_left _ hq) r (List.mem_append_left _ hr)) hrate
      have hk' : ∀ q ∈ done ++ [p], 0 < q.k := by
        intro q hq
        rcases List.mem_append.mp hq with hq | hq
        · exact hk q hq
        · rw [List.mem_singleton.mp hq]
          exact hp.header.k_pos
      simp only [h1, bind, Except.bind]
      rcases ih hcur (fun q hq => hps q (List.mem_cons_of_mem _ hq)) hk' hc with
        ⟨q, hq, hnone, herr⟩ | ⟨s2, out', h2, hcur'⟩
      · exact .inl ⟨q, List.mem_cons_of_mem _ hq, hnone, by rw [herr]⟩
      · refine .inr ⟨s2, out ++ out', by rw [h2]; rfl, ?_⟩
        rwa [← List.append_assoc]

/-! ## What a batch enqueues -/

theorem used_nodup (ps : List AthCodePkt) : ((used ps).map (·.ind)).Nodup := by
  induction ps using List.reverseRecOn with
  | nil => exact List.nodup_nil
  | append_singleton ps p ih =>
    rw [used_append]
    unfold keepNew
    split
    · rename_i hnew
      rw [List.map_append, List.nodup_append']
      refine ⟨ih, List.nodup_singleton _, ?_⟩
      rw [List.map_singleton, List.disjoint_singleton]
      exact hnew.2
    · exact ih

/-- A batch that did not use every index is full. -/
theorem used_full {ps : List AthCodePkt} {k : Nat} (hk : ∀ p ∈ ps, p.k = k) :
    k ≤ (used ps).length ∨ ∀ p ∈ ps, p.ind ∈ (used ps).map (·.ind) := by
  induction ps using List.reverseRecOn with
  | nil => exact .inr nofun
  | append_singleton ps p ih =>
    have hp := hk p (List.mem_append_right _ List.mem_cons_self)
    rw [used_append]
    unfold keepNew
    rcases ih fun q hq => hk q (List.mem_append_left _ hq) with hfull | hall
    · rw [if_neg (by omega)]
      exact .inl hfull
    · split
      · refine .inr fun q hq => ?_
        rw [List.map_append]
        rcases List.mem_append.mp hq with hq | hq
        · exact List.mem_append_left _ (hall q hq)
        · rw [List.mem_singleton.mp hq]
          exact List.mem_append_right _ List.mem_cons_self
      · rename_i hno
        rw [hp, not_and_or, not_not] at hno
        refine hno.imp (by omega) fun hin q hq => ?_
        rcases List.mem_append.mp hq with hq | hq
        · exact hall q hq
        · rwa [List.mem_singleton.mp hq]

theorem used_length {ps : List AthCodePkt} {k : Nat} (hk : ∀ p ∈ ps, p.k = k)
    (hdistinct : k ≤ (ps.map (·.ind)).dedup.length) : k ≤ (used ps).length := by
  rcases used_full hk with hfull | hall
  · exact hfull
  · have hsub : (ps.map (·.ind)).dedup ⊆ (used ps).map (·.ind) := by
      intro i hi
      obtain ⟨p, hp, rfl⟩ := List.mem_map.mp (List.mem_dedup.mp hi)
      exact hall p hp
    have hlen := (List.subperm_of_subset (List.nodup_dedup _) hsub).length_le
    rw [List.length_map] at hlen
    omega

theorem add32_inj {a i j : Nat} (hi : i < 2 ^ 32) (hj : j < 2 ^ 32) (h : add32 a i = add32 a j) :
    i = j := by
  unfold add32 u32 at h
  have hij := eq_of_mod_eq_of_window (N := 2 ^ 32) (h := a) (by omega) (by omega) (by omega)
    (by omega) h
  omega

theorem used_length_le {ps : List AthCodePkt} {k : Nat} (hk : ∀ p ∈ ps, p.k = k) :
    (used ps).length ≤ k := by
  induction ps using List.reverseRecOn with
  | nil => exact Nat.zero_le _
  | append_singleton ps p ih =>
    have hp := hk p (List.mem_append_right _ List.mem_cons_self)
    have hle := ih fun q hq => hk q (List.mem_append_left _ hq)
    rw [used_append]
    unfold keepNew
    split
    · rw [List.length_append, List.length_singleton]
      omega
    · exact hle

theorem mem_natives {us : List AthCodePkt} {p : AthCodePkt} :
    p ∈ natives us ↔ p ∈ us ∧ p.ind < p.k := by
  unfold natives isNative
  rw [List.mem_filter, decide_eq_true_eq]

/-- The calls for one batch, against the packets that came while it was current. -/
structure ReceivedOnce (ps : List AthCodePkt) (ds : List (List Nat × (Nat → Nat → Gf)))
    (es : List NativePkt) : Prop where
  decode_once : ds.length ≤ 1
  decode_inds : ∀ d ∈ ds, ∃ p ∈ ps, d.1.length = p.k ∧ d.1.Nodup ∧ ∀ i ∈ d.1, i < p.n
  once : (es.map (·.seq_num)).Nodup
  native : ∀ e ∈ es, ∃ p ∈ ps, ∃ i < p.k, e.seq_num = add32 p.start_seq i ∧ e.len = p.lens i
  complete : ∀ p ∈ ps, p.k ≤ (ps.map (·.ind)).dedup.length → ∀ i < p.k,
    ∃ e ∈ es, e.seq_num = add32 p.start_seq i ∧
      ((∃ q ∈ used ps, q.ind = i ∧ e.buf = q.payload) ∨
        (i ∉ (used ps).map (·.ind) ∧ ∃ d ∈ ds, e.buf = d.2 i))

/-- The indices that did not come as themselves. -/
def lateInds (k : Nat) (us : List AthCodePkt) : List Nat :=
  (List.range k).filter fun i => i ∉ (natives us).map (·.ind)

theorem inds_nodup (ps : List AthCodePkt) (k : Nat) :
    ((natives (used ps)).map (·.ind) ++ lateInds k (used ps)).Nodup := by
  rw [List.nodup_append']
  refine ⟨(used_nodup ps).sublist (List.filter_sublist.map _), List.nodup_range.filter _, ?_⟩
  intro i hi hlate
  exact of_decide_eq_true (List.mem_filter.mp hlate).2 hi

section batch

variable {ps : List AthCodePkt} {p : AthCodePkt} (hall : ∀ q ∈ ps, SameBatch q p)

include hall

theorem ownPkt_seq : ((natives (used ps)).map ownPkt).map (·.seq_num) =
    ((natives (used ps)).map (·.ind)).map (add32 p.start_seq) := by
  rw [List.map_map, List.map_map]
  refine List.map_congr_left fun q hq => ?_
  have hq := hall q (mem_of_mem_used (mem_natives.mp hq).1)
  show add32 q.start_seq q.ind = add32 p.start_seq q.ind
  rw [hq.start_seq]

theorem natives_ind {i : Nat} (hi : i ∈ (natives (used ps)).map (·.ind)) :
    i < p.k ∧ ∃ q ∈ used ps, q.ind = i ∧ ownPkt q = ⟨add32 p.start_seq i, p.lens i, q.payload⟩ := by
  obtain ⟨q, hq, rfl⟩ := List.mem_map.mp hi
  obtain ⟨hqu, hqk⟩ := mem_natives.mp hq
  have hsame := hall q (mem_of_mem_used hqu)
  refine ⟨by rw [← hsame.k]; exact hqk, q, hqu, rfl, ?_⟩
  unfold ownPkt
  rw [hsame.start_seq, hsame.lens _ hqk]

theorem latePkts_eq {q : AthCodePkt} (hq : q ∈ ps) (us : List AthCodePkt)
    (batch : Nat → Nat → Gf) : latePkts q us batch =
      (lateInds p.k us).map fun i => ⟨add32 p.start_seq i, p.lens i, batch i⟩ := by
  have hsame := hall q hq
  unfold latePkts lateInds
  rw [hsame.k]
  refine List.map_congr_left fun i hi => ?_
  have hik := List.mem_range.mp (List.mem_filter.mp hi).1
  rw [hsame.start_seq, hsame.lens i (by rw [hsame.k]; exact hik)]

/-- The late packets of a batch, and the decoding that they need. -/
theorem outcome_cases {ds : List (List Nat × (Nat → Nat → Gf))} {es : List NativePkt}
    (h : Outcome (used ps) ds es) : ∃ late, es = (natives (used ps)).map ownPkt ++ late ∧
      ((ds = [] ∧ late = [] ∧ ((used ps).length = p.k → (natives (used ps)).length = p.k)) ∨
        ∃ batch, (used ps).length = p.k ∧ ds = [((used ps).map (·.ind), batch)] ∧
          late = (lateInds p.k (used ps)).map fun i =>
            ⟨add32 p.start_seq i, p.lens i, batch i⟩) := by
  rcases h with ⟨hno, hds, hes⟩ | ⟨q, hq, hneeds, batch, hds, hes⟩
  · refine ⟨[], by rw [hes, List.append_nil], .inl ⟨hds, rfl, fun hlen => ?_⟩⟩
    by_contra hlt
    cases hus : used ps with
    | nil =>
      rw [hus] at hlen hlt
      exact hlt hlen
    | cons q us =>
      have hq : q ∈ used ps := hus ▸ List.mem_cons_self
      have hk := (hall q (mem_of_mem_used hq)).k
      exact hno q hq ⟨by rw [hlen, hk], by rw [hk]; exact hlt⟩
  · have hqps := mem_of_mem_used hq
    refine ⟨_, hes, .inr ⟨batch, ?_, hds, latePkts_eq hall hqps _ batch⟩⟩
    rw [hneeds.1, (hall q hqps).k]

theorem enqueued_once {ds : List (List Nat × (Nat → Nat → Gf))} {es : List NativePkt}
    (hk : p.k ≤ MAX_BATCH_SIZE) (h : Outcome (used ps) ds es) : (es.map (·.seq_num)).Nodup := by
  have hinj : ∀ is : List Nat, (∀ i ∈ is, i < p.k) → is.Nodup →
      (is.map (add32 p.start_seq)).Nodup := by
    intro is hlt hnodup
    refine hnodup.map_on fun i hi j hj he => add32_inj ?_ ?_ he
    · exact (hlt i hi).trans_le (hk.trans (by decide))
    · exact (hlt j hj).trans_le (hk.trans (by decide))
  have hnat : ∀ i ∈ (natives (used ps)).map (·.ind), i < p.k := fun i hi => (natives_ind hall hi).1
  obtain ⟨late, rfl, ⟨-, rfl, -⟩ | ⟨batch, -, -, rfl⟩⟩ := outcome_cases hall h
  · rw [List.append_nil, ownPkt_seq hall]
    exact hinj _ hnat (List.nodup_append'.mp (inds_nodup ps p.k)).1
  · have hlate : ((lateInds p.k (used ps)).map fun i =>
        (⟨add32 p.start_seq i, p.lens i, batch i⟩ : NativePkt)).map (·.seq_num) =
          (lateInds p.k (used ps)).map (add32 p.start_seq) := List.map_map
    rw [List.map_append, ownPkt_seq hall, hlate, ← List.map_append]
    refine hinj _ (fun i hi => ?_) (inds_nodup ps p.k)
    rcases List.mem_append.mp hi with hi | hi
    · exact hnat i hi
    · exact List.mem_range.mp (List.mem_filter.mp hi).1

theorem enqueued_native {ds : List (List Nat × (Nat → Nat → Gf))} {es : List NativePkt}
    (h : Outcome (used ps) ds es) {e : NativePkt} (he : e ∈ es) :
    ∃ i < p.k, e.seq_num = add32 p.start_seq i ∧ e.len = p.lens i := by
  have hown : e ∈ (natives (used ps)).map ownPkt →
      ∃ i < p.k, e.seq_num = add32 p.start_seq i ∧ e.len = p.lens i := by
    intro he
    obtain ⟨q, hq, rfl⟩ := List.mem_map.mp he
    obtain ⟨hqu, hqk⟩ := mem_natives.mp hq
    have hsame := hall q (mem_of_mem_used hqu)
    exact ⟨q.ind, by rw [← hsame.k]; exact hqk, by rw [← hsame.start_seq]; rfl, hsame.lens _ hqk⟩
  obtain ⟨late, rfl, ⟨-, rfl, -⟩ | ⟨batch, -, -, rfl⟩⟩ := outcome_cases hall h
  · rw [List.append_nil] at he
    exact hown he
  · rcases List.mem_append.mp he with he | he
    · exact hown he
    · obtain ⟨i, hi, rfl⟩ := List.mem_map.mp he
      exact ⟨i, List.mem_range.mp (List.mem_filter.mp hi).1, rfl, rfl⟩

theorem enqueued_complete {ds : List (List Nat × (Nat → Nat → Gf))} {es : List NativePkt}
    (h : Outcome (used ps) ds es) (hdistinct : p.k ≤ (ps.map (·.ind)).dedup.length) {i : Nat}
    (hi : i < p.k) : ∃ e ∈ es, e.seq_num = add32 p.start_seq i ∧
      ((∃ q ∈ used ps, q.ind = i ∧ e.buf = q.payload) ∨
        (i ∉ (used ps).map (·.ind) ∧ ∃ d ∈ ds, e.buf = d.2 i)) := by
  have hk : ∀ q ∈ ps, q.k = p.k := fun q hq => (hall q hq).k
  have hlen := Nat.le_antisymm (used_length_le hk) (used_length hk hdistinct)
  have hown : ∀ late, i ∈ (natives (used ps)).map (·.ind) →
      ∃ e ∈ (natives (used ps)).map ownPkt ++ late, e.seq_num = add32 p.start_seq i ∧
        ((∃ q ∈ used ps, q.ind = i ∧ e.buf = q.payload) ∨
          (i ∉ (used ps).map (·.ind) ∧ ∃ d ∈ ds, e.buf = d.2 i)) := by
    intro late hin
    obtain ⟨q, hq, rfl⟩ := List.mem_map.mp hin
    obtain ⟨hqu, -⟩ := mem_natives.mp hq
    refine ⟨ownPkt q, List.mem_append_left _ (List.mem_map_of_mem hq), ?_, .inl ⟨q, hqu, rfl, rfl⟩⟩
    rw [← (hall q (mem_of_mem_used hqu)).start_seq]
    rfl
  obtain ⟨late, rfl, ⟨-, rfl, hnat⟩ | ⟨batch, -, rfl, rfl⟩⟩ := outcome_cases hall h
  · -- All of the `k` packets are native, so every index is among them.
    apply hown []
    have hsub : (natives (used ps)).map (·.ind) ⊆ List.range p.k := fun j hj =>
      List.mem_range.mpr (natives_ind hall hj).1
    have hnodup := (List.nodup_append'.mp (inds_nodup ps p.k)).1
    have hperm := (List.subperm_of_subset hnodup hsub).perm_of_length_le
      (by rw [List.length_range, List.length_map, hnat hlen])
    exact hperm.mem_iff.mpr (List.mem_range.mpr hi)
  · by_cases hin : i ∈ (natives (used ps)).map (·.ind)
    · exact hown _ hin
    · have hlate : i ∈ lateInds p.k (used ps) :=
        List.mem_filter.mpr ⟨List.mem_range.mpr hi, decide_eq_true hin⟩
      refine ⟨_, List.mem_append_right _ (List.mem_map_of_mem hlate), rfl, .inr ⟨?_, _,
        List.mem_cons_self, rfl⟩⟩
      intro hused
      obtain ⟨q, hq, rfl⟩ := List.mem_map.mp hused
      refine hin (List.mem_map_of_mem (mem_natives.mpr ⟨hq, ?_⟩))
      rwa [(hall q (mem_of_mem_used hq)).k]

end batch

theorem Outcome.decode_once {us : List AthCodePkt} {ds : List (List Nat × (Nat → Nat → Gf))}
    {es : List NativePkt} (h : Outcome us ds es) : ds.length ≤ 1 := by
  rcases h with ⟨-, rfl, -⟩ | ⟨_, -, -, _, rfl, -⟩
  · exact Nat.zero_le _
  · exact Nat.le_refl _

theorem Outcome.receivedOnce {cfg : Config} {ps : List AthCodePkt}
    {ds : List (List Nat × (Nat → Nat → Gf))} {es : List NativePkt}
    (h : Outcome (used ps) ds es) (hps : ∀ p ∈ ps, Downlink cfg p)
    (hall : ∀ p ∈ ps, ∀ q ∈ ps, SameBatch q p) : ReceivedOnce ps ds es := by
  refine ⟨h.decode_once, fun d hd => ?_, ?_, fun e he => ?_, fun p hp hdistinct i hi =>
    enqueued_complete (hall p hp) h hdistinct hi⟩
  · rcases h with ⟨-, rfl, -⟩ | ⟨q, hq, hneeds, batch, rfl, -⟩
    · cases hd
    · rw [List.mem_singleton.mp hd]
      refine ⟨q, mem_of_mem_used hq, by rw [List.length_map]; exact hneeds.1, used_nodup ps, ?_⟩
      intro i hi
      obtain ⟨r, hr, rfl⟩ := List.mem_map.mp hi
      have hr := mem_of_mem_used hr
      rw [← (hall q (mem_of_mem_used hq) r hr).n]
      exact (hps r hr).header.ind_lt
  · cases hnil : ps with
    | nil =>
      rw [hnil] at h
      rcases h with ⟨-, -, rfl⟩ | ⟨_, hq, -⟩
      · exact List.nodup_nil
      · cases hq
    | cons p qs =>
      have hp : p ∈ ps := hnil ▸ List.mem_cons_self
      exact enqueued_once (hall p hp) (hps p hp).header.k_max h
  · have hne : ∃ p, p ∈ ps := by
      rcases h with ⟨-, -, rfl⟩ | ⟨q, hq, -⟩
      · obtain ⟨q, hq, -⟩ := List.mem_map.mp he
        exact ⟨q, mem_of_mem_used (mem_natives.mp hq).1⟩
      · exact ⟨q, mem_of_mem_used hq⟩
    obtain ⟨p, hp⟩ := hne
    obtain ⟨i, hi, hseq⟩ := enqueued_native (hall p hp) h he
    exact ⟨p, hp, i, hi, hseq⟩

/-- Whatever comes of the downlink: no push and no pop fails, each batch is
decoded at most once, and each of its packets is enqueued once. -/
theorem batches_are_received_once {cfg : Config} {s : RcvAth} {ps : List AthCodePkt}
    (hs : s.Fresh) (hps : ∀ p ∈ ps, Downlink cfg p) (hc : Consistent ps) :
    ((∃ p ∈ ps, getRate p.rate = none ∧ receive cfg s ps = .error .getRate) ∨
      ∃ s' tr, receive cfg s ps = .ok (s', tr)) ∧
    ∀ s' tr, receive cfg s ps = .ok (s', tr) →
      ∀ b, ReceivedOnce (arrivals b ps) (decodes b tr) (enqueues b tr) := by
  have hrun := receive_current hs.current hps nofun hc
  refine ⟨hrun.imp id fun ⟨s', tr, hr, _⟩ => ⟨s', tr, hr⟩, fun s' tr hr b => ?_⟩
  rcases hrun with ⟨_, -, -, herr⟩ | ⟨s2, tr2, hr2, hcur⟩
  · rw [herr] at hr
    cases hr
  · rw [hr2, Except.ok.injEq, Prod.mk.injEq] at hr
    obtain ⟨rfl, rfl⟩ := hr
    refine (hcur.outcome b).receivedOnce (fun p hp => hps p (mem_of_mem_arrivals hp).1) ?_
    intro p hp q hq
    obtain ⟨hp, hpb⟩ := mem_of_mem_arrivals hp
    obtain ⟨hq, hqb⟩ := mem_of_mem_arrivals hq
    exact hc q hq p hp (hqb.trans hpb.symm)

/-- A coded packet of a batch of two, with two bytes of payload. -/
def pairPkt (ind : Nat) : AthCodePkt where
  is_good := true
  type := ATH_CODE
  raw_seq := 1
  rate := 0x0B
  bs_id := 1
  client_id := 7
  batch_id := 1
  start_seq := 5
  ind := ind
  k := 2
  n := 3
  lens := fun _ => 2
  payload := fun _ => .ofNat ind
  nread := 42

/-- The thread before its first packet, with a decoder of the constructor. -/
def newRcvAth : RcvAth :=
  ⟨0, 0, false, 0, fun _ => 0, newCodeInfo .kDecoder⟩

theorem newRcvAth_fresh : newRcvAth.Fresh := ⟨rfl, rfl, rfl, rfl, rfl, rfl, rfl, rfl⟩

theorem pairPkt_same (i j : Nat) : SameBatch (pairPkt i) (pairPkt j) :=
  ⟨rfl, rfl, rfl, fun _ _ => rfl⟩

theorem pairPkt_downlink {i : Nat} (hi : i < 3) : Downlink ⟨7, 1, 36⟩ (pairPkt i) := by
  have hlen : payloadLen ⟨7, 1, 36⟩ (pairPkt i) = 2 := rfl
  refine ⟨rfl, ?_, rfl, rfl, Nat.lt_of_sub_ne_zero (by decide : 2 ^ 8 - 3 ≠ 0), ?_, ?_⟩
  · simp [parseHeader, pairPkt, hi, MAX_BATCH_SIZE]
  · rw [hlen]
    decide
  · rw [hlen]
    decide

/-- The first packet of the batch is lost, and the second one comes twice. -/
theorem a_lossy_pair_is_received_once :
    (∃ s' tr, receive ⟨7, 1, 36⟩ newRcvAth ([1, 1, 2].map pairPkt) = .ok (s', tr)) ∧
    ∀ s' tr, receive ⟨7, 1, 36⟩ newRcvAth ([1, 1, 2].map pairPkt) = .ok (s', tr) →
      ReceivedOnce (arrivals 1 ([1, 1, 2].map pairPkt)) (decodes 1 tr) (enqueues 1 tr) := by
  have hpkts : ∀ p ∈ [1, 1, 2].map pairPkt, Downlink ⟨7, 1, 36⟩ p := by
    intro p hp
    obtain ⟨i, hi, rfl⟩ := List.mem_map.mp hp
    have hi3 : ∀ i ∈ [1, 1, 2], i < 3 := by decide
    exact pairPkt_downlink (hi3 i hi)
  obtain ⟨herr, hreceived⟩ := batches_are_received_once newRcvAth_fresh hpkts (by
    intro p hp q hq _
    obtain ⟨i, -, rfl⟩ := List.mem_map.mp hp
    obtain ⟨j, -, rfl⟩ := List.mem_map.mp hq
    exact pairPkt_same i j)
  refine ⟨herr.resolve_left ?_, fun s' tr hr => hreceived s' tr hr 1⟩
  rintro ⟨p, hp, hrate, -⟩
  obtain ⟨i, -, rfl⟩ := List.mem_map.mp hp
  cases hrate

end wspace_client.rcv_ath

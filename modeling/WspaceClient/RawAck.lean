-- The raw acknowledgements: every report of `RxRawBuf` becomes one `AckPkt`.
-- The capacity test bounds the packets since the last report only, so the
-- lost numbers of the rounds before it can still fill the packet.
import WspaceClient.AckPkt

namespace wspace_client.raw_ack

open machine rx_raw_buf ack_pkt

/-- `RxCreateRawAck` builds a packet from the report, and the packet decodes to it. -/
def RawAckExact (nack_vec : List Nat) (end_seq num_pkts : Nat) : Prop :=
  nack_vec.length < ACK_WINDOW ∧
  ∀ p client_id bs_id, ∃ p', rxCreateRawAck p nack_vec end_seq num_pkts client_id bs_id = .ok p' ∧
    (parseNack p').seq_arr = nack_vec ∧ (parseNack p').num_pkts = num_pkts ∧
    (parseNack p').end_seq = end_seq

/-- `RxRcvAth` pushes good packets, and `RxCreateRawAck` waits for `min_pkt_cnt_` of them. -/
def clientCalls (min_pkt_cnt : Nat) (_ : List Event) (_ : RxRawBuf) : Label → Prop
  | .push _ is_cur_good _ => is_cur_good = true
  | .pop n => n = min_pkt_cnt

instance (min_pkt_cnt : Nat) (tr : List Event) (b : RxRawBuf) :
    (l : Label) → Decidable (clientCalls min_pkt_cnt tr b l)
  | .push _ good _ => inferInstanceAs (Decidable (good = true))
  | .pop n => inferInstanceAs (Decidable (n = min_pkt_cnt))

/-- The numbers that were lost in the last `m` rounds, oldest first. -/
def lostIn (m : Nat) (tr : List Event) : List Nat :=
  ((history tr).rounds.take m).reverse.flatten

/-- They fit one packet, and the 16 bits of a relative number. -/
def OnePacket (lost : List Nat) : Prop :=
  lost.length < ACK_WINDOW ∧ ∀ q ∈ lost, q < lost.headD 0 + 2 ^ 16

instance (lost : List Nat) : Decidable (OnePacket lost) := inferInstanceAs (Decidable (_ ∧ _))

/-! ## A packet is exact if and only if its list is in one packet -/

theorem rxCreateRawAck_ok {p : AckPkt} {v : List Nat} {g n : Nat} {client_id bs_id : Int}
    (hv : ∀ q ∈ v, q < 2 ^ 32) (hlen : v.length < ACK_WINDOW) :
    ∃ p', rxCreateRawAck p v g n client_id bs_id = .ok p' ∧ Filled p' v ∧
      p'.ack_hdr.num_pkts = n ∧ p'.ack_hdr.end_seq = g := by
  obtain ⟨p1, hp1, h1⟩ := pushNacks_ok (init_filled p .RAW_ACK) hv (by simpa using hlen)
  refine ⟨set_ids (set_num_pkts (set_end_seq p1 g) n) client_id bs_id, ?_, ?_, rfl, rfl⟩
  · unfold rxCreateRawAck
    rw [hp1]
    rfl
  · exact ⟨h1.num, h1.arr, h1.start⟩

theorem rxCreateRawAck_full {p : AckPkt} {v : List Nat} {g n : Nat} {client_id bs_id : Int}
    (hv : ∀ q ∈ v, q < 2 ^ 32) (hlen : ACK_WINDOW ≤ v.length) :
    rxCreateRawAck p v g n client_id bs_id = .error .rawNackFull := by
  unfold rxCreateRawAck
  rw [pushNacks_full (init_filled p .RAW_ACK) hv (by decide) (by simpa using hlen)]
  rfl

theorem rawAckExact_iff {v : List Nat} {g n : Nat} (hasc : v.Pairwise (· < ·))
    (hv : ∀ q ∈ v, q < 2 ^ 32) : RawAckExact v g n ↔ OnePacket v := by
  constructor
  · rintro ⟨hlen, h⟩
    refine ⟨hlen, ?_⟩
    -- Any packet of the caller will do; here it is a zeroed one.
    obtain ⟨p', hp', harr, -, -⟩ := h ⟨⟨.RAW_ACK, 0, 0, 0, 0, 0, 0, 0⟩, fun _ => 0⟩ 0 0
    obtain ⟨p2, hp2, hfill, -, -⟩ := rxCreateRawAck_ok hv hlen
    rw [hp2] at hp'
    cases hp'
    exact (seq_arr_filled hfill hasc hv).mp harr
  · rintro ⟨hlen, hwin⟩
    refine ⟨hlen, fun p client_id bs_id => ?_⟩
    obtain ⟨p', hp', hfill, hn, hg⟩ := rxCreateRawAck_ok hv hlen
    exact ⟨p', hp', (seq_arr_filled hfill hasc hv).mpr hwin, hn, hg⟩

/-! ## The lost numbers ascend over the rounds -/

theorem map_seq_outstanding (m age : Nat) (rs : List (List Nat)) :
    (outstanding m age rs).map (·.seq) = (rs.take (m - age)).reverse.flatten := by
  induction rs generalizing age with
  | nil => simp [outstanding]
  | cons r rs ih =>
    unfold outstanding
    split
    · rename_i hage
      have htake : m - age = (m - (age + 1)) + 1 := by omega
      rw [List.map_append, ih, htake]
      simp [Function.comp_def]
    · rename_i hage
      have htake : m - age = 0 := by omega
      simp [htake]

/-- The numbers of all rounds, oldest first. -/
def History.all (h : History) : List Nat := h.rounds.reverse.flatten

theorem all_lost (h : History) (qs : List Nat) :
    (h.lost qs).reverse.flatten = History.all h ++ qs := by
  unfold History.lost History.all
  split
  · rename_i hr
    simp [hr]
  · rename_i r rs hr
    simp [hr]

/-- They ascend, and none is past the last packet. -/
structure Ascending (h : History) : Prop where
  lt : (History.all h).Pairwise (· < ·)
  le : ∀ q ∈ History.all h, q ≤ h.last

/-- The packet of a push comes after every packet before it. -/
def Event.Follows (h : History) : Event → Prop
  | .pushed q _ _ => h.last < q
  | .popped _ _ _ => True

theorem after_ascending {h : History} {e : Event} (ha : Ascending h) (he : Event.Follows h e) :
    Ascending (h.after e) := by
  obtain ⟨hlt, hle⟩ := ha
  cases e with
  | pushed q good fit =>
    have hq : h.last < q := he
    cases fit with
    | true =>
      have hall : History.all (h.after (.pushed q good true)) =
          History.all h ++ (holes h.last q ++ if good then [] else [q]) := all_lost _ _
      have hholes : ∀ x ∈ holes h.last q, h.last < x ∧ x < q := by
        intro x hx
        rw [holes, List.mem_range'_1] at hx
        omega
      have hnew : ∀ x ∈ holes h.last q ++ (if good then [] else [q]), h.last < x ∧ x ≤ q := by
        intro x hx
        rcases List.mem_append.mp hx with hx | hx
        · have := hholes x hx
          omega
        · cases good <;> simp at hx
          omega
      refine ⟨?_, ?_⟩
      · rw [hall, List.pairwise_append]
        refine ⟨hlt, ?_, ?_⟩
        · rw [List.pairwise_append]
          refine ⟨List.pairwise_lt_range' 1, by cases good <;> simp, ?_⟩
          intro a ha b hb
          have := hholes a ha
          cases good <;> simp at hb
          omega
        · intro a ha b hb
          have h1 := hle a ha
          have h2 := hnew b hb
          omega
      · intro x hx
        rw [hall, List.mem_append] at hx
        change x ≤ q
        rcases hx with hx | hx
        · have := hle x hx
          omega
        · exact (hnew x hx).2
    | false =>
      cases good <;> constructor <;> simp [History.all, History.after]
  | popped v g n =>
    constructor
    · simpa [History.all, History.after] using hlt
    · simpa [History.all, History.after] using hle

theorem run_ascending {m : Nat} {ok : List Event → RxRawBuf → Label → Prop} {b : RxRawBuf}
    {tr : List Event} (hm : 0 < m) (hm' : m < 2 ^ 8) (r : Run (rawBuf m) ok b tr) :
    Ascending (history tr) := by
  apply r.invariant (fun _ tr => Ascending (history tr))
  · intro s _
    constructor <;> simp [history, History.all]
  · intro s tr l t out r ha _ hs
    have hlast := (run_tracked hm hm' r).last
    cases step_call hs with
    | stale => simpa using ha
    | @push q good hq hlt =>
      rw [history_snoc]
      apply after_ascending ha
      change (history tr).last < q
      rwa [hlast]
    | pop =>
      rw [history_snoc]
      exact after_ascending ha trivial

/-- A report lists the lost numbers of the last rounds, in order. -/
theorem report_lists_the_last_rounds {m : Nat} {ok : List Event → RxRawBuf → Label → Prop}
    {b : RxRawBuf} {tr pre post : List Event} {v : List Nat} {g n : Nat} (hm : 0 < m)
    (hm' : m < 2 ^ 8) (r : Run (rawBuf m) ok b tr) (htr : tr = pre ++ .popped v g n :: post) :
    v = lostIn m pre ∧ v.Pairwise (· < ·) ∧ ∀ q ∈ v, q < 2 ^ 32 := by
  obtain ⟨b', min, r', -, -, rfl, -, -⟩ := report_split r htr
  have ht := run_tracked hm hm' r'
  have ha := run_ascending hm hm' r'
  have hv : b'.nack_deq.map (·.seq) = lostIn m pre := by
    rw [ht.deq, map_seq_outstanding, lostIn, Nat.sub_zero]
  have hsub : List.Sublist (lostIn m pre) (History.all (history pre)) := by
    unfold lostIn History.all
    conv_rhs => rw [← List.take_append_drop m (history pre).rounds]
    rw [List.reverse_append, List.flatten_append]
    exact List.sublist_append_right _ _
  rw [hv]
  refine ⟨rfl, ha.lt.sublist hsub, fun q hq => ?_⟩
  have hle := ha.le q (hsub.subset hq)
  have hend := ht.end_lt
  rw [ht.last] at hle
  omega

/-! ## When every run is exact -/

/-- The last packet came as good, since every packet does. -/
theorem end_seq_accepted {m min : Nat} {b : RxRawBuf} {tr : List Event}
    (r : Run (rawBuf m) (clientCalls min) b tr) : 0 < b.pkt_cnt → b.end_seq ∈ accepted tr := by
  apply r.invariant (fun b tr => 0 < b.pkt_cnt → b.end_seq ∈ accepted tr)
  · rintro b rfl h
    cases h
  · intro b tr l t out _ ih hok hs
    cases step_call hs with
    | stale => simpa using ih
    | @push q good hq hlt =>
      have hgood : good = true := hok
      subst hgood
      intro _
      simp [accepted, pushPkts, Nat.not_le.mpr hlt]
    | pop =>
      intro h
      cases h

/-- With one round to report, a report is shorter than what it counts. -/
theorem one_round_is_one_packet {min : Nat} {b : RxRawBuf} {tr pre post : List Event}
    {v : List Nat} {g n : Nat} (hmin : 1 ≤ min) (r : Run (rawBuf 1) (clientCalls min) b tr)
    (htr : tr = pre ++ .popped v g n :: post) : OnePacket (lostIn 1 pre) := by
  obtain ⟨b', n', r', hn', hcnt, -, -, -⟩ := report_split r htr
  have ht := run_tracked (by decide) (by decide) r'
  have hw := ht.cnt_window
  have hce := ht.cnt_end
  have hW : ACK_WINDOW = 500 := rfl
  obtain ⟨older, hrounds, -⟩ := ht.rounds
  have hlost : lostIn 1 pre = fresh b' pre := by simp [lostIn, hrounds]
  have hpos : 0 < b'.pkt_cnt := by
    have hn : n' = min := hn'
    omega
  have hacc := end_seq_accepted r' hpos
  have hmem : ∀ q ∈ fresh b' pre, b'.end_seq - b'.pkt_cnt < q ∧ q < b'.end_seq := by
    intro q hq
    rw [fresh, List.mem_filter, List.mem_range'_1] at hq
    obtain ⟨hq, hnot⟩ := hq
    have hne : q ≠ b'.end_seq := by
      rintro rfl
      simp [hacc] at hnot
    omega
  rw [hlost]
  constructor
  · -- The last packet is one of those that the report counts, and it was not lost.
    have hlt : (fresh b' pre).length <
        (List.range' (b'.end_seq - b'.pkt_cnt + 1) b'.pkt_cnt).length := by
      unfold fresh
      rw [List.length_filter_lt_length_iff_exists]
      refine ⟨b'.end_seq, ?_, by simpa using hacc⟩
      rw [List.mem_range'_1]
      omega
    rw [List.length_range'] at hlt
    omega
  · intro q hq
    have hhead : (fresh b' pre).headD 0 ∈ fresh b' pre := by
      cases hf : fresh b' pre with
      | nil => simp [hf] at hq
      | cons x xs => simp
    have h1 := hmem q hq
    have h2 := hmem _ hhead
    omega

/-- A push of a whole window, right after a report. -/
theorem step_push_window {m : Nat} {b : RxRawBuf} (hcnt : b.pkt_cnt = 0)
    (hq : b.end_seq + ACK_WINDOW < 2 ^ 32) :
    ∃ b', (rawBuf m).step b (.push (b.end_seq + ACK_WINDOW) true hq) =
      some (b', [.pushed (b.end_seq + ACK_WINDOW) true true]) ∧
      b'.end_seq = b.end_seq + ACK_WINDOW ∧ b'.pkt_cnt = ACK_WINDOW := by
  have hlt : b.end_seq < b.end_seq + ACK_WINDOW := Nat.lt_add_of_pos_right (by decide)
  have hfit : fits b (b.end_seq + ACK_WINDOW) = true := by
    rw [fits_iff (by omega) hlt hq]
    omega
  refine ⟨(pushPkts b (b.end_seq + ACK_WINDOW) true).2, ?_, ?_, ?_⟩
  · simp [rawBuf, step, pushPkts, Nat.not_le.mpr hlt, hfit]
  · simp [pushPkts, Nat.not_le.mpr hlt]
  · have hsub : sub32 (b.end_seq + ACK_WINDOW) b.end_seq = ACK_WINDOW := by
      rw [sub32_of_le (by omega) hq]
      omega
    simp only [pushPkts, Nat.not_le.mpr hlt, hfit, if_true, if_false, hcnt, hsub]
    decide

theorem step_pop {m n : Nat} {b : RxRawBuf} (h : n ≤ b.pkt_cnt) :
    ∃ b' v k, (rawBuf m).step b (.pop n) = some (b', [.popped v b.end_seq k]) ∧
      b'.end_seq = b.end_seq ∧ b'.pkt_cnt = 0 := by
  refine ⟨(popPktStatus b).2, b.nack_deq.map (·.seq), b.pkt_cnt % 2 ^ 16, ?_, rfl, rfl⟩
  simp [rawBuf, step, Nat.not_lt.mpr h, popPktStatus]

/-- Two rounds can each lose every packet but the last one. -/
theorem two_full_rounds (m min : Nat) (hmin : min ≤ ACK_WINDOW) :
    ∃ b v k v' k', Run (rawBuf m) (clientCalls min) b
      [.pushed 500 true true, .popped v 500 k, .pushed 1000 true true, .popped v' 1000 k'] := by
  obtain ⟨b1, h1, he1, hc1⟩ := step_push_window (m := m) (b := start m) rfl
    (by decide : 0 + ACK_WINDOW < 2 ^ 32)
  obtain ⟨b2, v, k, h2, he2, hc2⟩ := step_pop (m := m) (b := b1) (n := min) (by omega)
  have hb2 : b2.end_seq = 500 := he2.trans he1
  obtain ⟨b3, h3, he3, hc3⟩ := step_push_window (m := m) (b := b2) hc2 (by rw [hb2]; decide)
  obtain ⟨b4, v', k', h4, he4, hc4⟩ := step_pop (m := m) (b := b3) (n := min) (by omega)
  have hb1 : b1.end_seq = 500 := he1
  have hb3 : b3.end_seq = 1000 := by rw [he3, hb2]; rfl
  have r0 : Run (rawBuf m) (clientCalls min) (start m) [] := .start rfl
  have r4 := (((r0.next (by rfl) h1).next (by rfl) h2).next (by rfl) h3).next (by rfl) h4
  refine ⟨b4, v, k, v', k', ?_⟩
  simpa [hb1, hb2, hb3, start, ACK_WINDOW] using r4

/-- A list of two such rounds does not fit one packet. -/
theorem two_full_rounds_lost {m : Nat} (hm : 2 ≤ m) (v : List Nat) (g k : Nat) :
    (lostIn m [.pushed 500 true true, .popped v g k, .pushed 1000 true true]).length = 998 := by
  obtain ⟨j, rfl⟩ := Nat.exists_eq_add_of_le' hm
  simp [lostIn, history, History.after, History.lost, holes]

/-- A report becomes an exact packet if and only if the numbers that were lost
in the last `m` rounds fit one packet. Every run has only such reports if and
only if one round is reported, or no window is large enough for a report. -/
theorem raw_acks_decode_exactly {m min : Nat} (hm : 1 ≤ m) (hm' : m ≤ 255) (hmin : 1 ≤ min) :
    (∀ b tr, Run (rawBuf m) (clientCalls min) b tr →
      ∀ pre v g n post, tr = pre ++ .popped v g n :: post →
        (RawAckExact v g n ↔ OnePacket (lostIn m pre))) ∧
    ((∀ b tr, Run (rawBuf m) (clientCalls min) b tr →
      ∀ pre v g n post, tr = pre ++ .popped v g n :: post → RawAckExact v g n) ↔
        m = 1 ∨ ACK_WINDOW < min) := by
  have hlt : m < 2 ^ 8 := by omega
  have hiff : ∀ b tr, Run (rawBuf m) (clientCalls min) b tr →
      ∀ pre v g n post, tr = pre ++ .popped v g n :: post →
        (RawAckExact v g n ↔ OnePacket (lostIn m pre)) := by
    intro b tr r pre v g n post htr
    obtain ⟨hv, hasc, hbound⟩ := report_lists_the_last_rounds hm hlt r htr
    rw [rawAckExact_iff hasc hbound, hv]
  refine ⟨hiff, ?_, ?_⟩
  · intro hall
    by_contra hcon
    obtain ⟨hm1, hmin1⟩ := not_or.mp hcon
    obtain ⟨b, v, k, v', k', r⟩ := two_full_rounds m min (Nat.le_of_not_lt hmin1)
    have hex := hall b _ r [.pushed 500 true true, .popped v 500 k, .pushed 1000 true true]
      v' 1000 k' [] rfl
    rw [hiff b _ r [.pushed 500 true true, .popped v 500 k, .pushed 1000 true true]
      v' 1000 k' [] rfl] at hex
    have hlen := hex.1
    rw [two_full_rounds_lost (by omega)] at hlen
    exact absurd hlen (by decide)
  · intro h b tr r pre v g n post htr
    rcases h with rfl | hbig
    · rw [hiff b tr r pre v g n post htr]
      exact one_round_is_one_packet hmin r htr
    · -- No report happens at all: the count stays within the window.
      obtain ⟨b', n', r', hn', hcnt, -, -, -⟩ := report_split r htr
      have hw := (run_tracked hm hlt r').cnt_window
      have hn : n' = min := hn'
      omega

/-- Packets 3, 6 and 8 come, with a report after packet 6 and one after packet 8. -/
theorem the_second_raw_ack_is_exact :
    ∃ b tr, Run (rawBuf 2) (clientCalls 1) b tr ∧
      tr = [.pushed 3 true true, .pushed 6 true true, .popped [1, 2, 4, 5] 6 6,
        .pushed 8 true true, .popped [1, 2, 4, 5, 7] 8 2] ∧ RawAckExact [1, 2, 4, 5, 7] 8 2 := by
  obtain ⟨b, tr, r, hs⟩ := run_of_check (rawBuf 2) (clientCalls 1) tilingRun
    (fun x => decide (x.2 = [.pushed 3 true true, .pushed 6 true true, .popped [1, 2, 4, 5] 6 6,
      .pushed 8 true true, .popped [1, 2, 4, 5, 7] 8 2])) rfl (by decide) (by decide)
  have htr := of_decide_eq_true hs
  obtain ⟨hiff, -⟩ := raw_acks_decode_exactly (by decide : 1 ≤ 2) (by decide)
    (by decide : 1 ≤ 1)
  refine ⟨b, tr, r, htr, (hiff b tr r [.pushed 3 true true, .pushed 6 true true,
    .popped [1, 2, 4, 5] 6 6, .pushed 8 true true] _ 8 2 [] htr).mpr ?_⟩
  decide

/-- With two rounds to report, a report after two full rounds ends the process. -/
theorem two_rounds_fill_the_raw_ack :
    ∃ b pre v n, Run (rawBuf 2) (clientCalls 30) b (pre ++ [.popped v 1000 n]) ∧
      ACK_WINDOW ≤ v.length ∧ ∀ p client_id bs_id,
        rxCreateRawAck p v 1000 n client_id bs_id = .error .rawNackFull := by
  obtain ⟨b, v, k, v', k', r⟩ := two_full_rounds 2 30 (by decide)
  let pre : List Event := [.pushed 500 true true, .popped v 500 k, .pushed 1000 true true]
  refine ⟨b, pre, v', k', r, ?_⟩
  have htr : pre ++ [.popped v' 1000 k'] = pre ++ .popped v' 1000 k' :: [] := rfl
  obtain ⟨hv, -, hbound⟩ := report_lists_the_last_rounds (by decide) (by decide) r htr
  have hlen : v'.length = 998 := by rw [hv, two_full_rounds_lost (by decide)]
  have hfull : ACK_WINDOW ≤ v'.length := by rw [hlen]; decide
  exact ⟨hfull, fun p client_id bs_id => rxCreateRawAck_full hbound hfull⟩

end wspace_client.raw_ack

-- The local variables of `FindNackSeqNum` in every run: the pointers that it
-- read, the loop counters, and the list that it collects. The slots can change
-- at any time; the numbers depend on the pointers and on the batch only.
import WspaceClient.Pointers

namespace wspace_client.threads

open machine batch_info rx_data_buf

/-! ## Who moves the acknowledgement thread -/

theorem signalFill_ack (s : Radio) (pick : Pick) :
    (signalFill s pick).ack = s.ack ∨
      (s.ack = .waitFill false ∧ (signalFill s pick).ack = .waitFill true) := by
  rcases signalFill_cases s pick with he | ⟨ha, he⟩ | ⟨-, he⟩
  · exact .inl (by rw [he])
  · exact .inr ⟨ha, by rw [he]⟩
  · exact .inl (by rw [he])

theorem signalFill_gotPointers (s : Radio) (pick : Pick) (hd tl : Nat) :
    (signalFill { s with ack := .gotPointers hd tl } pick).ack = .gotPointers hd tl :=
  (signalFill_ack _ _).resolve_right fun hw => nomatch hw.1

/-- The other threads only ever wake the acknowledgement thread. -/
theorem Move.ack_eq {cfg : Config} {s t : Radio} {l : Label} {out : List Event}
    (m : Move cfg s l t out) (hl : l ≠ .ack) :
    t.ack = s.ack ∨ (s.ack = .waitFill false ∧ t.ack = .waitFill true) := by
  cases m with
  | full => exact .inl (signalElementAvail_ack _)
  | wrap =>
    simp only [setProd_ack, signalEmpty_ack]
    refine (signalFill_ack _ _).imp (fun he => ?_) fun ⟨ha, he⟩ => ⟨?_, he⟩
    · rw [he, signalElementAvail_ack]
    · rwa [signalElementAvail_ack] at ha
  | store => exact .inl (by rw [enqueueStore_eq, setProd_ack, signalIf_ack])
  | finish => exact signalFill_ack _ _
  | top => exact signalFill_ack _ _
  | getBatchID | ackSleep | pointers | ackWoken | batchFirst | batchRead | batchOld | batchPast
  | batchDone | ackBatchID | assertHolds | assertFails | scanDrop | scanList | scanSkip | scanEnd
  | extra | tooMany | extraEnd | overflowEnd | overflowDrop => exact absurd rfl hl
  | _ => exact .inl rfl

/-- They do not report on it either. -/
theorem Move.not_acked {cfg : Config} {s t : Radio} {l : Label} {out : List Event}
    (m : Move cfg s l t out) (hl : l ≠ .ack) {e : Nat} {ns : List Nat} : .acked e ns ∉ out := by
  cases m with
  | full => split <;> simp
  | getBatchID | ackSleep | pointers | ackWoken | batchFirst | batchRead | batchOld | batchPast
  | batchDone | ackBatchID | assertHolds | assertFails | scanDrop | scanList | scanSkip | scanEnd
  | extra | tooMany | extraEnd | overflowEnd | overflowDrop => exact absurd rfl hl
  | _ => simp

/-! ## The batch information -/

@[simp] theorem signalFill_batch_info (s : Radio) (pick : Pick) :
    (signalFill s pick).batch_info = s.batch_info := by
  rcases signalFill_cases s pick with he | ⟨-, he⟩ | ⟨-, he⟩ <;> rw [he]

@[simp] theorem signalElementAvail_batch_info (s : Radio) :
    (signalElementAvail s).batch_info = s.batch_info := by
  unfold signalElementAvail
  split <;> rfl

@[simp] theorem signalIf_batch_info (P : Prop) [Decidable P] (s : Radio) :
    (signalIf P s).batch_info = s.batch_info := by
  unfold signalIf
  split <;> simp

@[simp] theorem signalEmpty_batch_info (s : Radio) (pick : Pick) :
    (signalEmpty s pick).batch_info = s.batch_info := rfl

/-- The batch information after a step. -/
def batchAfter (s : Radio) : Label → BatchInfo
  | .setBatchInfo batch_id seq done ind n us =>
    setBatchInfo s.batch_info s.now batch_id seq done ind n us
  | .updateTimeLeft ind n us => updateTimeLeft s.batch_info s.now ind n us
  | .setDecodingDone done => setDecodingDone s.batch_info done
  | .ack =>
    match s.ack with
    | .gotPointers _ _ => decodingDone s.batch_info s.now
    | _ => s.batch_info
  | _ => s.batch_info

theorem Move.batch_info_eq {cfg : Config} {s t : Radio} {l : Label} {out : List Event}
    (m : Move cfg s l t out) : t.batch_info = batchAfter s l := by
  unfold batchAfter
  cases m with
  | store => rw [enqueueStore_eq, setProd_batch_info, signalIf_batch_info]
  | getBatchID h | ackSleep h | pointers h | ackWoken h | batchFirst h | batchRead h | batchOld h
  | batchPast h | batchDone h | ackBatchID h | assertHolds h | assertFails h | scanDrop h
  | scanList h | scanSkip h | scanEnd h | extra h | tooMany h | extraEnd h | overflowEnd h
  | overflowDrop h => simp [h]
  | _ => simp

@[simp] theorem signalFill_batch_id_prev (s : Radio) (pick : Pick) :
    (signalFill s pick).batch_id_prev = s.batch_id_prev := by
  rcases signalFill_cases s pick with he | ⟨-, he⟩ | ⟨-, he⟩ <;> rw [he]

@[simp] theorem signalElementAvail_batch_id_prev (s : Radio) :
    (signalElementAvail s).batch_id_prev = s.batch_id_prev := by
  unfold signalElementAvail
  split <;> rfl

@[simp] theorem signalIf_batch_id_prev (P : Prop) [Decidable P] (s : Radio) :
    (signalIf P s).batch_id_prev = s.batch_id_prev := by
  unfold signalIf
  split <;> simp

@[simp] theorem signalEmpty_batch_id_prev (s : Radio) (pick : Pick) :
    (signalEmpty s pick).batch_id_prev = s.batch_id_prev := rfl

@[simp] theorem setProd_batch_id_prev (s : Radio) (p : Producer) (pc : ProducerPc) :
    (setProd s p pc).batch_id_prev = s.batch_id_prev := rfl

/-- `batch_id_prev` after a step. -/
def prevAfter (s : Radio) : Label → Nat
  | .ack =>
    match s.ack with
    | .gotBatchInfo _ _ _ => max s.batch_id_prev s.batch_info.batch_id
    | _ => s.batch_id_prev
  | _ => s.batch_id_prev

theorem Move.batch_id_prev_eq {cfg : Config} {s t : Radio} {l : Label} {out : List Event}
    (m : Move cfg s l t out) : t.batch_id_prev = prevAfter s l := by
  unfold prevAfter
  cases m with
  | store => rw [enqueueStore_eq, setProd_batch_id_prev, signalIf_batch_id_prev]
  | getBatchID h | ackSleep h | pointers h | ackWoken h | batchFirst h | batchRead h | batchOld h
  | batchPast h | batchDone h | ackBatchID h | assertHolds h | assertFails h | scanDrop h
  | scanList h | scanSkip h | scanEnd h | extra h | tooMany h | extraEnd h | overflowEnd h
  | overflowDrop h => simp [h]
  | _ => simp

/-- The number that `SetBatchInfo` gets is a `uint32`. -/
def SeqFits (_ : List Event) (_ : Radio) : Label → Prop
  | .setBatchInfo _ seq _ _ _ _ => seq < 2 ^ 32
  | _ => True

instance (tr : List Event) (s : Radio) : (l : Label) → Decidable (SeqFits tr s l)
  | .setBatchInfo _ seq _ _ _ _ => inferInstanceAs (Decidable (seq < 2 ^ 32))
  | .call .. | .prod .. | .cons .. | .ack | .updateTimeLeft .. | .setDecodingDone .. | .tick .. =>
    isTrue trivial

/-- Only `SetBatchInfo` starts a batch. -/
theorem batchAfter_keeps {s : Radio} {l : Label} (hl : ∀ b q d i n us,
    l ≠ .setBatchInfo b q d i n us) :
    (batchAfter s l).highest_decoded_seq = s.batch_info.highest_decoded_seq ∧
      (batchAfter s l).batch_id = s.batch_info.batch_id := by
  unfold batchAfter
  cases l with
  | setBatchInfo b q d i n us => exact absurd rfl (hl b q d i n us)
  | ack =>
    dsimp only
    split
    · exact ⟨decodingDone_highest _ _, decodingDone_batch_id _ _⟩
    · exact ⟨rfl, rfl⟩
  | _ => exact ⟨rfl, rfl⟩

/-! ## The snapshot of the pointers -/

/-- The pointers that `FindNackSeqNum` read. -/
structure Snapshot where
  head_pt : Nat
  tail_pt : Nat

def Snapshot.after (p : Snapshot) : Event → Snapshot
  | .pointers head_pt tail_pt => ⟨head_pt, tail_pt⟩
  | _ => p

/-- The last snapshot of a trace. -/
def snapshot (tr : List Event) : Snapshot := tr.foldl Snapshot.after ⟨0, 0⟩

theorem snapshot_append (tr out : List Event) :
    snapshot (tr ++ out) = out.foldl Snapshot.after (snapshot tr) := List.foldl_append

/-- The tail is in the window past the head. -/
structure Snapshot.InWindow (p : Snapshot) : Prop where
  order : p.head_pt ≤ p.tail_pt
  window : p.tail_pt ≤ p.head_pt + BUF_SIZE
  tail_lt : p.tail_pt < 2 ^ 32

/-- A list of numbers past the head in their order, none of them past `top`. -/
structure Listed (head_pt top : Nat) (nacks : List Nat) : Prop where
  sorted : nacks.Pairwise (· < ·)
  range : ∀ q ∈ nacks, head_pt < q ∧ q ≤ top

theorem Listed.nil (head_pt top : Nat) : Listed head_pt top [] := ⟨.nil, nofun⟩

theorem Listed.mono {hd top top' : Nat} {ns : List Nat} (h : Listed hd top ns)
    (hle : top ≤ top') : Listed hd top' ns :=
  ⟨h.sorted, fun q hq => ⟨(h.range q hq).1, Nat.le_trans (h.range q hq).2 hle⟩⟩

theorem Listed.snoc {hd top q : Nat} {ns : List Nat} (h : Listed hd top ns) (hq : top < q)
    (hhd : hd < q) : Listed hd q (ns ++ [q]) := by
  refine ⟨?_, fun x hx => ?_⟩
  · rw [List.pairwise_append]
    refine ⟨h.sorted, List.pairwise_singleton _ _, fun x hx y hy => ?_⟩
    rw [List.mem_singleton.mp hy]
    exact Nat.lt_of_le_of_lt (h.range x hx).2 hq
  · rcases List.mem_append.mp hx with hx | hx
    · exact (h.mono (Nat.le_of_lt hq)).range x hx
    · rw [List.mem_singleton.mp hx]
      exact ⟨hhd, Nat.le_refl q⟩

/-- The loop over the numbers past the tail, at `i`. It never ends when the end
is the last `uint32`, and past the last `uint32` it starts at 0. -/
def PastTail (p : Snapshot) (i end_seq : Nat) (nacks : List Nat) : Prop :=
  (p.tail_pt + 1 < 2 ^ 32 ∧ end_seq + 1 < 2 ^ 32 ∧ p.tail_pt < i ∧
    i ≤ p.tail_pt + 1 + nacks.length ∧ i ≤ max p.tail_pt end_seq + 1 ∧
    Listed p.head_pt (i - 1) nacks) ∨
  end_seq + 1 = 2 ^ 32 ∨
  (p.tail_pt + 1 = 2 ^ 32 ∧ p.head_pt ≤ end_seq ∧ i ≤ nacks.length)

/-- The local variables of the thread after it read the snapshot `p`. -/
def AckLocal (p : Snapshot) : AckPc → Prop
  | .idle | .gotBatchID _ | .waitFill _ | .aborted => True
  | .gotPointers head_pt tail_pt => p.InWindow ∧ p = ⟨head_pt, tail_pt⟩
  | .gotBatchInfo head_pt tail_pt end_seq =>
    p.InWindow ∧ p = ⟨head_pt, tail_pt⟩ ∧ tail_pt ≤ end_seq ∧ end_seq < 2 ^ 32
  | .atAssert head_pt tail_pt end_pt end_seq =>
    p.InWindow ∧ p = ⟨head_pt, tail_pt⟩ ∧ end_seq < 2 ^ 32 ∧
      (end_pt = sub32 tail_pt 1 ∧ tail_pt ≤ end_seq ∨
        end_pt + 1 = end_seq ∧ end_seq < tail_pt ∧ head_pt ≤ end_pt)
  | .scan index end_pt tail_pt end_seq _ nacks =>
    p.InWindow ∧ p.tail_pt = tail_pt ∧ end_seq < 2 ^ 32 ∧ end_pt + 1 = min tail_pt end_seq ∧
      p.head_pt ≤ index ∧ index ≤ end_pt + 1 ∧ Listed p.head_pt index nacks
  | .extra i end_seq nacks =>
    p.InWindow ∧ end_seq < 2 ^ 32 ∧ i < 2 ^ 32 ∧ PastTail p i end_seq nacks
  | .overflow rest end_seq => p.InWindow ∧ end_seq < 2 ^ 32 ∧
      (p.tail_pt + 1 < 2 ^ 32 → Listed p.head_pt (max p.tail_pt end_seq) rest)

/-- The other threads read no pointers for the acknowledgement. -/
theorem Move.snapshot_eq {cfg : Config} {s t : Radio} {l : Label} {out : List Event}
    (m : Move cfg s l t out) (hl : l ≠ .ack) (p : Snapshot) : out.foldl Snapshot.after p = p := by
  cases m with
  | full => split <;> rfl
  | getBatchID | ackSleep | pointers | ackWoken | batchFirst | batchRead | batchOld | batchPast
  | batchDone | ackBatchID | assertHolds | assertFails | scanDrop | scanList | scanSkip | scanEnd
  | extra | tooMany | extraEnd | overflowEnd | overflowDrop => exact absurd rfl hl
  | _ => rfl

theorem ackLocal_move {cfg : Config} {s t : Radio} {out : List Event} {p : Snapshot}
    (hcore : Core s) (hhigh : s.batch_info.highest_decoded_seq < 2 ^ 32)
    (h : AckLocal p s.ack) (m : Move cfg s .ack t out) :
    AckLocal (out.foldl Snapshot.after p) t.ack := by
  have hnow : Snapshot.InWindow ⟨s.buf.head_pt, s.buf.tail_pt⟩ :=
    ⟨hcore.order, hcore.window, hcore.tail_lt⟩
  cases m with
  | getBatchID | ackSleep | assertFails | batchFirst | batchRead | extraEnd | overflowEnd =>
    trivial
  | pointers => exact ⟨hnow, rfl⟩
  | ackWoken ha hq =>
    rw [signalFill_gotPointers]
    exact ⟨hnow, rfl⟩
  | batchOld ha hd' hz ht hh =>
    rw [ha] at h
    obtain ⟨hw, rfl⟩ := h
    have hsub := sub32_of_le (a := s.batch_info.highest_decoded_seq) (b := 1) (by omega) hhigh
    exact ⟨hw, rfl, hhigh, .inr ⟨by omega, ht, hh⟩⟩
  | batchPast ha hd' hz ht =>
    rw [ha] at h
    obtain ⟨hw, rfl⟩ := h
    exact ⟨hw, rfl, hhigh, .inl ⟨rfl, ht⟩⟩
  | batchDone ha hd' =>
    rw [ha] at h
    obtain ⟨hw, rfl⟩ := h
    have hlt := hw.tail_lt
    exact ⟨hw, rfl, Nat.le_max_right _ _, Nat.max_lt.mpr ⟨hhigh, hlt⟩⟩
  | ackBatchID ha =>
    rw [ha] at h
    obtain ⟨hw, rfl, hle, hlt⟩ := h
    exact ⟨hw, rfl, hlt, .inl ⟨rfl, hle⟩⟩
  | assertHolds ha hep =>
    rw [ha] at h
    obtain ⟨hw, rfl, hlt, hcase⟩ := h
    have hord := hw.order
    have htl := hw.tail_lt
    dsimp only at hord htl
    rcases hcase with ⟨rfl, hle⟩ | ⟨he, hle, hhd⟩
    · have hsub := sub32_of_le (b := 1) (Nat.zero_lt_of_lt hep) htl
      exact ⟨hw, rfl, hlt, by omega, Nat.le_refl _, by omega, .nil _ _⟩
    · exact ⟨hw, rfl, hlt, by omega, Nat.le_refl _, Nat.le_succ_of_le hhd, .nil _ _⟩
  | scanDrop ha hi he hh ho =>
    change AckLocal p _
    rw [ha] at h
    obtain ⟨hw, rfl, hlt, hep, hhd, hle, hns⟩ := h
    have htl := hw.tail_lt
    rw [signalElementAvail_ack]
    refine ⟨hw, rfl, hlt, hep, ?_, ?_, hns.mono ?_⟩ <;> rw [add32_of_lt (by omega)] <;> omega
  | scanList ha hi he hh ho =>
    change AckLocal p _
    rw [ha] at h
    obtain ⟨hw, rfl, hlt, hep, hhd, hle, hns⟩ := h
    have htl := hw.tail_lt
    refine ⟨hw, rfl, hlt, hep, ?_, ?_, hns.snoc ?_ ?_⟩ <;> rw [add32_of_lt (by omega)] <;> omega
  | scanSkip ha hi he hh =>
    change AckLocal p _
    rw [ha] at h
    obtain ⟨hw, rfl, hlt, hep, hhd, hle, hns⟩ := h
    have htl := hw.tail_lt
    refine ⟨hw, rfl, hlt, hep, ?_, ?_, hns.mono ?_⟩ <;> rw [add32_of_lt (by omega)] <;> omega
  | @scanEnd _ _ _ e _ _ ha hi =>
    change AckLocal p _
    rw [ha] at h
    obtain ⟨hw, rfl, hlt, hep, hhd, hle, hns⟩ := h
    have htl := hw.tail_lt
    refine ⟨hw, hlt, add32_lt _ _, ?_⟩
    by_cases hwrap : p.tail_pt + 1 < 2 ^ 32
    · rw [add32_of_lt hwrap]
      by_cases hend : e + 1 < 2 ^ 32
      · refine .inl ⟨hwrap, hend, Nat.lt_succ_self _, Nat.le_add_right _ _, ?_, hns.mono ?_⟩
        · omega
        · omega
      · exact .inr (.inl (by omega))
    · refine .inr (.inr ⟨by omega, by omega, ?_⟩)
      rw [add32_of_ge (by omega) htl (by decide)]
      omega
  | extra ha hi =>
    change AckLocal p _
    rw [ha] at h
    obtain ⟨hw, hlt, hi32, hcase⟩ := h
    refine ⟨hw, hlt, add32_lt _ _, ?_⟩
    rcases hcase with ⟨hwrap, hend, htl, hcnt, hmax, hns⟩ | hend | ⟨hwrap, hhd, hcnt⟩
    · have hord := hw.order
      refine .inl ⟨hwrap, hend, ?_, ?_, ?_, ?_⟩ <;> rw [add32_of_lt (by omega)]
      · omega
      · rw [List.length_append, List.length_singleton]
        omega
      · omega
      · rw [Nat.add_sub_cancel]
        exact hns.snoc (by omega) (by omega)
    · exact .inr (.inl hend)
    · refine .inr (.inr ⟨hwrap, hhd, ?_⟩)
      rw [List.length_append, List.length_singleton]
      refine Nat.le_trans (Nat.mod_le _ _) ?_
      omega
  | tooMany ha hi hn =>
    change AckLocal p _
    rw [ha] at h
    obtain ⟨hw, hlt, hi32, hcase⟩ := h
    refine ⟨hw, hlt, fun hwrap => ?_⟩
    rcases hcase with ⟨-, hend, htl, hcnt, hmax, hns⟩ | hend | ⟨hwrap', -, -⟩
    · exact hns.mono (by omega)
    · omega
    · omega
  | overflowDrop ha he =>
    change AckLocal p _
    rw [ha] at h
    obtain ⟨hw, hlt, hns⟩ := h
    rw [signalElementAvail_ack]
    refine ⟨hw, hlt, fun hwrap => ?_⟩
    obtain ⟨hsort, hrange⟩ := hns hwrap
    exact ⟨(List.pairwise_cons.mp hsort).2, fun x hx => hrange x (List.mem_cons_of_mem _ hx)⟩

/-- The batch before the current one ends at a `uint32`. -/
theorem highest_lt {cfg : Config} {s t : Radio} {l : Label} {tr out : List Event}
    (hhigh : s.batch_info.highest_decoded_seq < 2 ^ 32) (hok : SeqFits tr s l)
    (m : Move cfg s l t out) : t.batch_info.highest_decoded_seq < 2 ^ 32 := by
  rw [m.batch_info_eq]
  cases l with
  | setBatchInfo b q d i n us => exact hok
  | _ =>
    refine lt_of_eq_of_lt (batchAfter_keeps ?_).1 hhigh
    intros
    nofun

/-- Every step keeps the local variables in their ranges. -/
theorem ackLocal_step {cfg : Config} {s t : Radio} {l : Label} {out : List Event} {p : Snapshot}
    (hcore : Core s) (hhigh : s.batch_info.highest_decoded_seq < 2 ^ 32)
    (h : AckLocal p s.ack) (m : Move cfg s l t out) :
    AckLocal (out.foldl Snapshot.after p) t.ack := by
  by_cases hl : l = .ack
  · subst hl
    exact ackLocal_move hcore hhigh h m
  · rw [m.snapshot_eq hl]
    rcases m.ack_eq hl with he | ⟨-, he⟩
    · rw [he]
      exact h
    · rw [he]
      trivial

/-- The local variables in every run. -/
theorem run_ackLocal {cfg : Config} {s : Radio} {tr : List Event}
    (r : Run (radio cfg) SeqFits s tr) :
    s.batch_info.highest_decoded_seq < 2 ^ 32 ∧ AckLocal (snapshot tr) s.ack := by
  apply r.invariant (fun s tr => s.batch_info.highest_decoded_seq < 2 ^ 32 ∧
    AckLocal (snapshot tr) s.ack)
  · intro s h0
    obtain ⟨-, ⟨-, hhigh, -⟩, -, -, -, hack⟩ := h0
    rw [hhigh, hack]
    exact ⟨by decide, trivial⟩
  · intro s tr l t out r ih hok hs
    obtain ⟨hhigh, hloc⟩ := ih
    have m := step_move hs
    rw [snapshot_append]
    exact ⟨highest_lt hhigh hok m, ackLocal_step (the_tail_stays_in_the_window r) hhigh hloc m⟩

/-- A call returns no list, or the one that it collected. -/
theorem acked_list {cfg : Config} {s t : Radio} {l : Label} {out : List Event} {p : Snapshot}
    {e : Nat} {ns : List Nat} (hhigh : s.batch_info.highest_decoded_seq < 2 ^ 32)
    (h : AckLocal p s.ack) (m : Move cfg s l t out) (he : .acked e ns ∈ out) :
    e < 2 ^ 32 ∧ (ns = [] ∨ ∃ i, s.ack = .extra i e ns ∧ e < i ∧
      ns.length < cfg.max_num_nacks) := by
  by_cases hl : l = .ack
  · subst hl
    cases m with
    | batchFirst =>
      obtain ⟨rfl, rfl⟩ := Event.acked.inj (List.mem_singleton.mp he)
      exact ⟨by decide, .inl rfl⟩
    | batchRead =>
      obtain ⟨rfl, rfl⟩ := Event.acked.inj (List.mem_singleton.mp he)
      exact ⟨hhigh, .inl rfl⟩
    | extraEnd ha hi hn =>
      obtain ⟨rfl, rfl⟩ := Event.acked.inj (List.mem_singleton.mp he)
      rw [ha] at h
      exact ⟨h.2.1, .inr ⟨_, ha, hi, hn⟩⟩
    | overflowEnd ha =>
      obtain ⟨rfl, rfl⟩ := Event.acked.inj (List.mem_singleton.mp he)
      rw [ha] at h
      exact ⟨h.2.1, .inl rfl⟩
    | pointers | ackWoken | scanDrop | overflowDrop => simp at he
    | _ => cases he
  · exact absurd he (m.not_acked hl)

end wspace_client.threads

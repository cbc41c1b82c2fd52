-- What the packets of a radio have in common from `EnqueuePkt` to `DequeuePkt`:
-- a property of every call is one of every packet that is delivered, in whatever
-- order the threads run.
import WspaceClient.Isolation

namespace wspace_client.threads

open machine batch_info rx_data_buf

/-! ## The calls in progress -/

/-- A place of a producer where the call `c` is still to take `qlock_`. -/
def ProducerPc.enters (pc : ProducerPc) (c : EnqueueArgs) : Prop :=
  pc = .start c ∨ ∃ b, pc = .waitEmpty c b

theorem entering_setProd {s : Radio} {p p' : Producer} {pc : ProducerPc} {c : EnqueueArgs} :
    Entering (setProd s p pc) p' c ↔
      (p' = p ∧ pc.enters c) ∨ (p' ≠ p ∧ Entering s p' c) := by
  unfold Entering ProducerPc.enters setProd
  by_cases hp : p' = p
  · subst hp
    simp
  · simp [hp]

/-- A producer that left a call is in none. -/
theorem entering_of_left {s : Radio} {p p' : Producer} {pc : ProducerPc} {c : EnqueueArgs}
    (hpc : ∀ c, ¬pc.enters c) (h : Entering (setProd s p pc) p' c) : Entering s p' c := by
  rcases entering_setProd.mp h with ⟨-, h⟩ | ⟨-, h⟩
  · exact absurd h (hpc c)
  · exact h

theorem entering_of_prod {s t : Radio} {p : Producer} {c : EnqueueArgs} (hp : t.prod = s.prod)
    (h : Entering t p c) : Entering s p c := by
  unfold Entering at h ⊢
  rwa [hp] at h

/-- A signal starts no call. -/
theorem entering_of_signalEmpty {s : Radio} {pick : Pick} {p : Producer} {c : EnqueueArgs}
    (h : Entering (signalEmpty s pick) p c) : Entering s p c := by
  rcases entering_setProd.mp h with ⟨hp, hsig⟩ | ⟨-, hold⟩
  · rw [← hp] at hsig
    unfold ProducerPc.signal at hsig
    split at hsig
    · rename_i c' b hpc
      rcases hsig with hsig | ⟨b', hsig⟩ <;> cases hsig
      exact .inr ⟨b, hpc⟩
    · exact hsig
  · exact hold

theorem idle_enters (c : EnqueueArgs) : ¬ProducerPc.idle.enters c := by
  rintro (h | ⟨b, h⟩) <;> cases h

theorem clearing_enters (q i : Nat) (c : EnqueueArgs) : ¬(ProducerPc.clearing q i).enters c := by
  rintro (h | ⟨b, h⟩) <;> cases h

theorem waitEmpty_enters {c c' : EnqueueArgs} {b : Bool}
    (h : (ProducerPc.waitEmpty c b).enters c') : c' = c := by
  rcases h with h | ⟨b', h⟩ <;> cases h
  rfl

/-- A step starts no call but the one that it is. -/
theorem Move.entering {cfg : Config} {s t : Radio} {l : Label} {out : List Event}
    (m : Move cfg s l t out) {p : Producer} {c : EnqueueArgs} (h : Entering t p c) :
    Entering s p c ∨ l = .call p c := by
  cases m with
  | @call p' c' hp =>
    rcases entering_setProd.mp h with ⟨rfl, hstart⟩ | ⟨-, hold⟩
    · rcases hstart with hstart | ⟨b, hstart⟩ <;> cases hstart
      exact .inr rfl
    · exact .inl hold
  | @full p' c' _ hent hq hf he =>
    rcases entering_setProd.mp h with ⟨rfl, hwait⟩ | ⟨-, hold⟩
    · cases waitEmpty_enters hwait
      exact .inl hent
    · exact .inl (entering_of_prod (by simp) hold)
  | wrap hent hq hf hs he hw =>
    have h := entering_of_signalEmpty (entering_of_left idle_enters h)
    exact .inl (entering_of_prod (by simp) h)
  | @store p' c' _ hent hq hf hs he hw =>
    rw [enqueueStore_eq] at h
    refine .inl (entering_of_prod (by simp) (entering_of_left ?_ h))
    split
    · exact clearing_enters _ _
    · exact idle_enters
  | stale => exact .inl (entering_of_left idle_enters h)
  | staleTail => exact .inl (entering_of_left (clearing_enters _ _) h)
  | clear => exact .inl (entering_of_prod rfl (entering_of_left (clearing_enters _ _) h))
  | finish =>
    have h := entering_of_left idle_enters h
    exact .inl (entering_of_prod (by simp) h)
  | top => exact .inl (entering_of_prod (by simp) h)
  | deliver => exact .inl (entering_of_prod rfl (entering_of_signalEmpty h))
  | giveUp => exact .inl (entering_of_prod rfl (entering_of_signalEmpty h))
  | ackWoken => exact .inl (entering_of_prod (by simp) h)
  | scanDrop => exact .inl (entering_of_prod (by simp) h)
  | overflowDrop => exact .inl (entering_of_prod (by simp) h)
  | _ => exact .inl h

/-! ## The packets in the slots -/

section carries

variable {P : EnqueueArgs → Prop}

/-- A packet that came with a call of the property. -/
def Came (P : EnqueueArgs → Prop) (x : Nat × List Byte) : Prop :=
  ∃ c, P c ∧ x = (c.seq_num, c.bytes)

/-- Every call in progress has the property, and so has every packet in a slot. -/
structure Carries (P : EnqueueArgs → Prop) (s : Radio) : Prop where
  core : Core s
  fits : Fits s.buf
  calls : ∀ p c, Entering s p c → P c
  cells : ∀ i x, cellOf s.buf i = some x → Came P x

theorem fresh_carries {s : Radio} (h : s.Fresh) : Carries P s := by
  refine ⟨fresh_core h, fun i hi => absurd hi (fresh_no_packet h i), fun p c hc => ?_,
    fun i x hx => ?_⟩
  · rcases hc with hc | ⟨b, hc⟩ <;> rw [h.2.2.2.1 p] at hc <;> cases hc
  · rw [cellOf_none (fresh_no_packet h i)] at hx
    cases hx

/-- A call that passes the full check is one in progress. -/
theorem Carries.admitted {s : Radio} (h : Carries P s) {l : Label} {c : EnqueueArgs}
    (hc : c ∈ admitted s l) : P c := by
  cases l with
  | prod p pick => exact h.calls p c (admitted_iff.mp hc).1
  | _ => cases hc

/-- The packet of a call that passed the full check with a number past the head. A
slot that holds a packet keeps its own. -/
def admits : Event → List (Nat × List Byte)
  | .enqueued q bs | .wrapped q bs => [(q, bs)]
  | _ => []

/-- A packet in a cell was there before, or came with the event. -/
theorem cellsAfter_came {cs : Slot → Cell} (hcs : ∀ i x, cs i = some x → Came P x) {e : Event}
    (he : ∀ x ∈ admits e, Came P x) : ∀ i x, cellsAfter cs e i = some x → Came P x := by
  have hfill : ∀ q bs, Came P (q, bs) → ∀ i x, some ((cs i).getD (q, bs)) = some x → Came P x := by
    intro q bs hnew i x hx
    cases hi : cs i with
    | none =>
      rw [hi] at hx
      cases hx
      exact hnew
    | some y =>
      rw [hi] at hx
      exact hcs i x (hi.trans hx)
  intro i x hx
  cases e with
  | enqueued q bs =>
    change Function.update cs (seq2Ind q) _ i = _ at hx
    by_cases hi : i = seq2Ind q
    · subst hi
      rw [Function.update_self] at hx
      exact hfill q bs (he _ (List.mem_singleton_self _)) _ x hx
    · rw [Function.update_of_ne hi] at hx
      exact hcs i x hx
  | wrapped q bs =>
    change (if i = seq2Ind q then _ else _) = _ at hx
    split at hx
    · exact hfill q bs (he _ (List.mem_singleton_self _)) _ x hx
    · cases hx
  | delivered => exact hcs i x (update_none hx)
  | gaveUp => exact hcs i x (update_none hx)
  | nackDropped => exact hcs i x (update_none hx)
  | fullDropped | pointers | acked => exact hcs i x hx

theorem foldl_came {out : List Event} {cs : Slot → Cell} (hcs : ∀ i x, cs i = some x → Came P x)
    (hout : ∀ e ∈ out, ∀ x ∈ admits e, Came P x) :
    ∀ i x, out.foldl cellsAfter cs i = some x → Came P x := by
  induction out generalizing cs with
  | nil => exact hcs
  | cons e out ih =>
    exact ih (cellsAfter_came hcs (hout e List.mem_cons_self)) fun e' he' =>
      hout e' (List.mem_cons_of_mem _ he')

/-- What an event shows came with the call that the step admits. -/
theorem Move.admits_admitted {cfg : Config} {s t : Radio} {l : Label} {out : List Event}
    (m : Move cfg s l t out) {e : Event} (he : e ∈ out) {x : Nat × List Byte} (hx : x ∈ admits e) :
    ∃ c ∈ admitted s l, x = (c.seq_num, c.bytes) := by
  cases m with
  | wrap hent hq hf hs hfree hw =>
    rw [List.mem_singleton.mp he] at hx
    exact ⟨_, admitted_iff.mpr ⟨hent, hq, hf⟩, List.mem_singleton.mp hx⟩
  | store hent hq hf hs hfree hw =>
    rw [List.mem_singleton.mp he] at hx
    exact ⟨_, admitted_iff.mpr ⟨hent, hq, hf⟩, List.mem_singleton.mp hx⟩
  | full =>
    split at he
    · rw [List.mem_singleton.mp he] at hx
      cases hx
    · cases he
  | deliver | giveUp | pointers | ackWoken | batchFirst | batchRead | scanDrop | extraEnd
  | overflowEnd | overflowDrop =>
    rw [List.mem_singleton.mp he] at hx
    cases hx
  | _ => cases he

/-- A step keeps the property, and what it delivers has it. -/
theorem Carries.step {cfg : Config} {s t : Radio} {l : Label} {out : List Event}
    (hP : ∀ c, P c → c.pkt_len ≤ PKT_SIZE) (h : Carries P s) (hl : ∀ p c, l = .call p c → P c)
    (hs : step cfg s l = some (t, out)) :
    Carries P t ∧ ∀ hd q bs, .delivered hd q bs ∈ out → Came P (q, bs) := by
  have m := step_move hs
  have hfit : StoreFits [] s l := fun c hc _ _ => hP c (h.admitted hc)
  have hcell := move_cells hfit h.core h.fits m
  have hadmits : ∀ e ∈ out, ∀ x ∈ admits e, Came P x := by
    intro e he x hx
    obtain ⟨c, hc, rfl⟩ := m.admits_admitted he hx
    exact ⟨c, h.admitted hc, rfl⟩
  refine ⟨⟨move_core h.core m, hcell.fits, fun p c hc => ?_, ?_⟩, fun hd q bs hdel => ?_⟩
  · rcases m.entering hc with hc | rfl
    · exact h.calls p c hc
    · exact hl p c rfl
  · rw [hcell.cells]
    exact foldl_came h.cells hadmits
  · obtain ⟨xs, ys, rfl⟩ := List.append_of_mem hdel
    exact h.cells _ _ (delivered_cell h.core m).2

end carries

end wspace_client.threads

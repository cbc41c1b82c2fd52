-- The pointers of the buffer in every run of the radio: the tail stays
-- inside the window past the head, one thread at a time owns `qlock_`, and
-- the consumer only ever looks at the slot of the head.
import WspaceClient.Moves

namespace wspace_client.threads

open machine batch_info rx_data_buf

/-! ## What the signals leave alone -/

section signals

variable (s : Radio) (p : Producer) (pc : ProducerPc) (pick : Pick)

@[simp] theorem setProd_buf : (setProd s p pc).buf = s.buf := rfl

@[simp] theorem setProd_cons : (setProd s p pc).cons = s.cons := rfl

@[simp] theorem setProd_ack : (setProd s p pc).ack = s.ack := rfl

@[simp] theorem setProd_batch_info : (setProd s p pc).batch_info = s.batch_info := rfl

@[simp] theorem setProd_self : (setProd s p pc).prod p = pc := by simp [setProd]

theorem setProd_ne {r : Producer} (h : r ≠ p) : (setProd s p pc).prod r = s.prod r := by
  simp [setProd, h]

@[simp] theorem signalEmpty_buf : (signalEmpty s pick).buf = s.buf := rfl

@[simp] theorem signalEmpty_cons : (signalEmpty s pick).cons = s.cons := rfl

@[simp] theorem signalEmpty_ack : (signalEmpty s pick).ack = s.ack := rfl

@[simp] theorem signalFill_buf : (signalFill s pick).buf = s.buf := by
  unfold signalFill
  split
  · rfl
  · split <;> rfl

@[simp] theorem signalFill_prod : (signalFill s pick).prod = s.prod := by
  unfold signalFill
  split
  · rfl
  · split <;> rfl

@[simp] theorem signalElementAvail_buf : (signalElementAvail s).buf = s.buf := by
  unfold signalElementAvail
  split <;> rfl

@[simp] theorem signalElementAvail_prod : (signalElementAvail s).prod = s.prod := by
  unfold signalElementAvail
  split <;> rfl

@[simp] theorem signalElementAvail_ack : (signalElementAvail s).ack = s.ack := by
  unfold signalElementAvail
  split <;> rfl

/-- A fill signal wakes at most one sleeper. -/
theorem signalFill_cases :
    signalFill s pick = s ∨
      (s.ack = .waitFill false ∧ signalFill s pick = { s with ack := .waitFill true }) ∨
      (s.cons = .waitFill false ∧ signalFill s pick = { s with cons := .waitFill true }) := by
  unfold signalFill
  split
  · rename_i h
    exact .inr (.inl ⟨h.1, rfl⟩)
  · split
    · rename_i h
      exact .inr (.inr ⟨h, rfl⟩)
    · exact .inl rfl

theorem signalFill_cons_of_ne (h : s.cons ≠ .waitFill false) :
    (signalFill s pick).cons = s.cons := by
  rcases signalFill_cases s pick with he | ⟨-, he⟩ | ⟨hc, -⟩
  · rw [he]
  · rw [he]
  · exact absurd hc h

theorem signalFill_alive (h : s.ack ≠ .aborted) : (signalFill s pick).ack ≠ .aborted := by
  rcases signalFill_cases s pick with he | ⟨-, he⟩ | ⟨-, he⟩
  · rwa [he]
  · rw [he]
    nofun
  · rw [he]
    exact h

/-- What an element signal does to the consumer. -/
def ConsumerPc.signal : ConsumerPc → ConsumerPc
  | .waitElement i _ => .waitElement i true
  | pc => pc

@[simp] theorem signalElementAvail_cons : (signalElementAvail s).cons = s.cons.signal := by
  unfold signalElementAvail ConsumerPc.signal
  split <;> simp_all

/-- An element signal wakes the consumer, or finds nobody in the wait. -/
theorem signalElementAvail_cases :
    ((∀ i b, s.cons ≠ .waitElement i b) ∧ signalElementAvail s = s) ∨
      ∃ i b, s.cons = .waitElement i b ∧
        signalElementAvail s = { s with cons := .waitElement i true } := by
  unfold signalElementAvail
  split
  · rename_i i b h
    exact .inr ⟨i, b, h, rfl⟩
  · rename_i h
    exact .inl ⟨fun i b hb => h i b hb, rfl⟩

@[simp] theorem signal_holdsQueue (pc : ConsumerPc) : pc.signal.holdsQueue = pc.holdsQueue := by
  cases pc <;> rfl

/-- The signal of a store, sent when the slot was waited for. -/
def signalIf (P : Prop) [Decidable P] (s : Radio) : Radio :=
  if P then signalElementAvail s else s

section signalIf

variable (P : Prop) [Decidable P]

@[simp] theorem signalIf_buf : (signalIf P s).buf = s.buf := by
  unfold signalIf
  split <;> simp

@[simp] theorem signalIf_prod : (signalIf P s).prod = s.prod := by
  unfold signalIf
  split <;> simp

@[simp] theorem signalIf_ack : (signalIf P s).ack = s.ack := by
  unfold signalIf
  split <;> simp

@[simp] theorem signalIf_holdsQueue :
    (signalIf P s).cons.holdsQueue = s.cons.holdsQueue := by
  unfold signalIf
  split <;> simp

end signalIf

/-- The slot was waited for: it was blocked, or given up. -/
def waitedFor (s : Radio) (q : Nat) : Prop :=
  (s.buf.book_keep_arr (seq2Ind q)).status = .kBlock ∨
    (s.buf.book_keep_arr (seq2Ind q)).status = .kDrop

instance (s : Radio) (q : Nat) : Decidable (waitedFor s q) :=
  inferInstanceAs (Decidable (_ ∨ _))

theorem enqueueStore_eq (s : Radio) (p : Producer) (c : EnqueueArgs) :
    (enqueueStore s p c).1 = setProd
      (signalIf (waitedFor s c.seq_num) { s with buf := store s.buf c }) p
      (if s.buf.tail_pt < c.seq_num then .clearing c.seq_num s.buf.tail_pt else .idle) := rfl

theorem enqueueStore_of_lt {s : Radio} {p : Producer} {c : EnqueueArgs}
    (h : s.buf.tail_pt < c.seq_num) :
    (enqueueStore s p c).1 = setProd
      (signalIf (waitedFor s c.seq_num) { s with buf := store s.buf c }) p
      (.clearing c.seq_num s.buf.tail_pt) := by
  rw [enqueueStore_eq, if_pos h]

theorem enqueueStore_of_le {s : Radio} {p : Producer} {c : EnqueueArgs}
    (h : c.seq_num ≤ s.buf.tail_pt) :
    (enqueueStore s p c).1 = setProd
      (signalIf (waitedFor s c.seq_num) { s with buf := store s.buf c }) p .idle := by
  rw [enqueueStore_eq, if_neg (Nat.not_lt_of_le h)]

theorem enqueueStore_buf (s : Radio) (p : Producer) (c : EnqueueArgs) :
    (enqueueStore s p c).1.buf = store s.buf c := by
  rw [enqueueStore_eq, setProd_buf, signalIf_buf]

/-- An empty signal marks one wait, and leaves every other producer alone. -/
theorem signalEmpty_prod (r : Producer) :
    (signalEmpty s pick).prod r = s.prod r ∨
      ∃ c b, s.prod r = .waitEmpty c b ∧ (signalEmpty s pick).prod r = .waitEmpty c true := by
  unfold signalEmpty
  simp only
  generalize (if (s.prod pick.first).asleep then pick.first else pick.first.other) = q
  by_cases hr : r = q
  · subst hr
    rw [setProd_self]
    cases hp : s.prod r with
    | waitEmpty c b => exact .inr ⟨c, b, rfl, rfl⟩
    | idle => exact .inl rfl
    | start c => exact .inl rfl
    | clearing q i => exact .inl rfl
  · exact .inl (setProd_ne _ _ _ hr)

end signals

/-! ## A call that waits for its turn -/

theorem Entering.of_prod {s t : Radio} {p : Producer} {c : EnqueueArgs} (h : Entering s p c)
    (hp : t.prod p = s.prod p) : Entering t p c := by
  unfold Entering
  rwa [hp]

/-- A signal wakes a producer and does not end its call. -/
theorem Entering.signalEmpty {s : Radio} {p : Producer} {c : EnqueueArgs} (h : Entering s p c)
    (pick : Pick) : Entering (signalEmpty s pick) p c := by
  rcases signalEmpty_prod s pick p with hsame | ⟨c', b, hold, hnew⟩
  · exact h.of_prod hsame
  · obtain rfl := h.unique (.inr ⟨b, hold⟩)
    exact .inr ⟨true, hnew⟩

/-- Only its own steps end a call. -/
theorem Entering.others {cfg : Config} {s t : Radio} {l : Label} {p : Producer} {c : EnqueueArgs}
    {out : List Event} (h : Entering s p c) (hl : ∀ pick, l ≠ .prod p pick)
    (m : Move cfg s l t out) : Entering t p c := by
  have hne : ∀ {r pick}, l = .prod r pick → p ≠ r := by
    rintro r pick rfl rfl
    exact hl pick rfl
  cases m with
  | @call p' c' hidle =>
    refine h.of_prod (setProd_ne _ _ _ ?_)
    rintro rfl
    rcases h with h | ⟨b, h⟩ <;> rw [hidle] at h <;> cases h
  | full => exact h.of_prod (by rw [setProd_ne _ _ _ (hne rfl), signalElementAvail_prod])
  | wrap =>
    refine Entering.of_prod (Entering.signalEmpty (Entering.of_prod h ?_) _)
      (setProd_ne _ _ _ (hne rfl))
    rw [signalFill_prod, signalElementAvail_prod]
  | store =>
    rw [enqueueStore_eq]
    exact h.of_prod (by rw [setProd_ne _ _ _ (hne rfl), signalIf_prod])
  | stale | staleTail | clear => exact h.of_prod (setProd_ne _ _ _ (hne rfl))
  | finish => exact h.of_prod (by rw [setProd_ne _ _ _ (hne rfl), signalFill_prod])
  | top | ackWoken => exact h.of_prod (by rw [signalFill_prod])
  | deliver | giveUp => exact Entering.signalEmpty (h.of_prod rfl) _
  | scanDrop | overflowDrop => exact h.of_prod (by rw [signalElementAvail_prod])
  | _ => exact h

/-! ## Where the consumer is -/

/-- The consumer saw a packet to wait for, and has not returned. -/
def ConsumerPc.busy : ConsumerPc → Bool
  | .lockElement _ | .beforeWait _ | .waitElement _ _ | .woken _ => true
  | .idle | .waitFill _ => false

/-- The sequence numbers that the acknowledgement thread holds. -/
def AckPc.words : AckPc → List Nat
  | .gotPointers head_pt _ | .gotBatchInfo head_pt _ _ | .atAssert head_pt _ _ _ => [head_pt]
  | .scan index _ _ _ _ nacks => index :: nacks
  | .extra i _ nacks => i :: nacks
  | .overflow rest _ => rest
  | .idle | .gotBatchID _ | .waitFill _ | .aborted => []

theorem queueFree_iff {s : Radio} :
    queueFree s ↔ s.cons.holdsQueue = false ∧ ∀ p, (s.prod p).holdsQueue = false := by
  simp only [queueFree, Bool.and_eq_true, Bool.not_eq_true']
  constructor
  · rintro ⟨⟨hc, ha⟩, hr⟩
    refine ⟨hc, fun p => ?_⟩
    cases p
    · exact ha
    · exact hr
  · rintro ⟨hc, hp⟩
    exact ⟨⟨hc, hp _⟩, hp _⟩

/-- A thread that takes `qlock_` finds no loop over the tail and no consumer
with both locks. -/
theorem free_prod {s : Radio} (h : queueFree s) (p : Producer) (q i : Nat) :
    s.prod p ≠ .clearing q i := by
  intro hp
  have := (queueFree_iff.mp h).2 p
  simp [hp, ProducerPc.holdsQueue] at this

theorem free_cons {s : Radio} (h : queueFree s) (i : Slot) : s.cons ≠ .lockElement i := by
  intro hc
  have := (queueFree_iff.mp h).1
  simp [hc, ConsumerPc.holdsQueue] at this

/-! ## The invariant -/

structure Core (s : Radio) : Prop where
  order : s.buf.head_pt ≤ s.buf.tail_pt
  window : s.buf.tail_pt ≤ s.buf.head_pt + BUF_SIZE
  tail_lt : s.buf.tail_pt < 2 ^ 32
  aligned : Aligned s.buf
  /-- The loop over the tail runs inside the window. -/
  clearing : ∀ p q i, s.prod p = .clearing q i →
    s.buf.tail_pt ≤ i ∧ i ≤ q ∧ s.buf.tail_pt < q ∧ q ≤ s.buf.head_pt + BUF_SIZE ∧ q < 2 ^ 32
  /-- One thread at a time holds `qlock_`. -/
  owner : ∀ p q i, s.prod p = .clearing q i → s.cons.holdsQueue = false ∧
    ∀ r, r ≠ p → (s.prod r).holdsQueue = false
  atHead : ∀ i, s.cons = .lockElement i → i = headPtMod s.buf
  busy : s.cons.busy → s.buf.head_pt < s.buf.tail_pt
  words : ∀ x ∈ s.ack.words, x < 2 ^ 32

theorem Core.head_lt {s : Radio} (h : Core s) : s.buf.head_pt < 2 ^ 32 :=
  Nat.lt_of_le_of_lt h.order h.tail_lt

theorem Core.isFull_iff {s : Radio} (h : Core s) :
    isFull s.buf ↔ s.buf.tail_pt = s.buf.head_pt + BUF_SIZE :=
  rx_data_buf.isFull_iff h.order h.tail_lt

theorem fresh_core {s : Radio} (h : s.Fresh) : Core s := by
  obtain ⟨⟨hh, ht, -, hslots⟩, -, -, hp, hc, ha⟩ := h
  refine ⟨by omega, by omega, by omega, fun i => .inl (hslots i).1, ?_, ?_, ?_, ?_, ?_⟩
  · intro p q i hpc
    rw [hp p] at hpc
    cases hpc
  · intro p q i hpc
    rw [hp p] at hpc
    cases hpc
  · intro i hi
    rw [hc] at hi
    cases hi
  · intro hb
    simp [hc, ConsumerPc.busy] at hb
  · simp [ha, AckPc.words]

/-! ## What keeps the invariant -/

section keeps

variable {s : Radio} (h : Core s)
include h

/-- A change of slots alone. -/
theorem Core.setBuf {b : RxDataBuf} (hh : b.head_pt = s.buf.head_pt)
    (ht : b.tail_pt = s.buf.tail_pt) (ha : Aligned b) : Core { s with buf := b } := by
  refine ⟨?_, ?_, ?_, ha, ?_, h.owner, ?_, ?_, h.words⟩
  · simpa [hh, ht] using h.order
  · simpa [hh, ht] using h.window
  · simpa [ht] using h.tail_lt
  · simpa [hh, ht] using h.clearing
  · simpa [headPtMod, hh] using h.atHead
  · simpa [hh, ht] using h.busy

theorem Core.setAck (pc : AckPc) (hpc : ∀ x ∈ pc.words, x < 2 ^ 32) :
    Core { s with ack := pc } :=
  ⟨h.order, h.window, h.tail_lt, h.aligned, h.clearing, h.owner, h.atHead, h.busy, hpc⟩

theorem Core.setBatch (b : BatchInfo) : Core { s with batch_info := b } :=
  ⟨h.order, h.window, h.tail_lt, h.aligned, h.clearing, h.owner, h.atHead, h.busy, h.words⟩

/-- The consumer goes where it holds no `qlock_`. -/
theorem Core.setCons {pc : ConsumerPc} (hq : pc.holdsQueue = false)
    (hb : pc.busy → s.buf.head_pt < s.buf.tail_pt) : Core { s with cons := pc } := by
  refine ⟨h.order, h.window, h.tail_lt, h.aligned, h.clearing, ?_, ?_, hb, h.words⟩
  · intro p q i hp
    exact ⟨hq, (h.owner p q i hp).2⟩
  · intro i hi
    simp only at hi
    simp [hi, ConsumerPc.holdsQueue] at hq

/-- The consumer takes `qlock_` at the slot of the head. -/
theorem Core.lockHead (hq : queueFree s) (hb : s.buf.head_pt < s.buf.tail_pt) :
    Core { s with cons := .lockElement (headPtMod s.buf) } := by
  refine ⟨h.order, h.window, h.tail_lt, h.aligned, h.clearing, ?_, ?_, fun _ => hb, h.words⟩
  · intro p q i hp
    exact absurd hp (free_prod hq p q i)
  · intro i hi
    cases hi
    rfl

/-- Producers go where they hold no `qlock_`. -/
theorem Core.setProds {prod : Producer → ProducerPc}
    (hprod : ∀ r, prod r = s.prod r ∨ (prod r).holdsQueue = false) : Core { s with prod } := by
  have hcl : ∀ r q i, prod r = .clearing q i → s.prod r = .clearing q i := by
    intro r q i hr
    rcases hprod r with he | hq
    · rwa [he] at hr
    · rw [hr] at hq
      cases hq
  refine ⟨h.order, h.window, h.tail_lt, h.aligned, fun r q i hr => h.clearing r q i (hcl r q i hr),
    ?_, h.atHead, h.busy, h.words⟩
  intro r q i hr
  obtain ⟨hc, ho⟩ := h.owner r q i (hcl r q i hr)
  refine ⟨hc, fun r' hr' => ?_⟩
  rcases hprod r' with he | hq
  · exact (congrArg ProducerPc.holdsQueue he).trans (ho r' hr')
  · exact hq

theorem Core.setProd {p : Producer} {pc : ProducerPc} (hq : pc.holdsQueue = false) :
    Core (setProd s p pc) := by
  apply h.setProds
  intro r
  by_cases hrp : r = p
  · subst hrp
    exact .inr (by rwa [Function.update_self])
  · exact .inl (Function.update_of_ne hrp _ _)

/-- A producer enters the loop over the tail, or takes one turn of it. -/
theorem Core.setClearing {p : Producer} {q i : Nat} (hc : s.cons.holdsQueue = false)
    (ho : ∀ r, r ≠ p → (s.prod r).holdsQueue = false)
    (hi : s.buf.tail_pt ≤ i ∧ i ≤ q ∧ s.buf.tail_pt < q ∧ q ≤ s.buf.head_pt + BUF_SIZE ∧
      q < 2 ^ 32) : Core (threads.setProd s p (.clearing q i)) := by
  have hcl : ∀ r q' i', (threads.setProd s p (.clearing q i)).prod r = .clearing q' i' →
      r = p ∧ q' = q ∧ i' = i := by
    intro r q' i' hr
    by_cases hrp : r = p
    · subst hrp
      rw [setProd_self] at hr
      cases hr
      exact ⟨rfl, rfl, rfl⟩
    · rw [setProd_ne _ _ _ hrp] at hr
      have := ho r hrp
      simp [hr, ProducerPc.holdsQueue] at this
  refine ⟨h.order, h.window, h.tail_lt, h.aligned, ?_, ?_, h.atHead, h.busy, h.words⟩
  · intro r q' i' hr
    obtain ⟨-, rfl, rfl⟩ := hcl r q' i' hr
    exact hi
  · intro r q' i' hr
    obtain ⟨rfl, -, -⟩ := hcl r q' i' hr
    refine ⟨hc, fun r' hr' => ?_⟩
    rw [setProd_ne _ _ _ hr']
    exact ho r' hr'

theorem Core.signalEmpty (pick : Pick) : Core (signalEmpty s pick) := by
  apply h.setProds
  intro r
  rcases signalEmpty_prod s pick r with he | ⟨c, b, -, he⟩
  · exact .inl he
  · exact .inr (congrArg ProducerPc.holdsQueue he)

theorem Core.signalFill (pick : Pick) : Core (signalFill s pick) := by
  rcases signalFill_cases s pick with he | ⟨-, he⟩ | ⟨-, he⟩
  · rwa [he]
  · rw [he]
    exact h.setAck _ (by simp [AckPc.words])
  · rw [he]
    exact h.setCons rfl (by simp [ConsumerPc.busy])

theorem Core.signalElementAvail : Core (signalElementAvail s) := by
  rcases signalElementAvail_cases s with ⟨-, he⟩ | ⟨i, b, hc, he⟩
  · rwa [he]
  · rw [he]
    exact h.setCons rfl (fun _ => h.busy (by simp [hc, ConsumerPc.busy]))

theorem Core.signalIf (P : Prop) [Decidable P] : Core (signalIf P s) := by
  unfold threads.signalIf
  split
  · exact h.signalElementAvail
  · exact h

/-- The jump of a wrap-around. -/
theorem Core.wrapAround {c : EnqueueArgs} (hq : queueFree s) (hs : s.buf.head_pt < c.seq_num) :
    Core { s with buf := wrapAround (store s.buf c) c } := by
  have hlt := c.seq_lt
  have hN := BUF_SIZE_pos
  have hsub : sub32 c.seq_num 1 = c.seq_num - 1 := sub32_of_le (by omega) hlt
  refine ⟨?_, ?_, hlt, (h.aligned.store c).wrapAround c, ?_, ?_, ?_, ?_, h.words⟩
  · change sub32 c.seq_num 1 ≤ c.seq_num
    omega
  · change c.seq_num ≤ sub32 c.seq_num 1 + BUF_SIZE
    omega
  · intro p q i hp
    exact absurd hp (free_prod hq p q i)
  · intro p q i hp
    exact absurd hp (free_prod hq p q i)
  · intro i hi
    exact absurd hi (free_cons hq i)
  · intro _
    change sub32 c.seq_num 1 < c.seq_num
    omega

/-- The loop over the tail is done, and the tail moves. -/
theorem Core.setTail {p : Producer} {q i : Nat} (hp : s.prod p = .clearing q i) (pick : Pick) :
    Core (threads.setProd
      (threads.signalFill { s with buf := { s.buf with tail_pt := q } } pick) p .idle) := by
  obtain ⟨-, -, htq, hqw, hql⟩ := h.clearing p q i hp
  obtain ⟨hc, ho⟩ := h.owner p q i hp
  have hord := h.order
  have h1 : Core (threads.setProd { s with buf := { s.buf with tail_pt := q } } p .idle) := by
    have hcl : ∀ r, ((threads.setProd { s with buf := { s.buf with tail_pt := q } } p .idle).prod
        r).holdsQueue = false := by
      intro r
      by_cases hrp : r = p
      · subst hrp
        rw [setProd_self]
        rfl
      · rw [setProd_ne _ _ _ hrp]
        exact ho r hrp
    refine ⟨?_, hqw, hql, h.aligned, ?_, ?_, h.atHead, ?_, h.words⟩
    · change s.buf.head_pt ≤ q
      omega
    · intro r q' i' hr
      have := hcl r
      simp [hr, ProducerPc.holdsQueue] at this
    · intro r q' i' hr
      have := hcl r
      simp [hr, ProducerPc.holdsQueue] at this
    · intro _
      change s.buf.head_pt < q
      omega
  rcases signalFill_cases { s with buf := { s.buf with tail_pt := q } } pick with
    he | ⟨-, he⟩ | ⟨-, he⟩
  · rw [he]
    exact h1
  · rw [he]
    exact h1.setAck _ (by simp [AckPc.words])
  · rw [he]
    exact h1.setCons rfl (by simp [ConsumerPc.busy])

/-- The consumer returns, and the head moves past its packet. -/
theorem Core.advance {b : RxDataBuf} {j : Slot} (hc : s.cons = .lockElement j)
    (hh : b.head_pt = add32 s.buf.head_pt 1) (ht : b.tail_pt = s.buf.tail_pt) (ha : Aligned b) :
    Core { s with buf := b, cons := .idle } := by
  have hlt := h.busy (by simp [hc, ConsumerPc.busy])
  have htl := h.tail_lt
  have hw := h.window
  have hadd : add32 s.buf.head_pt 1 = s.buf.head_pt + 1 := add32_of_lt (by omega)
  have hno : ∀ p q i, s.prod p ≠ .clearing q i := by
    intro p q i hp
    have := (h.owner p q i hp).1
    simp [hc, ConsumerPc.holdsQueue] at this
  refine ⟨?_, ?_, ?_, ha, ?_, ?_, ?_, ?_, h.words⟩
  · change b.head_pt ≤ b.tail_pt
    omega
  · change b.tail_pt ≤ b.head_pt + BUF_SIZE
    omega
  · change b.tail_pt < 2 ^ 32
    omega
  · intro p q i hp
    exact absurd hp (hno p q i)
  · intro p q i hp
    exact absurd hp (hno p q i)
  · intro i hi
    cases hi
  · intro hb
    simp [ConsumerPc.busy] at hb

end keeps

/-! ## Every step keeps it -/

theorem call_core {cfg : Config} {s t : Radio} {p : Producer} {c : EnqueueArgs}
    {out : List Event} (h : Core s) (m : Move cfg s (.call p c) t out) : Core t := by
  cases m
  exact h.setProd rfl

theorem prod_core {cfg : Config} {s t : Radio} {p : Producer} {pick : Pick}
    {out : List Event} (h : Core s) (m : Move cfg s (.prod p pick) t out) : Core t := by
  have hord := h.order
  cases m with
  | full hent hq hf he =>
    have h1 := h.setBuf (fullDrop_head _) (fullDrop_tail _) h.aligned.fullDrop
    exact h1.signalElementAvail.setProd rfl
  | wrap hent hq hf hs he hw =>
    exact (((h.wrapAround hq hs).signalElementAvail.signalFill pick).signalEmpty pick).setProd rfl
  | @store _ c _ hent hq hf hs he hw =>
    have h1 : Core { s with buf := store s.buf c } :=
      h.setBuf (store_head _ _) (store_tail _ _) (h.aligned.store c)
    have hfree := queueFree_iff.mp hq
    have hqw := le_of_not_isWrap hw h.head_lt
    have hql := c.seq_lt
    have h2 := h1.signalIf (waitedFor s c.seq_num)
    by_cases ht : s.buf.tail_pt < c.seq_num
    · rw [enqueueStore_of_lt ht]
      apply h2.setClearing
      · simpa using hfree.1
      · intro r _
        simpa using hfree.2 r
      · simp only [signalIf_buf, store_tail, store_head]
        omega
    · rw [enqueueStore_of_le (Nat.le_of_not_lt ht)]
      exact h2.setProd rfl
  | stale hent hq hf hs ht => exact h.setProd rfl
  | staleTail hent hq hf hs ht => omega
  | @clear _ q i _ hp hi he =>
    obtain ⟨hti, -, htq, hqw, hql⟩ := h.clearing p q i hp
    obtain ⟨hc, ho⟩ := h.owner p q i hp
    have h1 : Core { s with buf := clearRead s.buf (indMod i) } :=
      h.setBuf (clearRead_head _ _) (clearRead_tail _ _) (h.aligned.clearRead _)
    rw [add32_of_lt (a := i) (b := 1) (by omega)]
    apply h1.setClearing hc ho
    simp only [clearRead_tail, clearRead_head]
    omega
  | finish hp hi => exact h.setTail hp pick

theorem cons_core {cfg : Config} {s t : Radio} {pick : Pick} {out : List Event}
    (h : Core s) (m : Move cfg s (.cons pick) t out) : Core t := by
  have hord := h.order
  have htl := h.tail_lt
  cases m with
  | sleepFill hc hq he => exact h.setCons rfl (by simp [ConsumerPc.busy])
  | top hc hq he =>
    rw [isEmpty_iff_tail] at he
    exact (h.lockHead hq (by omega)).signalFill pick
  | @block i _ hc hk =>
    have hb := h.busy (by simp [hc, ConsumerPc.busy])
    exact Core.setCons (s := { s with buf := block s.buf i s.now })
      (h.setBuf rfl rfl (h.aligned.setSlot i _ (h.aligned i))) rfl (fun _ => hb)
  | blocked hc hk =>
    exact h.setCons rfl (fun _ => h.busy (by simp [hc, ConsumerPc.busy]))
  | @deliver i _ hc hk =>
    exact (h.advance (b := deliver s.buf i) hc rfl rfl (h.aligned.setStatus i _)).signalEmpty pick
  | @giveUp i _ hc hk =>
    exact (h.advance (b := giveUp s.buf i) hc rfl rfl (h.aligned.clear i)).signalEmpty pick
  | sleep hc => exact h.setCons rfl (fun _ => h.busy (by simp [hc, ConsumerPc.busy]))
  | wake hc => exact h.setCons rfl (fun _ => h.busy (by simp [hc, ConsumerPc.busy]))
  | @relock i _ hc hq =>
    have hb := h.busy (by simp [hc, ConsumerPc.busy])
    rw [relockIndex_eq h.aligned (by omega) i]
    exact h.lockHead hq hb

/-- The acknowledgement thread drops the slot of a number that it holds. -/
theorem Core.drop {s : Radio} (h : Core s) {i : Slot} {q : Nat} (hq : q < 2 ^ 32)
    (hi : seq2Ind q = i) (pc : AckPc) (hpc : ∀ x ∈ pc.words, x < 2 ^ 32) :
    Core (threads.signalElementAvail { s with buf := nackDrop s.buf i q, ack := pc }) := by
  have h1 : Core { s with buf := nackDrop s.buf i q } :=
    h.setBuf rfl rfl (h.aligned.setSlot i _ (.inr ⟨hq, hi⟩))
  exact (h1.setAck pc hpc).signalElementAvail

theorem ack_core {cfg : Config} {s t : Radio} {out : List Event}
    (h : Core s) (m : Move cfg s .ack t out) : Core t := by
  have hw := h.words
  have hhead := h.head_lt
  cases m with
  | getBatchID ha => exact h.setAck _ (by simp [AckPc.words])
  | ackSleep ha hq hb he => exact h.setAck _ (by simp [AckPc.words])
  | pointers ha hq hb => exact h.setAck _ (by simpa [AckPc.words] using hhead)
  | ackWoken ha hq => exact (h.setAck _ (by simpa [AckPc.words] using hhead)).signalFill _
  | batchFirst ha => exact (h.setBatch (decodingDone _ _)).setAck .idle (by simp [AckPc.words])
  | batchRead ha => exact (h.setBatch (decodingDone _ _)).setAck .idle (by simp [AckPc.words])
  | batchOld ha =>
    exact (h.setBatch (decodingDone _ _)).setAck (.atAssert _ _ _ _)
      (by simpa [ha, AckPc.words] using hw)
  | batchPast ha =>
    exact (h.setBatch (decodingDone _ _)).setAck (.atAssert _ _ _ _)
      (by simpa [ha, AckPc.words] using hw)
  | batchDone ha =>
    exact (h.setBatch (decodingDone _ _)).setAck (.gotBatchInfo _ _ _)
      (by simpa [ha, AckPc.words] using hw)
  | @ackBatchID hd tl e ha =>
    have h1 : Core { s with ack := .atAssert hd tl (sub32 tl 1) e } :=
      h.setAck _ (by simpa [ha, AckPc.words] using hw)
    exact ⟨h1.order, h1.window, h1.tail_lt, h1.aligned, h1.clearing, h1.owner, h1.atHead,
      h1.busy, h1.words⟩
  | assertHolds ha hlt => exact h.setAck _ (by simpa [ha, AckPc.words] using hw)
  | assertFails ha hlt => exact h.setAck _ (by simp [AckPc.words])
  | @scanDrop i _ _ _ _ ns ha hi he hh ho =>
    simp only [ha, AckPc.words, List.forall_mem_cons] at hw
    apply h.drop (add32_lt _ _) (seq2Ind_add32_one hw.1) _
    simpa [AckPc.words] using ⟨add32_lt i 1, hw.2⟩
  | @scanList i _ _ _ _ ns ha hi he hh ho =>
    simp only [ha, AckPc.words, List.forall_mem_cons] at hw
    apply h.setAck _
    simp only [AckPc.words, List.forall_mem_cons, List.forall_mem_append]
    exact ⟨add32_lt i 1, hw.2, add32_lt i 1, by simp⟩
  | @scanSkip i _ _ _ _ ns ha hi he hh =>
    simp only [ha, AckPc.words, List.forall_mem_cons] at hw
    exact h.setAck _ (by simpa [AckPc.words] using ⟨add32_lt i 1, hw.2⟩)
  | @scanEnd _ _ tl _ _ ns ha hi =>
    simp only [ha, AckPc.words, List.forall_mem_cons] at hw
    exact h.setAck _ (by simpa [AckPc.words] using ⟨add32_lt tl 1, hw.2⟩)
  | @extra i _ ns ha hi =>
    simp only [ha, AckPc.words, List.forall_mem_cons] at hw
    apply h.setAck _
    simp only [AckPc.words, List.forall_mem_cons, List.forall_mem_append]
    exact ⟨add32_lt i 1, hw.2, hw.1, by simp⟩
  | tooMany ha hi hn =>
    simp only [ha, AckPc.words, List.forall_mem_cons] at hw
    exact h.setAck _ (by simpa [AckPc.words] using hw.2)
  | extraEnd ha hi hn => exact h.setAck _ (by simp [AckPc.words])
  | overflowEnd ha => exact h.setAck _ (by simp [AckPc.words])
  | @overflowDrop q rest _ ha he =>
    simp only [ha, AckPc.words, List.forall_mem_cons] at hw
    exact h.drop hw.1 rfl (.overflow rest _) (by simpa [AckPc.words] using hw.2)

/-- Every step keeps the pointers in order. -/
theorem move_core {cfg : Config} {s t : Radio} {l : Label} {out : List Event}
    (h : Core s) (m : Move cfg s l t out) : Core t := by
  cases l with
  | call p c => exact call_core h m
  | prod p pick => exact prod_core h m
  | cons pick => exact cons_core h m
  | ack => exact ack_core h m
  | setBatchInfo => cases m; exact h.setBatch _
  | updateTimeLeft => cases m; exact h.setBatch _
  | setDecodingDone => cases m; exact h.setBatch _
  | tick us =>
    cases m
    exact ⟨h.order, h.window, h.tail_lt, h.aligned, h.clearing, h.owner, h.atHead, h.busy,
      h.words⟩

/-- In every state of every run the tail is in the window past the head. -/
theorem the_tail_stays_in_the_window {cfg : Config} {ok : List Event → Radio → Label → Prop}
    {s : Radio} {tr : List Event} (r : Run (radio cfg) ok s tr) : Core s :=
  r.invariant (fun s _ => Core s) (fun _ h0 => fresh_core h0)
    (fun _ _ _ _ _ _ h _ hs => move_core h (step_move hs))

end wspace_client.threads

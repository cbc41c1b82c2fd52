-- A reorder queue: items come with their numbers, in any order, and leave in
-- the order of the numbers. The first item of a number stands. A jump leaves
-- one item alone in the queue.
import WspaceClient.Machine
import Mathlib.Logic.Function.Basic

namespace wspace_client.reorder

open machine

variable {α : Type}

/-- The items past the head, by number. -/
structure Queue (α : Type) where
  head : Nat
  store : Nat → Option α

def Queue.empty : Queue α := ⟨0, fun _ => none⟩

inductive Call (α : Type)
  | put (q : Nat) (a : α)
  | jump (q : Nat) (a : α)
  | next

/-- What the queue shows: an item came, came with a jump, left, or was missing
when the head moved past its number. -/
inductive Op (α : Type)
  | put (q : Nat) (a : α)
  | jump (q : Nat) (a : α)
  | take (q : Nat) (a : α)
  | skip (q : Nat)

def step (s : Queue α) : Call α → Option (Queue α × List (Op α))
  | .put q a =>
    if s.head < q then
      some ({ s with store := Function.update s.store q (some ((s.store q).getD a)) }, [.put q a])
    else none
  | .jump q a =>
    if s.head < q then some (⟨q - 1, Function.update (fun _ => none) q (some a)⟩, [.jump q a])
    else none
  | .next =>
    match s.store (s.head + 1) with
    | some a =>
      some (⟨s.head + 1, Function.update s.store (s.head + 1) none⟩, [.take (s.head + 1) a])
    | none => some (⟨s.head + 1, s.store⟩, [.skip (s.head + 1)])

def queue : Machine (Queue α) (Call α) (Op α) where
  init s := s = .empty
  step := step

/-- A step of the queue, with what it found. -/
inductive Does (s : Queue α) : Queue α → List (Op α) → Prop
  | put {q a} (h : s.head < q) :
      Does s { s with store := Function.update s.store q (some ((s.store q).getD a)) } [.put q a]
  | jump {q a} (h : s.head < q) :
      Does s ⟨q - 1, Function.update (fun _ => none) q (some a)⟩ [.jump q a]
  | take {a} (h : s.store (s.head + 1) = some a) :
      Does s ⟨s.head + 1, Function.update s.store (s.head + 1) none⟩ [.take (s.head + 1) a]
  | skip (h : s.store (s.head + 1) = none) : Does s ⟨s.head + 1, s.store⟩ [.skip (s.head + 1)]

theorem step_does {s t : Queue α} {l : Call α} {out : List (Op α)}
    (h : step s l = some (t, out)) : Does s t out := by
  unfold step at h
  split at h
  · split at h
    · cases h
      exact .put ‹_›
    · cases h
  · split at h
    · cases h
      exact .jump ‹_›
    · cases h
  · split at h
    · cases h
      exact .take ‹_›
    · cases h
      exact .skip ‹_›

/-! ## The first item of a number -/

/-- The first item that was put under a number. -/
def firstPut : List (Op α) → Nat → Option α
  | [], _ => none
  | .put r a :: os, q => if r = q then some a else firstPut os q
  | _ :: os, q => firstPut os q

theorem firstPut_append (xs ys : List (Op α)) (q : Nat) :
    firstPut (xs ++ ys) q = (firstPut xs q).or (firstPut ys q) := by
  induction xs with
  | nil => rfl
  | cons o os ih =>
    cases o with
    | put r a =>
      simp only [List.cons_append, firstPut]
      split
      · rfl
      · exact ih
    | jump r a => exact ih
    | take r a => exact ih
    | skip r => exact ih

/-- Only a put changes what was first. -/
theorem firstPut_take (tr : List (Op α)) (q : Nat) (a : α) (r : Nat) :
    firstPut (tr ++ [.take q a]) r = firstPut tr r := by
  simp [firstPut_append, firstPut]

theorem firstPut_skip (tr : List (Op α)) (q r : Nat) :
    firstPut (tr ++ [.skip q]) r = firstPut tr r := by
  simp [firstPut_append, firstPut]

theorem firstPut_put_ne (tr : List (Op α)) {q r : Nat} (a : α) (hr : r ≠ q) :
    firstPut (tr ++ [.put q a]) r = firstPut tr r := by
  simp [firstPut_append, firstPut, hr.symm]

theorem firstPut_isSome {tr : List (Op α)} {q : Nat} {a : α} (h : .put q a ∈ tr) :
    ∃ b, firstPut tr q = some b := by
  obtain ⟨xs, ys, rfl⟩ := List.append_of_mem h
  rw [firstPut_append]
  cases firstPut xs q with
  | some b => exact ⟨b, rfl⟩
  | none => exact ⟨a, by simp [firstPut]⟩

/-- No item came with a jump. -/
def NoJump (tr : List (Op α)) : Prop := ∀ q a, Op.jump q a ∉ tr

theorem NoJump.of_append {xs ys : List (Op α)} (h : NoJump (xs ++ ys)) : NoJump xs ∧ NoJump ys :=
  ⟨fun q a hm => h q a (List.mem_append_left _ hm),
    fun q a hm => h q a (List.mem_append_right _ hm)⟩

/-! ## Order -/

/-- The numbers of the items that left, in order. -/
def taken : List (Op α) → List Nat
  | [] => []
  | .take q _ :: os => q :: taken os
  | _ :: os => taken os

theorem taken_append (xs ys : List (Op α)) : taken (xs ++ ys) = taken xs ++ taken ys := by
  induction xs with
  | nil => rfl
  | cons o os ih => cases o <;> simp [taken, ih]

structure Sorted (s : Queue α) (tr : List (Op α)) : Prop where
  past : ∀ q a, s.store q = some a → s.head < q
  left : ∀ q ∈ taken tr, q ≤ s.head
  order : (taken tr).Pairwise (· < ·)

theorem Does.sorted {s t : Queue α} {tr out : List (Op α)} (h : Sorted s tr) (d : Does s t out) :
    Sorted t (tr ++ out) := by
  cases d with
  | @put q a hq =>
    refine ⟨?_, by simpa [taken_append, taken] using h.left,
      by simpa [taken_append, taken] using h.order⟩
    intro r b hr
    by_cases hrq : r = q
    · rw [hrq]
      exact hq
    · simp only [Function.update_of_ne hrq] at hr
      exact h.past r b hr
  | @jump q a hq =>
    refine ⟨?_, ?_, by simpa [taken_append, taken] using h.order⟩
    · intro r b hr
      by_cases hrq : r = q
      · simp only
        omega
      · simp [Function.update_of_ne hrq] at hr
    · intro r hr
      have := h.left r (by simpa [taken_append, taken] using hr)
      simp only
      omega
  | @take a ha =>
    refine ⟨?_, ?_, ?_⟩
    · intro r b hr
      by_cases hrq : r = s.head + 1
      · simp [hrq] at hr
      · simp only [Function.update_of_ne hrq] at hr
        have := h.past r b hr
        simp only
        omega
    · intro r hr
      simp only [taken_append, taken, List.mem_append, List.mem_singleton] at hr ⊢
      rcases hr with hr | hr
      · have := h.left r hr
        omega
      · omega
    · rw [taken_append, List.pairwise_append]
      refine ⟨h.order, by simp [taken], ?_⟩
      intro r hr r' hr'
      have := h.left r hr
      simp only [taken, List.mem_singleton] at hr'
      omega
  | skip hn =>
    refine ⟨?_, ?_, by simpa [taken_append, taken] using h.order⟩
    · intro r b hr
      have h1 := h.past r b hr
      have h2 : r ≠ s.head + 1 := by
        rintro rfl
        simp [hn] at hr
      simp only
      omega
    · intro r hr
      have := h.left r (by simpa [taken_append, taken] using hr)
      simp only
      omega

theorem run_sorted {ok : List (Op α) → Queue α → Call α → Prop} {s : Queue α} {tr : List (Op α)}
    (r : Run queue ok s tr) : Sorted s tr := by
  refine r.invariant Sorted ?_ (fun _ _ _ _ _ _ h _ hs => (step_does hs).sorted h)
  rintro s rfl
  exact ⟨nofun, by simp [taken], by simp [taken]⟩

/-- Items leave in strictly increasing order of their numbers. -/
theorem items_leave_in_order {ok : List (Op α) → Queue α → Call α → Prop} {s : Queue α}
    {tr : List (Op α)} (r : Run queue ok s tr) : (taken tr).Pairwise (· < ·) :=
  (run_sorted r).order

/-! ## Nothing lost, nothing changed -/

/-- Without jumps, what is in the queue and what left are first items. -/
structure Kept (s : Queue α) (tr : List (Op α)) : Prop where
  stored : ∀ q, s.head < q → s.store q = firstPut tr q
  left : ∀ q a, .take q a ∈ tr ↔ q ≤ s.head ∧ firstPut tr q = some a
  missing : ∀ q, .skip q ∈ tr → q ≤ s.head ∧ firstPut tr q = none

theorem Does.kept {s t : Queue α} {tr out : List (Op α)} (hj : NoJump (tr ++ out))
    (h : Kept s tr) (d : Does s t out) : Kept t (tr ++ out) := by
  cases d with
  | @put q a hq =>
    refine ⟨?_, ?_, ?_⟩
    · intro r hr
      by_cases hrq : r = q
      · subst hrq
        simp only [Function.update_self, h.stored r hq, firstPut_append, firstPut, if_true]
        cases firstPut tr r <;> rfl
      · simp only [Function.update_of_ne hrq, firstPut_put_ne tr a hrq]
        exact h.stored r hr
    · intro r b
      by_cases hrq : r = q
      · subst hrq
        have := h.left r b
        simp only [List.mem_append, List.mem_singleton, reduceCtorEq, or_false, this]
        omega
      · rw [firstPut_put_ne tr a hrq, ← h.left r b]
        simp
    · intro r hr
      simp only [List.mem_append, List.mem_singleton, reduceCtorEq, or_false] at hr
      have := h.missing r hr
      rw [firstPut_put_ne tr a (by omega)]
      exact this
  | @jump q a hq => exact absurd (by simp) (hj q a)
  | @take a ha =>
    have hput := h.stored (s.head + 1) (by omega)
    rw [ha] at hput
    refine ⟨?_, ?_, ?_⟩
    · intro r hr
      simp only at hr
      simp only [Function.update_of_ne (show r ≠ s.head + 1 by omega), firstPut_take]
      exact h.stored r (by omega)
    · intro r b
      have hl := h.left r b
      simp only [firstPut_take, List.mem_append, List.mem_singleton, Op.take.injEq, hl]
      constructor
      · rintro (⟨hr, hb⟩ | ⟨rfl, rfl⟩)
        · exact ⟨by omega, hb⟩
        · exact ⟨by omega, hput.symm⟩
      · rintro ⟨hr, hb⟩
        by_cases hrs : r = s.head + 1
        · subst hrs
          rw [← hput] at hb
          cases hb
          exact .inr ⟨rfl, rfl⟩
        · exact .inl ⟨by omega, hb⟩
    · intro r hr
      simp only [List.mem_append, List.mem_singleton, reduceCtorEq, or_false] at hr
      have := h.missing r hr
      rw [firstPut_take]
      simp only
      exact ⟨by omega, this.2⟩
  | skip hn =>
    have hput := h.stored (s.head + 1) (by omega)
    rw [hn] at hput
    refine ⟨?_, ?_, ?_⟩
    · intro r hr
      simp only at hr
      rw [firstPut_skip]
      exact h.stored r (by omega)
    · intro r b
      have hl := h.left r b
      simp only [firstPut_skip, List.mem_append, List.mem_singleton, reduceCtorEq, or_false, hl]
      constructor
      · rintro ⟨hr, hb⟩
        exact ⟨by omega, hb⟩
      · rintro ⟨hr, hb⟩
        have hrs : r ≠ s.head + 1 := by
          rintro rfl
          rw [← hput] at hb
          cases hb
        exact ⟨by omega, hb⟩
    · intro r hr
      rw [firstPut_skip]
      simp only [List.mem_append, List.mem_singleton, Op.skip.injEq] at hr ⊢
      rcases hr with hr | rfl
      · have := h.missing r hr
        exact ⟨by omega, this.2⟩
      · exact ⟨by omega, hput.symm⟩

theorem run_kept {ok : List (Op α) → Queue α → Call α → Prop} {s : Queue α} {tr : List (Op α)}
    (r : Run queue ok s tr) : NoJump tr → Kept s tr := by
  apply r.invariant (fun s tr => NoJump tr → Kept s tr)
  · rintro s rfl _
    exact ⟨fun _ _ => rfl, by simp [firstPut], by simp⟩
  · intro s tr l t out _ ih _ hs hj
    exact (step_does hs).kept hj (ih hj.of_append.1)

/-! ## After a jump -/

/-- The numbers that some item came under. -/
def Came (tr : List (Op α)) (q : Nat) (a : α) : Prop := .put q a ∈ tr ∨ .jump q a ∈ tr

/-- What is in the queue, and what left, came under its number. -/
structure Genuine (s : Queue α) (tr : List (Op α)) : Prop where
  stored : ∀ q a, s.store q = some a → Came tr q a
  left : ∀ q a, .take q a ∈ tr → Came tr q a

theorem Came.append {tr : List (Op α)} {q : Nat} {a : α} (h : Came tr q a) (out : List (Op α)) :
    Came (tr ++ out) q a :=
  h.imp (List.mem_append_left _) (List.mem_append_left _)

theorem Does.genuine {s t : Queue α} {tr out : List (Op α)} (h : Genuine s tr)
    (d : Does s t out) : Genuine t (tr ++ out) := by
  have hold : ∀ q a, Op.take q a ∈ tr → Came (tr ++ out) q a :=
    fun q a hm => (h.left q a hm).append out
  cases d with
  | @put q a hq =>
    refine ⟨?_, by simpa using hold⟩
    intro r b hr
    by_cases hrq : r = q
    · subst hrq
      simp only [Function.update_self, Option.some.injEq] at hr
      cases hs : s.store r with
      | none =>
        rw [hs] at hr
        exact .inl (by simp [← hr])
      | some b' =>
        rw [hs] at hr
        simp only [Option.getD_some] at hr
        subst hr
        exact (h.stored r _ hs).append _
    · simp only [Function.update_of_ne hrq] at hr
      exact (h.stored r b hr).append _
  | @jump q a hq =>
    refine ⟨?_, by simpa using hold⟩
    intro r b hr
    by_cases hrq : r = q
    · subst hrq
      simp only [Function.update_self, Option.some.injEq] at hr
      exact .inr (by simp [hr])
    · simp [Function.update_of_ne hrq] at hr
  | @take a ha =>
    refine ⟨?_, ?_⟩
    · intro r b hr
      by_cases hrs : r = s.head + 1
      · simp [hrs] at hr
      · simp only [Function.update_of_ne hrs] at hr
        exact (h.stored r b hr).append _
    · intro r b hm
      simp only [List.mem_append, List.mem_singleton, Op.take.injEq] at hm
      rcases hm with hm | ⟨rfl, rfl⟩
      · exact hold r b hm
      · exact (h.stored _ _ ha).append _
  | skip hn =>
    exact ⟨fun r b hr => (h.stored r b hr).append _, by simpa using hold⟩

/-- Every item that leaves came under the number it leaves with. -/
theorem run_genuine {ok : List (Op α) → Queue α → Call α → Prop} {s : Queue α}
    {tr : List (Op α)} (r : Run queue ok s tr) : Genuine s tr := by
  refine r.invariant Genuine ?_ (fun _ _ _ _ _ _ h _ hs => (step_does hs).genuine h)
  rintro s rfl
  exact ⟨nofun, by simp⟩

/-- The item of the last jump, until the head moves. -/
def waitingAfter (w : Option (Nat × α)) : Op α → Option (Nat × α)
  | .put _ _ => w
  | .jump q a => some (q, a)
  | .take _ _ | .skip _ => none

def waiting (tr : List (Op α)) : Option (Nat × α) := tr.foldl waitingAfter none

theorem waiting_snoc (tr : List (Op α)) (o : Op α) :
    waiting (tr ++ [o]) = waitingAfter (waiting tr) o := by
  simp [waiting]

/-- The item of a jump stands at the head until the head moves. -/
theorem run_waiting {ok : List (Op α) → Queue α → Call α → Prop} {s : Queue α}
    {tr : List (Op α)} (r : Run queue ok s tr) {q : Nat} {a : α}
    (h : waiting tr = some (q, a)) : s.head + 1 = q ∧ s.store q = some a := by
  refine r.invariant (fun s tr => ∀ q a, waiting tr = some (q, a) →
    s.head + 1 = q ∧ s.store q = some a) (fun _ _ _ _ => nofun) ?_ q a h
  intro s tr l t out _ ih _ hs q a hw
  cases step_does hs with
  | @put r b hr =>
    obtain ⟨hh, ha⟩ := ih q a (by rwa [waiting_snoc] at hw)
    refine ⟨hh, ?_⟩
    by_cases hrq : q = r
    · subst hrq
      simp [ha]
    · simp only [Function.update_of_ne hrq]
      exact ha
  | @jump r b hr =>
    rw [waiting_snoc] at hw
    cases hw
    simp only [Function.update_self, and_true]
    omega
  | take ha =>
    rw [waiting_snoc] at hw
    cases hw
  | skip hn =>
    rw [waiting_snoc] at hw
    cases hw

/-- After a jump, its item is the next one to leave, and the head does not
move without it. -/
theorem the_item_of_a_jump_leaves_next {ok : List (Op α) → Queue α → Call α → Prop}
    {s : Queue α} {tr pre post : List (Op α)} {o : Op α} (r : Run queue ok s tr)
    (htr : tr = pre ++ o :: post) {q : Nat} {a : α} (hw : waiting pre = some (q, a)) :
    (∀ p b, o = .take p b → p = q ∧ b = a) ∧ ∀ p, o ≠ .skip p := by
  obtain ⟨s', tr', l, t, xs, ys, r', -, hs, rfl⟩ := r.split htr
  have hone : xs = [] := by
    have hd := step_does hs
    generalize hout : xs ++ o :: ys = out at hd
    cases hd <;> cases xs <;> simp_all
  subst hone
  rw [List.append_nil] at hw
  obtain ⟨rfl, ha⟩ := run_waiting r' hw
  have hd := step_does hs
  generalize hout : ([] ++ o :: ys : List (Op α)) = out at hd
  cases hd with
  | put _ => simp_all
  | jump _ => simp_all
  | take hb => simp_all
  | skip hn => simp_all

end wspace_client.reorder

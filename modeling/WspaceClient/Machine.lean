-- Machines that step on labels and emit events. A run of a machine may be
-- guarded: each of its steps meets a condition on the events before it, the
-- state and the label. The rules below lift a fact about one step to every
-- run, of any length.
import Mathlib.Data.List.Basic

namespace wspace_client.machine

/-- A machine: its start states, and what one label does to a state. A label
that is not enabled gives `none`. -/
structure Machine (σ ℓ ω : Type) where
  init : σ → Prop
  step : σ → ℓ → Option (σ × List ω)

variable {σ ℓ ω : Type} {M : Machine σ ℓ ω}

/-- A guarded run that reached a state and emitted a trace, oldest event first. -/
inductive Run (M : Machine σ ℓ ω) (ok : List ω → σ → ℓ → Prop) : σ → List ω → Prop
  | start {s : σ} : M.init s → Run M ok s []
  | next {s t : σ} {tr out : List ω} {l : ℓ} :
      Run M ok s tr → ok tr s l → M.step s l = some (t, out) → Run M ok t (tr ++ out)

/-- The guard that every step meets. -/
def anyStep (_ : List ω) (_ : σ) (_ : ℓ) : Prop := True

theorem Run.mono {ok ok' : List ω → σ → ℓ → Prop} {s : σ} {tr : List ω}
    (h : ∀ tr s l, ok tr s l → ok' tr s l) (r : Run M ok s tr) : Run M ok' s tr := by
  induction r with
  | start h0 => exact .start h0
  | next _ hok hs ih => exact .next ih (h _ _ _ hok) hs

theorem Run.any {ok : List ω → σ → ℓ → Prop} {s : σ} {tr : List ω} (r : Run M ok s tr) :
    Run M anyStep s tr := r.mono (fun _ _ _ _ => trivial)

/-- The invariant rule: what holds at the start, and what each guarded step
of a run keeps, holds at the end of every guarded run. -/
theorem Run.invariant {ok : List ω → σ → ℓ → Prop} (Inv : σ → List ω → Prop)
    (h0 : ∀ s, M.init s → Inv s [])
    (hs : ∀ s tr l t out, Run M ok s tr → Inv s tr → ok tr s l → M.step s l = some (t, out) →
      Inv t (tr ++ out))
    {s : σ} {tr : List ω} (r : Run M ok s tr) : Inv s tr := by
  induction r with
  | start h => exact h0 _ h
  | next r hok hstep ih => exact hs _ _ _ _ _ r ih hok hstep

/-- The event rule: when each event that a guarded step emits has a property
of the trace before the step, every event of a run has it. -/
theorem Run.events {ok : List ω → σ → ℓ → Prop} (P : ω → Prop)
    (hs : ∀ s tr l t out, Run M ok s tr → ok tr s l → M.step s l = some (t, out) →
      ∀ e ∈ out, P e)
    {s : σ} {tr : List ω} (r : Run M ok s tr) : ∀ e ∈ tr, P e := by
  induction r with
  | start => simp
  | next r hok hstep ih =>
    intro e he
    rcases List.mem_append.mp he with he | he
    · exact ih e he
    · exact hs _ _ _ _ _ r hok hstep e he

/-- The guard rule: when the events of a run all have a property, its steps meet each
guard that a step with such events meets. -/
theorem Run.of_events {ok ok' : List ω → σ → ℓ → Prop} (P : ω → Prop)
    (h : ∀ tr s l t out, Run M ok s tr → M.step s l = some (t, out) → (∀ e ∈ out, P e) →
      ok' tr s l)
    {s : σ} {tr : List ω} (r : Run M ok s tr) (hP : ∀ e ∈ tr, P e) : Run M ok' s tr := by
  induction r with
  | start h0 => exact .start h0
  | next r _ hs ih =>
    refine .next (ih fun e he => hP e (List.mem_append_left _ he)) ?_ hs
    exact h _ _ _ _ _ r hs fun e he => hP e (List.mem_append_right _ he)

/-- Each event of a run came with a step, after the events before it. -/
theorem Run.split {ok : List ω → σ → ℓ → Prop} {s : σ} {tr pre post : List ω} {e : ω}
    (r : Run M ok s tr) (h : tr = pre ++ e :: post) :
    ∃ s' tr' l t xs ys, Run M ok s' tr' ∧ ok tr' s' l ∧ M.step s' l = some (t, xs ++ e :: ys) ∧
      pre = tr' ++ xs := by
  induction r generalizing pre post with
  | start => simp at h
  | @next s t tr out l r hok hs ih =>
    rcases List.append_eq_append_iff.mp h with ⟨xs, hpre, hout⟩ | ⟨ys, htr, hpost⟩
    · exact ⟨s, tr, l, t, xs, post, r, hok, by rw [← hout]; exact hs, hpre⟩
    · cases ys with
      | nil =>
        refine ⟨s, tr, l, t, [], post, r, hok, ?_, by simpa using htr.symm⟩
        rw [List.nil_append] at hpost
        rw [hpost]
        exact hs
      | cons y ys =>
        rw [List.cons_append, List.cons.injEq] at hpost
        rw [← hpost.1] at htr
        exact ih htr

/-! ## Runs of a list of labels -/

/-- Executes a list of labels from a state. -/
def exec (M : Machine σ ℓ ω) : σ → List ℓ → Option (σ × List ω)
  | s, [] => some (s, [])
  | s, l :: ls => do
    let (t, out) ← M.step s l
    let (u, out') ← exec M t ls
    return (u, out ++ out')

/-- Each label of an executed list meets the guard. -/
def ExecOk (M : Machine σ ℓ ω) (ok : List ω → σ → ℓ → Prop) : List ω → σ → List ℓ → Prop
  | _, _, [] => True
  | tr, s, l :: ls => ok tr s l ∧ ∀ t out, M.step s l = some (t, out) →
      ExecOk M ok (tr ++ out) t ls

theorem exec_cons {s u : σ} {l : ℓ} {ls : List ℓ} {tr : List ω}
    (h : exec M s (l :: ls) = some (u, tr)) :
    ∃ t out out', M.step s l = some (t, out) ∧ exec M t ls = some (u, out') ∧
      tr = out ++ out' := by
  simp only [exec, Option.bind_eq_bind, Option.bind_eq_some_iff] at h
  obtain ⟨⟨t, out⟩, h1, ⟨u', out'⟩, h2, h3⟩ := h
  simp only [Option.pure_def, Option.some.injEq, Prod.mk.injEq] at h3
  obtain ⟨rfl, rfl⟩ := h3
  exact ⟨t, out, out', h1, h2, rfl⟩

theorem exec_append {s t u : σ} {ks ls : List ℓ} {out out' : List ω}
    (h : exec M s ks = some (t, out)) (h' : exec M t ls = some (u, out')) :
    exec M s (ks ++ ls) = some (u, out ++ out') := by
  induction ks generalizing s out with
  | nil =>
    cases h
    exact h'
  | cons k ks ih =>
    obtain ⟨s', o, o', h1, h2, rfl⟩ := exec_cons h
    rw [List.cons_append, List.append_assoc]
    simp [exec, h1, ih h2]

/-- An executed list of labels extends a run. -/
theorem Run.exec {ok : List ω → σ → ℓ → Prop} {s u : σ} {tr tr' : List ω} {ls : List ℓ}
    (r : Run M ok s tr) (hok : ExecOk M ok tr s ls)
    (h : exec M s ls = some (u, tr')) : Run M ok u (tr ++ tr') := by
  induction ls generalizing s tr tr' with
  | nil =>
    simp only [machine.exec, Option.some.injEq, Prod.mk.injEq] at h
    obtain ⟨rfl, rfl⟩ := h
    simpa using r
  | cons l ls ih =>
    obtain ⟨t, out, out', h1, h2, rfl⟩ := exec_cons h
    rw [← List.append_assoc]
    exact ih (.next r hok.1 h1) (hok.2 t out h1) h2

/-- A guard on labels that each label of a list meets. -/
theorem execOk_of_labels {ok : List ω → σ → ℓ → Prop} {ls : List ℓ}
    (h : ∀ l ∈ ls, ∀ tr s, ok tr s l) (tr : List ω) (s : σ) : ExecOk M ok tr s ls := by
  induction ls generalizing s tr with
  | nil => trivial
  | cons l ls ih =>
    refine ⟨h l List.mem_cons_self tr s, fun t out _ => ?_⟩
    exact ih (fun k hk => h k (List.mem_cons_of_mem l hk)) (tr ++ out) t

theorem execOk_any (tr : List ω) (s : σ) (ls : List ℓ) : ExecOk M anyStep tr s ls :=
  execOk_of_labels (fun _ _ _ _ => trivial) tr s

/-- A list of labels that executes from a start state is a run. -/
theorem run_of_exec {s u : σ} {tr : List ω} {ls : List ℓ} (h0 : M.init s)
    (h : exec M s ls = some (u, tr)) : Run M anyStep u tr := by
  simpa using Run.exec (.start h0) (execOk_any [] s ls) h

theorem run_of_exec_ok {ok : List ω → σ → ℓ → Prop} {s u : σ} {tr : List ω} {ls : List ℓ}
    (h0 : M.init s) (hok : ExecOk M ok [] s ls) (h : exec M s ls = some (u, tr)) :
    Run M ok u tr := by
  simpa using Run.exec (.start h0) hok h

instance decidableExecOk (ok : List ω → σ → ℓ → Prop) [∀ tr s l, Decidable (ok tr s l)] :
    (tr : List ω) → (s : σ) → (ls : List ℓ) → Decidable (ExecOk M ok tr s ls)
  | _, _, [] => isTrue trivial
  | tr, s, l :: ls =>
    match h : M.step s l with
    | none => decidable_of_iff (ok tr s l) (by simp [ExecOk, h])
    | some (t, out) =>
      have := decidableExecOk ok (tr ++ out) t ls
      decidable_of_iff (ok tr s l ∧ ExecOk M ok (tr ++ out) t ls) (by simp [ExecOk, h])

/-- A list of labels that a test executes: it runs, its steps meet the guard,
and its end passes the check. -/
theorem run_of_check (M : Machine σ ℓ ω) (ok : List ω → σ → ℓ → Prop) {s : σ} (ls : List ℓ)
    (check : σ × List ω → Bool) (h0 : M.init s) (hok : ExecOk M ok [] s ls)
    (h : (exec M s ls).any check = true) :
    ∃ u tr, Run M ok u tr ∧ check (u, tr) = true := by
  obtain ⟨⟨u, tr⟩, he, hc⟩ := (Option.any_eq_true _ _).mp h
  exact ⟨u, tr, run_of_exec_ok h0 hok he, hc⟩

/-! ## Bounded executions -/

/-- The bound rule: when each guarded step lowers a number, an executed list is
no longer than what the number lost. -/
theorem exec_bounded {ok : List ω → σ → ℓ → Prop} (Inv : List ω → σ → Prop) (m : σ → Nat)
    (hs : ∀ tr s l t out, Inv tr s → ok tr s l → M.step s l = some (t, out) →
      Inv (tr ++ out) t ∧ m t < m s)
    {tr : List ω} {s u : σ} {ls : List ℓ} {out : List ω} (h0 : Inv tr s)
    (hok : ExecOk M ok tr s ls) (h : exec M s ls = some (u, out)) :
    Inv (tr ++ out) u ∧ ls.length + m u ≤ m s := by
  induction ls generalizing s tr out with
  | nil =>
    cases h
    rw [List.append_nil]
    exact ⟨h0, Nat.le_of_eq (Nat.zero_add _)⟩
  | cons l ls ih =>
    obtain ⟨t, o, o', h1, h2, rfl⟩ := exec_cons h
    obtain ⟨ht, hlt⟩ := hs tr s l t o h0 hok.1 h1
    obtain ⟨hu, hrest⟩ := ih ht (hok.2 t o h1) h2
    rw [← List.append_assoc, List.length_cons]
    exact ⟨hu, by omega⟩

/-- The progress rule: when a guarded step is possible as long as the number is
not zero, some guarded steps bring it down to zero. -/
theorem exec_drains {ok : List ω → σ → ℓ → Prop} (Inv : σ → Prop) (m : σ → Nat)
    (hs : ∀ tr s l t out, Inv s → ok tr s l → M.step s l = some (t, out) → Inv t ∧ m t < m s)
    (hgo : ∀ tr s, Inv s → 0 < m s → ∃ l t out, ok tr s l ∧ M.step s l = some (t, out))
    (tr : List ω) {s : σ} (h0 : Inv s) :
    ∃ ls u out, exec M s ls = some (u, out) ∧ ExecOk M ok tr s ls ∧ Inv u ∧ m u = 0 := by
  -- The induction is on the number.
  induction hn : m s using Nat.strongRecOn generalizing s tr with
  | ind n ih =>
    rcases Nat.eq_zero_or_pos (m s) with hz | hpos
    · exact ⟨[], s, [], rfl, trivial, h0, hz⟩
    · obtain ⟨l, t, out, hok, hstep⟩ := hgo tr s h0 hpos
      obtain ⟨ht, hlt⟩ := hs tr s l t out h0 hok hstep
      obtain ⟨ls, u, out', he, hoks, hu, hz⟩ := ih _ (hn ▸ hlt) (tr ++ out) ht rfl
      refine ⟨l :: ls, u, out ++ out', ?_, ⟨hok, fun t' o' hs' => ?_⟩, hu, hz⟩
      · simp [exec, hstep, he]
      · rw [hstep] at hs'
        cases hs'
        exact hoks

/-! ## Refinement -/

/-- The refinement rule: when a machine answers each guarded step of another
with steps of its own, it answers every guarded run. -/
theorem Run.refines {τ κ ο : Type} {A : Machine τ κ ο} {ok : List ω → σ → ℓ → Prop}
    (abs : σ → τ) (ev : ω → Option ο) (h0 : ∀ s, M.init s → A.init (abs s))
    (hs : ∀ s tr l t out, Run M ok s tr → ok tr s l → M.step s l = some (t, out) →
      ∃ ks, machine.exec A (abs s) ks = some (abs t, out.filterMap ev))
    {s : σ} {tr : List ω} (r : Run M ok s tr) : Run A anyStep (abs s) (tr.filterMap ev) := by
  induction r with
  | start h => exact .start (h0 _ h)
  | next r hok hstep ih =>
    obtain ⟨ks, hks⟩ := hs _ _ _ _ _ r hok hstep
    rw [List.filterMap_append]
    exact ih.exec (execOk_any _ _ _) hks

theorem exec_nil (s : σ) : exec M s [] = some (s, []) := rfl

theorem exec_one {s t : σ} {l : ℓ} {out : List ω} (h : M.step s l = some (t, out)) :
    exec M s [l] = some (t, out) := by
  simp [exec, h]

/-! ## Logs -/

/-- What a log keeps of a step: the state before it, its label and its events. -/
structure Entry (σ ℓ ω : Type) where
  state : σ
  label : ℓ
  events : List ω

/-- The same machine, which shows each of its steps as a whole. -/
def logged (M : Machine σ ℓ ω) : Machine σ ℓ (Entry σ ℓ ω) where
  init := M.init
  step s l := (M.step s l).map fun (t, out) => (t, [⟨s, l, out⟩])

theorem logged_step {s t : σ} {l : ℓ} {es : List (Entry σ ℓ ω)}
    (h : (logged M).step s l = some (t, es)) :
    ∃ out, M.step s l = some (t, out) ∧ es = [⟨s, l, out⟩] := by
  obtain ⟨⟨t', out⟩, hs, he⟩ := Option.map_eq_some_iff.mp h
  cases he
  exact ⟨out, hs, rfl⟩

theorem step_logged {s t : σ} {l : ℓ} {out : List ω} (h : M.step s l = some (t, out)) :
    (logged M).step s l = some (t, [⟨s, l, out⟩]) :=
  Option.map_eq_some_iff.mpr ⟨_, h, rfl⟩

/-- The events of a log. -/
def eventsOf (log : List (Entry σ ℓ ω)) : List ω := log.flatMap (·.events)

/-- A run with a log is a run. -/
theorem Run.forget {okLog : List (Entry σ ℓ ω) → σ → ℓ → Prop} {ok : List ω → σ → ℓ → Prop}
    {s : σ} {log : List (Entry σ ℓ ω)} (r : Run (logged M) okLog s log)
    (hok : ∀ log s l, okLog log s l → ok (eventsOf log) s l) : Run M ok s (eventsOf log) := by
  induction r with
  | start h => exact .start h
  | next r h hs ih =>
    obtain ⟨out, hstep, rfl⟩ := logged_step hs
    have hr := Run.next ih (hok _ _ _ h) hstep
    unfold eventsOf at hr ⊢
    rwa [List.flatMap_append, List.flatMap_singleton]

theorem Run.forget_any {okLog : List (Entry σ ℓ ω) → σ → ℓ → Prop} {s : σ}
    {log : List (Entry σ ℓ ω)} (r : Run (logged M) okLog s log) :
    Run M anyStep s (eventsOf log) :=
  r.forget fun _ _ _ _ => trivial

/-- Every run has a log. -/
theorem Run.log {ok : List ω → σ → ℓ → Prop} {s : σ} {tr : List ω} (r : Run M ok s tr) :
    ∃ log, Run (logged M) (fun log s l => ok (eventsOf log) s l) s log ∧ eventsOf log = tr := by
  induction r with
  | start h => exact ⟨[], .start h, rfl⟩
  | @next s t tr out l r hok hs ih =>
    obtain ⟨log, hr, rfl⟩ := ih
    refine ⟨log ++ [⟨s, l, out⟩], .next hr hok ?_, ?_⟩
    · exact Option.map_eq_some_iff.mpr ⟨(t, out), hs, rfl⟩
    · unfold eventsOf
      rw [List.flatMap_append, List.flatMap_singleton]

end wspace_client.machine

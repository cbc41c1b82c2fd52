-- Searches in texts, as lists of characters: the first place of a pattern and what
-- is behind it, the first separator, and what becomes of them when a text is cut at
-- a character that the pattern does not have.
import Mathlib.Data.List.TakeWhile

namespace wspace_client.texts

variable {α : Type*} [DecidableEq α]

/-! ## Searches -/

/-- The first position at which the pattern starts. -/
def find (pat : List α) : List α → Option Nat
  | [] => if pat = [] then some 0 else none
  | c :: s => if pat <+: c :: s then some 0 else (find pat s).map (· + 1)

/-- The first position from `start` on with a character of `seps`. -/
def findFirstOf (seps s : List α) (start : Nat) : Option Nat :=
  ((s.drop start).findIdx? fun c => decide (c ∈ seps)).map (start + ·)

/-- The text behind the first occurrence of the pattern. -/
def after (pat s : List α) : Option (List α) :=
  (find pat s).map fun pos => s.drop (pos + pat.length)

/-- The text up to the first `c`. -/
def before (c : α) (s : List α) : List α := s.takeWhile fun x => decide (x ≠ c)

theorem after_nil {pat : List α} (hp : pat ≠ []) : after pat [] = none := by
  unfold after find
  rw [if_neg hp]
  rfl

theorem after_cons (pat s : List α) (c : α) :
    after pat (c :: s) = if pat <+: c :: s then some ((c :: s).drop pat.length)
      else after pat s := by
  unfold after
  rw [find]
  split
  · rw [Option.map_some, Nat.zero_add]
  · rw [Option.map_map]
    congr 1
    funext pos
    rw [Function.comp_apply, Nat.add_right_comm, List.drop_succ_cons]

/-- A pattern at the start of a text is found there. -/
theorem after_append {pat : List α} (hp : pat ≠ []) (s : List α) :
    after pat (pat ++ s) = some s := by
  obtain ⟨c, pat, rfl⟩ := List.exists_cons_of_ne_nil hp
  rw [List.cons_append, after_cons, ← List.cons_append, if_pos (List.prefix_append _ _),
    List.drop_left]

/-- What is behind a pattern is a part of the text. -/
theorem mem_of_after {pat s x : List α} {c : α} (h : after pat s = some x) (hc : c ∈ x) :
    c ∈ s := by
  obtain ⟨pos, -, rfl⟩ := Option.map_eq_some_iff.mp h
  exact List.mem_of_mem_drop hc

/-- There is no separator from the position on. -/
theorem findFirstOf_none {seps s : List α} {start : Nat} (h : findFirstOf seps s start = none) :
    ∀ x ∈ s.drop start, x ∉ seps := by
  unfold findFirstOf at h
  rw [Option.map_eq_none_iff, List.findIdx?_eq_none_iff] at h
  intro x hx
  exact of_decide_eq_false (h x hx)

/-- The position of the first separator cuts the rest of the text. -/
theorem findFirstOf_some {seps s : List α} {start pos : Nat}
    (h : findFirstOf seps s start = some pos) : start ≤ pos ∧ pos < s.length ∧ ∃ c ∈ seps,
      s.drop start = (s.drop start).take (pos - start) ++ c :: s.drop (pos + 1) ∧
        ∀ x ∈ (s.drop start).take (pos - start), x ∉ seps := by
  obtain ⟨i, hi, rfl⟩ := Option.map_eq_some_iff.mp h
  obtain ⟨hlt, hsep, hno⟩ := List.findIdx?_eq_some_iff_getElem.mp hi
  have hlen : i < s.length - start := by rwa [List.length_drop] at hlt
  rw [Nat.add_sub_cancel_left]
  refine ⟨Nat.le_add_right _ _, by omega, (s.drop start)[i], of_decide_eq_true hsep, ?_, ?_⟩
  · rw [Nat.add_assoc, ← List.drop_drop, ← List.drop_eq_getElem_cons hlt, List.take_append_drop]
  · intro x hx
    obtain ⟨j, hj, rfl⟩ := List.mem_take_iff_getElem.mp hx
    exact of_decide_eq_false (Bool.eq_false_iff.mpr (hno j (by omega)))

/-! ## Cuts -/

omit [DecidableEq α] in
/-- A pattern without `c` does not reach over a `c`. -/
theorem prefix_append_cons {pat p t : List α} {c : α} (hc : c ∉ pat) :
    pat <+: p ++ c :: t ↔ pat <+: p := by
  refine ⟨fun h => ?_, fun h => h.trans (List.prefix_append _ _)⟩
  rcases List.prefix_or_prefix_of_prefix h (List.prefix_append p (c :: t)) with hp | ⟨q, rfl⟩
  · exact hp
  · rw [List.prefix_append_right_inj] at h
    cases q with
    | nil => simp
    | cons x q =>
      obtain ⟨rfl, -⟩ := List.cons_prefix_cons.mp h
      exact absurd (List.mem_append_right _ List.mem_cons_self) hc

/-- A search over a cut looks before it, and then behind it. -/
theorem after_append_cons {pat : List α} {c : α} (hc : c ∉ pat) (hp : pat ≠ []) (p t : List α) :
    after pat (p ++ c :: t) = ((after pat p).map (· ++ c :: t)).or (after pat t) := by
  induction p with
  | nil =>
    have hno : ¬pat <+: c :: t := by
      rw [← List.nil_append (c :: t), prefix_append_cons hc, List.prefix_nil]
      exact hp
    rw [after_nil hp, List.nil_append, after_cons, if_neg hno]
    rfl
  | cons a p ih =>
    have hiff : pat <+: a :: (p ++ c :: t) ↔ pat <+: a :: p := prefix_append_cons (p := a :: p) hc
    rw [List.cons_append, after_cons, after_cons]
    by_cases hpre : pat <+: a :: p
    · rw [if_pos (hiff.mpr hpre), if_pos hpre, ← List.cons_append,
        List.drop_append_of_le_length hpre.length_le]
      rfl
    · rw [if_neg (fun h => hpre (hiff.mp h)), if_neg hpre]
      exact ih

omit [DecidableEq α] in
/-- Nothing is taken past a character that is not wanted. -/
theorem takeWhile_append_cons {f : α → Bool} {c : α} (hc : f c = false) (p t : List α) :
    (p ++ c :: t).takeWhile f = p.takeWhile f := by
  induction p with
  | nil => simp [hc]
  | cons a p ih => rw [List.cons_append, List.takeWhile_cons, List.takeWhile_cons, ih]

theorem before_append_cons (c : α) (p t : List α) : before c (p ++ c :: t) = before c p :=
  takeWhile_append_cons (by simp) p t

theorem before_of_not_mem {c : α} {s : List α} (h : c ∉ s) : before c s = s := by
  unfold before
  rw [List.takeWhile_eq_self_iff]
  intro x hx
  rw [decide_eq_true_eq]
  rintro rfl
  exact h hx

/-! ## Splits -/

omit [DecidableEq α] in
theorem findSome?_cons_or {β : Type*} (f : α → Option β) (a : α) (l : List α) :
    (a :: l).findSome? f = (f a).or (l.findSome? f) := by
  rw [List.findSome?_cons]
  cases f a <;> rfl

theorem splitOn_append_cons (c : α) (p t : List α) :
    (p ++ c :: t).splitOn c = p.splitOn c ++ t.splitOn c := by
  rw [List.splitOn_eq_splitOnP, List.splitOn_eq_splitOnP, List.splitOn_eq_splitOnP]
  exact List.splitOnP_append_cons p t (beq_self_eq_true c)

theorem splitOn_of_not_mem {c : α} {s : List α} (h : c ∉ s) : s.splitOn c = [s] := by
  rw [List.splitOn_eq_splitOnP]
  apply List.splitOnP_eq_singleton
  intro x hx
  rw [beq_eq_false_iff_ne]
  rintro rfl
  exact h hx

/-- The first part of a split is what is before the first cut. -/
theorem head_splitOn (c : α) (s : List α) : (s.splitOn c).head? = some (before c s) := by
  by_cases h : c ∈ s
  · obtain ⟨p, t, rfl, hp⟩ := List.eq_append_cons_of_mem h
    rw [splitOn_append_cons, splitOn_of_not_mem hp, before_append_cons, before_of_not_mem hp]
    rfl
  · rw [splitOn_of_not_mem h, before_of_not_mem h]
    rfl

/-- The first part that has the pattern has it where the whole text has it first. -/
theorem after_splitOn {pat : List α} {c : α} (hc : c ∉ pat) (hp : pat ≠ []) (s : List α) :
    (s.splitOn c).findSome? (after pat) = (after pat s).map (before c) := by
  -- The induction is on the length, from one cut to the next.
  induction hn : s.length using Nat.strongRecOn generalizing s with
  | _ n ih =>
    by_cases h : c ∈ s
    · obtain ⟨p, t, rfl, -⟩ := List.eq_append_cons_of_mem h
      rw [List.length_append, List.length_cons] at hn
      rw [splitOn_append_cons, List.findSome?_append, ih p.length (by omega) p rfl,
        ih t.length (by omega) t rfl, after_append_cons hc hp]
      cases after pat p with
      | none => rfl
      | some x => exact congrArg some (before_append_cons c x t).symm
    · rw [splitOn_of_not_mem h, List.findSome?_singleton]
      cases hx : after pat s with
      | none => rfl
      | some x => exact congrArg some (before_of_not_mem fun hm => h (mem_of_after hx hm)).symm

end wspace_client.texts

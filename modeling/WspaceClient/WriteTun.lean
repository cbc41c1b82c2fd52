-- `RxWriteTun`: what the consumers of all radios write to the TUN device. One
-- filter numbers the packets of all radios, and each write comes after the
-- lock of the filter, so a thread can be late with it.
import Mathlib.Data.List.Nodup
import WspaceClient.CodeHeader
import WspaceClient.Machine

namespace wspace_client.write_tun

open machine bytes
open code_header (ofWord)

/-! ## One packet -/

def CONTROLLER_TO_CLIENT : Nat := 9

/-- The layout of `ControllerToClientHeader`. -/
def TYPE : Nat := 0

def CLIENT_ID : Nat := 4

def O_SEQ : Nat := 8

/-- `sizeof(ControllerToClientHeader)`. -/
def HEADER_SIZE : Nat := 12

/-- The buffer of the thread: zeros, and the packet of `DequeuePkt` in front. -/
def pktBuf (pkt : List Byte) : Mem := fun i => pkt.getD i 0

def clientId (pkt : List Byte) : Int := ofWord (read (pktBuf pkt) CLIENT_ID 4)

def oSeq (pkt : List Byte) : Nat := read (pktBuf pkt) O_SEQ 4

/-- A packet of the controller for this client. -/
def isForClient (client_id : Int) (pkt : List Byte) : Bool :=
  read (pktBuf pkt) TYPE 1 = CONTROLLER_TO_CLIENT && clientId pkt = client_id

/-- What a `uint16` keeps of a result. -/
def uint16 (x : Int) : Nat := (x % 2 ^ 16).toNat

/-- The length that `Tun::Write` gets, which is a `uint16`. -/
def writeLen (len : Nat) : Nat := uint16 ((len : Int) - HEADER_SIZE)

/-- What `Tun::Write` gets: the packet without its header. -/
def writeBytes (pkt : List Byte) : List Byte :=
  (List.range (writeLen pkt.length)).map fun i => pktBuf pkt (HEADER_SIZE + i)

/-- `need_update`: whether a number is new, and `max_seq_` after the call. -/
def needUpdate (max_seq cmp_seq : Nat) : Bool × Nat :=
  if cmp_seq > max_seq then (true, cmp_seq) else (false, max_seq)

/-! ## The threads -/

/-- Where the thread of a radio is in `RxWriteTun`. -/
inductive WriterPc
  /-- In `DequeuePkt`. -/
  | idle
  /-- Before `need_update`. -/
  | filter (pkt : List Byte)
  /-- Before `Tun::Write`: `need_update` returned true. -/
  | write (pkt : List Byte)

/-- The threads of all radios, with the filter that they share. -/
structure Writers (ι : Type) where
  max_seq : Nat
  pc : ι → WriterPc
  aborted : Bool

/-- A step of the thread of one radio. `nwrite` is what the device returns. -/
inductive Label (ι : Type)
  | dequeuePkt (radio : ι) (pkt : List Byte)
  | needUpdate (radio : ι)
  | write (radio : ι) (nwrite : Int)

inductive Event (ι : Type)
  /-- `need_update` returned true. -/
  | accepted (radio : ι) (o_seq : Nat)
  /-- `Tun::Write` returned. -/
  | written (radio : ι) (o_seq : Nat) (bytes : List Byte)
  deriving DecidableEq

section writers

variable {ι : Type}

def Writers.Fresh (s : Writers ι) : Prop :=
  s.max_seq = 0 ∧ (∀ r, s.pc r = .idle) ∧ s.aborted = false

def setPc [DecidableEq ι] (s : Writers ι) (r : ι) (pc : WriterPc) : Writers ι :=
  { s with pc := Function.update s.pc r pc }

/-- `Tun::Write`, with its assertions. The device takes a packet as a whole. -/
def tunWrite [DecidableEq ι] (s : Writers ι) (r : ι) (pkt : List Byte) (nwrite : Int) :
    Writers ι × List (Event ι) :=
  if writeLen pkt.length > 0 ∧ uint16 nwrite = writeLen pkt.length then
    (setPc s r .idle, [.written r (oSeq pkt) (writeBytes pkt)])
  else ({ s with aborted := true }, [])

def step [DecidableEq ι] (client_id : Int) (s : Writers ι) (l : Label ι) :
    Option (Writers ι × List (Event ι)) :=
  if s.aborted then none
  else match l with
  | .dequeuePkt r pkt =>
    match s.pc r with
    | .idle => some (if isForClient client_id pkt then setPc s r (.filter pkt) else s, [])
    | _ => none
  | .needUpdate r =>
    match s.pc r with
    | .filter pkt =>
      let (update, max_seq) := needUpdate s.max_seq (oSeq pkt)
      if update then some (setPc { s with max_seq } r (.write pkt), [.accepted r (oSeq pkt)])
      else some (setPc s r .idle, [])
    | _ => none
  | .write r nwrite =>
    match s.pc r with
    | .write pkt => some (tunWrite s r pkt nwrite)
    | _ => none

def writers [DecidableEq ι] (client_id : Int) : Machine (Writers ι) (Label ι) (Event ι) where
  init := Writers.Fresh
  step := step client_id

/-! ## What a step can do -/

/-- The number that a thread has to write. -/
def WriterPc.pending : WriterPc → Option Nat
  | .write pkt => some (oSeq pkt)
  | _ => none

/-- The radio `r` has to write the number `q`. -/
def Pending (s : Writers ι) (r : ι) (q : Nat) : Prop := (s.pc r).pending = some q

instance (s : Writers ι) (r : ι) (q : Nat) : Decidable (Pending s r q) :=
  inferInstanceAs (Decidable (_ = _))

theorem pending_setPc [DecidableEq ι] {s : Writers ι} {r r' : ι} {pc : WriterPc} {q : Nat} :
    Pending (setPc s r pc) r' q ↔ (r' = r ∧ pc.pending = some q) ∨ (r' ≠ r ∧ Pending s r' q) := by
  unfold Pending setPc
  by_cases hr : r' = r
  · subst hr
    simp
  · simp [hr]

/-- The ways a step can go, by what it does to the filter and to the numbers
that are still to be written. -/
inductive Move (s : Writers ι) : Label ι → Writers ι → List (Event ι) → Prop
  /-- Nobody gets or loses a number to write. -/
  | quiet {l : Label ι} {t : Writers ι} (hmax : t.max_seq = s.max_seq)
      (hp : ∀ r q, Pending t r q ↔ Pending s r q) : Move s l t []
  | accept {t : Writers ι} {r : ι} {q : Nat} (hnew : s.max_seq < q) (hmax : t.max_seq = q)
      (hp : ∀ r' q', Pending t r' q' ↔ (r' = r ∧ q' = q) ∨ (r' ≠ r ∧ Pending s r' q')) :
      Move s (.needUpdate r) t [.accepted r q]
  | write {t : Writers ι} {r : ι} {nwrite : Int} {q : Nat} {bs : List Byte}
      (hold : Pending s r q) (hmax : t.max_seq = s.max_seq)
      (hp : ∀ r' q', Pending t r' q' ↔ r' ≠ r ∧ Pending s r' q') :
      Move s (.write r nwrite) t [.written r q bs]

theorem pending_quiet [DecidableEq ι] {s : Writers ι} {r : ι} {pc : WriterPc}
    (h : (s.pc r).pending = none)
    (hpc : pc.pending = none) (r' : ι) (q : Nat) :
    Pending (setPc s r pc) r' q ↔ Pending s r' q := by
  rw [pending_setPc, hpc]
  constructor
  · rintro (⟨-, h⟩ | ⟨-, h⟩)
    · cases h
    · exact h
  · intro hq
    refine .inr ⟨?_, hq⟩
    rintro rfl
    unfold Pending at hq
    rw [h] at hq
    cases hq

theorem step_move [DecidableEq ι] {client_id : Int} {s t : Writers ι} {l : Label ι}
    {out : List (Event ι)}
    (hs : step client_id s l = some (t, out)) : Move s l t out := by
  unfold step at hs
  split at hs
  · cases hs
  · cases l with
    | dequeuePkt r pkt =>
      cases hpc : s.pc r with
      | idle =>
        simp only [hpc, Option.some.injEq, Prod.mk.injEq] at hs
        obtain ⟨rfl, rfl⟩ := hs
        split
        · exact .quiet rfl (pending_quiet (by rw [hpc]; rfl) rfl)
        · exact .quiet rfl fun _ _ => Iff.rfl
      | filter _ => simp [hpc] at hs
      | write _ => simp [hpc] at hs
    | needUpdate r =>
      cases hpc : s.pc r with
      | filter pkt =>
        simp only [hpc] at hs
        unfold needUpdate at hs
        by_cases hnew : oSeq pkt > s.max_seq
        · simp only [if_pos hnew, if_true, Option.some.injEq, Prod.mk.injEq] at hs
          obtain ⟨rfl, rfl⟩ := hs
          refine .accept hnew rfl fun r' q' => ?_
          rw [pending_setPc]
          unfold WriterPc.pending
          rw [Option.some.injEq, eq_comm (a := q')]
          rfl
        · simp only [if_neg hnew, Bool.false_eq_true, if_false, Option.some.injEq,
            Prod.mk.injEq] at hs
          obtain ⟨rfl, rfl⟩ := hs
          exact .quiet rfl (pending_quiet (by rw [hpc]; rfl) rfl)
      | idle => simp [hpc] at hs
      | write _ => simp [hpc] at hs
    | write r nwrite =>
      cases hpc : s.pc r with
      | write pkt =>
        simp only [hpc, Option.some.injEq] at hs
        unfold tunWrite at hs
        split at hs
        · obtain ⟨rfl, rfl⟩ := Prod.mk.inj hs
          refine .write (by unfold Pending; rw [hpc]; rfl) rfl fun r' q' => ?_
          rw [pending_setPc]
          unfold WriterPc.pending
          simp
        · obtain ⟨rfl, rfl⟩ := Prod.mk.inj hs
          exact .quiet rfl fun _ _ => Iff.rfl
      | idle => simp [hpc] at hs
      | filter _ => simp [hpc] at hs

/-! ## At most once -/

/-- The numbers that `need_update` let through, oldest first. -/
def accepted (tr : List (Event ι)) : List Nat :=
  tr.filterMap fun
    | .accepted _ q => some q
    | .written _ _ _ => none

/-- The numbers that were written, oldest first. -/
def writes (tr : List (Event ι)) : List Nat :=
  tr.filterMap fun
    | .accepted _ _ => none
    | .written _ q _ => some q

@[simp] theorem accepted_append (tr out : List (Event ι)) :
    accepted (tr ++ out) = accepted tr ++ accepted out := List.filterMap_append

@[simp] theorem writes_append (tr out : List (Event ι)) :
    writes (tr ++ out) = writes tr ++ writes out := List.filterMap_append

@[simp] theorem accepted_accepted (r : ι) (q : Nat) : accepted [.accepted r q] = [q] := rfl

@[simp] theorem accepted_written (r : ι) (q : Nat) (bs : List Byte) :
    accepted [.written r q bs] = [] := rfl

@[simp] theorem writes_accepted (r : ι) (q : Nat) : writes [.accepted r q] = [] := rfl

@[simp] theorem writes_written (r : ι) (q : Nat) (bs : List Byte) :
    writes [.written r q bs] = [q] := rfl

/-- What the filter gives: numbers that grow, each one with one thread to
write it, which has not done so. -/
structure Filtered (s : Writers ι) (tr : List (Event ι)) : Prop where
  sorted : (accepted tr).Pairwise (· < ·)
  le_max : ∀ q ∈ accepted tr, q ≤ s.max_seq
  pending : ∀ r q, Pending s r q → q ∈ accepted tr
  alone : ∀ r r' q, Pending s r q → Pending s r' q → r = r'
  waits : ∀ r q, Pending s r q → q ∉ writes tr
  written : ∀ q ∈ writes tr, q ∈ accepted tr
  once : (writes tr).Nodup

theorem fresh_filtered {s : Writers ι} (h : s.Fresh) : Filtered s [] := by
  have hidle : ∀ r q, ¬Pending s r q := by
    intro r q hp
    unfold Pending at hp
    rw [h.2.1 r] at hp
    cases hp
  exact ⟨.nil, nofun, fun r q hp => absurd hp (hidle r q), fun r _ q hp => absurd hp (hidle r q),
    fun _ _ _ => List.not_mem_nil, nofun, .nil⟩

theorem move_filtered {s t : Writers ι} {l : Label ι} {tr out : List (Event ι)}
    (hf : Filtered s tr) (hm : Move s l t out) : Filtered t (tr ++ out) := by
  cases hm with
  | quiet hmax hp =>
    rw [List.append_nil]
    exact ⟨hf.sorted, by rw [hmax]; exact hf.le_max, fun r q h => hf.pending r q ((hp r q).mp h),
      fun r r' q h h' => hf.alone r r' q ((hp r q).mp h) ((hp r' q).mp h'),
      fun r q h => hf.waits r q ((hp r q).mp h), hf.written, hf.once⟩
  | @accept _ r q hnew hmax hp =>
    have hlt : ∀ x ∈ accepted tr, x < q := fun x hx => Nat.lt_of_le_of_lt (hf.le_max x hx) hnew
    refine ⟨?_, ?_, ?_, ?_, ?_, ?_, ?_⟩
    · rw [accepted_append, accepted_accepted, List.pairwise_append]
      refine ⟨hf.sorted, List.pairwise_singleton _ _, fun x hx y hy => ?_⟩
      rw [List.mem_singleton.mp hy]
      exact hlt x hx
    · intro x hx
      rw [accepted_append, List.mem_append] at hx
      rw [hmax]
      rcases hx with hx | hx
      · exact Nat.le_of_lt (hlt x hx)
      · exact Nat.le_of_eq (List.mem_singleton.mp hx)
    · intro r' q' h
      rw [accepted_append, List.mem_append]
      rcases (hp r' q').mp h with ⟨-, rfl⟩ | ⟨-, h⟩
      · exact .inr (List.mem_singleton_self _)
      · exact .inl (hf.pending r' q' h)
    · intro r1 r2 q' h1 h2
      rcases (hp r1 q').mp h1 with ⟨rfl, rfl⟩ | ⟨-, h1⟩ <;>
        rcases (hp r2 q').mp h2 with ⟨rfl, he⟩ | ⟨-, h2⟩
      · rfl
      · exact absurd (hlt _ (hf.pending r2 _ h2)) (Nat.lt_irrefl _)
      · exact absurd (hlt _ (hf.pending r1 _ h1)) (he ▸ Nat.lt_irrefl _)
      · exact hf.alone r1 r2 q' h1 h2
    · intro r' q' h hw
      rw [writes_append, writes_accepted, List.append_nil] at hw
      rcases (hp r' q').mp h with ⟨-, rfl⟩ | ⟨-, h⟩
      · exact absurd (hlt _ (hf.written _ hw)) (Nat.lt_irrefl _)
      · exact hf.waits r' q' h hw
    · intro x hx
      rw [writes_append, writes_accepted, List.append_nil] at hx
      rw [accepted_append]
      exact List.mem_append_left _ (hf.written x hx)
    · rw [writes_append, writes_accepted, List.append_nil]
      exact hf.once
  | @write t r nwrite q bs hold hmax hp =>
    have hacc : accepted (tr ++ [.written r q bs]) = accepted tr := by
      rw [accepted_append, accepted_written, List.append_nil]
    have hw : writes (tr ++ [.written r q bs]) = writes tr ++ [q] := by
      rw [writes_append, writes_written]
    refine ⟨?_, ?_, ?_, ?_, ?_, ?_, ?_⟩
    · rw [hacc]
      exact hf.sorted
    · rw [hacc, hmax]
      exact hf.le_max
    · rw [hacc]
      exact fun r' q' h => hf.pending r' q' ((hp r' q').mp h).2
    · exact fun r1 r2 q' h1 h2 => hf.alone r1 r2 q' ((hp r1 q').mp h1).2 ((hp r2 q').mp h2).2
    · intro r' q' h hmem
      obtain ⟨hne, h⟩ := (hp r' q').mp h
      rw [hw, List.mem_append, List.mem_singleton] at hmem
      rcases hmem with hmem | rfl
      · exact hf.waits r' q' h hmem
      · exact hne (hf.alone r' r _ h hold)
    · intro x hx
      rw [hw, List.mem_append, List.mem_singleton] at hx
      rw [hacc]
      rcases hx with hx | rfl
      · exact hf.written x hx
      · exact hf.pending r x hold
    · rw [hw, List.nodup_append]
      refine ⟨hf.once, List.nodup_singleton q, fun x hx y hy => ?_⟩
      rw [List.mem_singleton.mp hy]
      rintro rfl
      exact hf.waits r x hold hx

theorem run_filtered [DecidableEq ι] {client_id : Int}
    {ok : List (Event ι) → Writers ι → Label ι → Prop}
    {s : Writers ι} {tr : List (Event ι)} (r : Run (writers client_id) ok s tr) : Filtered s tr :=
  r.invariant Filtered (fun _ => fresh_filtered) fun _ _ _ _ _ _ hf _ hs =>
    move_filtered hf (step_move hs)

/-- No schedule writes a packet twice. -/
theorem a_packet_is_written_once [DecidableEq ι] {client_id : Int} {s : Writers ι}
    {tr : List (Event ι)}
    (r : Run (writers client_id) anyStep s tr) : (writes tr).Nodup :=
  (run_filtered r).once

/-! ## In order -/

/-- No thread writes while another one still has to write a smaller number. -/
def NoOvertaking (_ : List (Event ι)) (s : Writers ι) : Label ι → Prop
  | .write r _ => ∀ q, Pending s r q → ∀ r' q', Pending s r' q' → q ≤ q'
  | _ => True

instance {n : Nat} (tr : List (Event (Fin n))) (s : Writers (Fin n)) :
    (l : Label (Fin n)) → Decidable (NoOvertaking tr s l)
  | .write r _ => inferInstanceAs
    (Decidable (∀ q ∈ (s.pc r).pending, ∀ r', ∀ q' ∈ (s.pc r').pending, q ≤ q'))
  | .dequeuePkt _ _ => isTrue trivial
  | .needUpdate _ => isTrue trivial

/-- The numbers that are written grow, and the others are still to come. -/
structure Increasing (s : Writers ι) (tr : List (Event ι)) : Prop where
  sorted : (writes tr).Pairwise (· < ·)
  ahead : ∀ r q, Pending s r q → ∀ w ∈ writes tr, w < q

theorem move_increasing {s t : Writers ι} {l : Label ι} {tr out : List (Event ι)}
    (hf : Filtered s tr) (hi : Increasing s tr) (hok : NoOvertaking tr s l)
    (hm : Move s l t out) : Increasing t (tr ++ out) := by
  cases hm with
  | quiet hmax hp =>
    rw [List.append_nil]
    exact ⟨hi.sorted, fun r q h => hi.ahead r q ((hp r q).mp h)⟩
  | @accept _ r q hnew hmax hp =>
    refine ⟨?_, fun r' q' h w hw => ?_⟩
    · rw [writes_append, writes_accepted, List.append_nil]
      exact hi.sorted
    · rw [writes_append, writes_accepted, List.append_nil] at hw
      rcases (hp r' q').mp h with ⟨-, rfl⟩ | ⟨-, h⟩
      · exact Nat.lt_of_le_of_lt (hf.le_max w (hf.written w hw)) hnew
      · exact hi.ahead r' q' h w hw
  | @write t r nwrite q bs hold hmax hp =>
    refine ⟨?_, fun r' q' h w hw => ?_⟩
    · rw [writes_append, writes_written, List.pairwise_append]
      refine ⟨hi.sorted, List.pairwise_singleton _ _, fun x hx y hy => ?_⟩
      rw [List.mem_singleton.mp hy]
      exact hi.ahead r q hold x hx
    · obtain ⟨hne, h⟩ := (hp r' q').mp h
      rw [writes_append, writes_written, List.mem_append, List.mem_singleton] at hw
      rcases hw with hw | rfl
      · exact hi.ahead r' q' h w hw
      · -- The other number is not smaller, and it is another one.
        apply Nat.lt_of_le_of_ne (hok w hold r' q' h)
        rintro rfl
        exact hne (hf.alone r' r w h hold)

/-- When no thread overtakes another one, the numbers that are written grow. -/
theorem writes_are_increasing [DecidableEq ι] {client_id : Int} {s : Writers ι}
    {tr : List (Event ι)}
    (r : Run (writers client_id) NoOvertaking s tr) : (writes tr).Pairwise (· < ·) := by
  have hi : Increasing s tr := by
    refine r.invariant Increasing (fun s h => ⟨.nil, fun _ _ _ _ => nofun⟩) ?_
    intro s tr l t out r hi hok hs
    exact move_increasing (run_filtered r) hi hok (step_move hs)
  exact hi.sorted

/-- A thread that writes has one number less to write. -/
theorem write_pending [DecidableEq ι] {client_id : Int} {s t : Writers ι} {r : ι} {n : Int}
    {q : Nat} {e : Event ι} (hs : step client_id s (.write r n) = some (t, [e]))
    (hq : Pending s r q) :
    writes [e] = [q] ∧ ∀ r' q', Pending t r' q' ↔ r' ≠ r ∧ Pending s r' q' := by
  cases step_move hs with
  | write hold hmax hp =>
    unfold Pending at hold hq
    rw [hold, Option.some.injEq] at hq
    exact ⟨by rw [writes_written, hq], hp⟩

/-- A write that overtakes another thread breaks the order once that thread writes. -/
theorem overtaking_breaks_the_order [DecidableEq ι] {client_id : Int} {s t u : Writers ι}
    {r r' : ι} {n n' : Int} {q q' : Nat} {e e' : Event ι} (tr : List (Event ι))
    (hs : step client_id s (.write r n) = some (t, [e]))
    (hs' : step client_id t (.write r' n') = some (u, [e']))
    (hq : Pending s r q) (hq' : Pending s r' q') (hlt : q' < q) :
    ¬(writes (tr ++ [e] ++ [e'])).Pairwise (· < ·) := by
  obtain ⟨hw, hp⟩ := write_pending hs hq
  have hne : r' ≠ r := by
    rintro rfl
    unfold Pending at hq hq'
    rw [hq, Option.some.injEq] at hq'
    exact Nat.ne_of_gt hlt hq'
  obtain ⟨hw', -⟩ := write_pending hs' ((hp r' q').mpr ⟨hne, hq'⟩)
  rw [writes_append, writes_append, hw, hw', List.pairwise_append]
  intro hsorted
  have hgt := hsorted.2.2 q (List.mem_append_right _ (List.mem_singleton_self q)) q'
    (List.mem_singleton_self q')
  exact Nat.lt_asymm hlt hgt

end writers

/-! ## Two radios -/

def twoIdle : Writers (Fin 2) := ⟨0, fun _ => .idle, false⟩

theorem twoIdle_fresh : twoIdle.Fresh := ⟨rfl, fun _ => rfl, rfl⟩

/-- A packet for client 1: the header with its padding, and one byte. -/
def numbered (o_seq : Byte) : List Byte := [9, 0, 0, 0, 1, 0, 0, 0, o_seq, 0, 0, 0, 69]

/-- One radio has packet 5 and the other has packet 6, and both pass the filter. -/
def twoAccepted (r r' : Fin 2) : List (Label (Fin 2)) :=
  [.dequeuePkt r (numbered 5), .dequeuePkt r' (numbered 6), .needUpdate r, .needUpdate r']

theorem two_radios_write_in_order : ∃ s tr, Run (writers 1) NoOvertaking s tr ∧
    writes (ι := Fin 2) tr = [5, 6] ∧ (writes tr).Pairwise (· < ·) := by
  obtain ⟨s, tr, r, hw⟩ := run_of_check (writers 1) NoOvertaking
    (twoAccepted 0 1 ++ [.write 0 1, .write 1 1]) (fun x => decide (writes x.2 = [5, 6]))
    twoIdle_fresh (by decide +kernel) (by decide +kernel)
  exact ⟨s, tr, r, of_decide_eq_true hw, writes_are_increasing r⟩

/-- Radio 1 writes first. -/
theorem a_late_write_breaks_the_order :
    ¬∀ (client_id : Int) (s : Writers (Fin 2)) (tr : List (Event (Fin 2))),
      Run (writers client_id) anyStep s tr → (writes tr).Pairwise (· < ·) := by
  intro hall
  obtain ⟨s, tr, r, hw⟩ := run_of_check (writers 1) anyStep
    (twoAccepted 0 1 ++ [.write 1 1, .write 0 1]) (fun x => decide (writes x.2 = [6, 5]))
    twoIdle_fresh (execOk_any _ _ _) (by decide +kernel)
  have hsorted := hall 1 s tr r
  rw [of_decide_eq_true hw] at hsorted
  revert hsorted
  decide

end wspace_client.write_tun

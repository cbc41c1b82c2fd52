-- From the senders to the TUN device: whatever is lost, repeated, out of order or
-- sent over both links, and however the threads of the process run, what leaves
-- the client is what a base station sent, no packet leaves it twice, and each list
-- of lost packets goes to the controller in one datagram that tells it.
import WspaceClient.Integrity
import WspaceClient.Process
import WspaceClient.Transfer

namespace wspace_client.process

open machine bytes code_header rcv_ath feed sender
open threads (Radio Carries Came withPrev)
open write_tun (Writers Filtered HEADER_SIZE isForClient oSeq writeBytes)
open ack_thread (Acknowledges Asks Tells answer)
open data_ack (Sendable)

/-! ## The packets of a sender -/

section radio

variable {pkt : Nat → List Byte} {acfg : rcv_ath.Config} {S : Sender pkt acfg}

/-- A number that a batch of the sender covers. -/
def Covers (S : Sender pkt acfg) (q : Nat) : Prop :=
  ∃ b, S.batches b ∧ b.start_seq ≤ q ∧ q < b.start_seq + b.k

/-- The call has a packet of the sender: its number, its length and its bytes. -/
structure IsSent (S : Sender pkt acfg) (c : rx_data_buf.EnqueueArgs) : Prop where
  covers : Covers S c.seq_num
  bytes : c.bytes = pkt c.seq_num
  fits : c.pkt_len ≤ rx_data_buf.PKT_SIZE

theorem isSent_fits (c : rx_data_buf.EnqueueArgs) (h : IsSent S c) :
    c.pkt_len ≤ rx_data_buf.PKT_SIZE := h.fits

theorem Genuine.isSent {x : NativePkt} (h : Genuine S x) : IsSent S (enqueueArgs x) := by
  have hbytes := h.bytes_eq
  obtain ⟨b, i, hb, hi, hseq, hlen, -⟩ := h
  obtain ⟨-, hfit⟩ := b.lens i hi
  have hfits := b.fits
  have hq : u32 x.seq_num = x.seq_num := u32_of_lt (by omega)
  have hle : x.len ≤ rx_data_buf.PKT_SIZE := by
    rw [hlen]
    exact hfit
  have hmod : x.len % 2 ^ 16 = x.len := by
    unfold rx_data_buf.PKT_SIZE at hle
    exact Nat.mod_eq_of_lt (by omega)
  have hlong : (enqueueArgs x).pkt_len = x.len := hmod
  have hnum : (enqueueArgs x).seq_num = x.seq_num := hq
  refine ⟨?_, ?_, ?_⟩
  · rw [hnum]
    exact ⟨b, hb, by omega, by omega⟩
  · unfold rx_data_buf.EnqueueArgs.bytes
    rw [hlong, hnum]
    exact hbytes
  · rw [hlong]
    exact hle

theorem came_isSent {q : Nat} {bs : List Byte} (h : Came (IsSent S) (q, bs)) :
    Covers S q ∧ bs = pkt q := by
  obtain ⟨c, hc, he⟩ := h
  cases he
  exact ⟨hc.covers, hc.bytes⟩

/-! ## A radio and its `RxRcvAth` -/

/-- The calls that were made and the calls that are still to come are those of
packets of the sender. -/
structure Sound (S : Sender pkt acfg) (f : Feed) : Prop where
  carries : Carries (IsSent S) f.radio
  todo : ∀ e ∈ f.todo, GenuineCall S e
  ends : f.ends = false
  ready : ∃ tr, Ready S f.rcv tr

/-- What a thread of the radio gets from outside. -/
def FromSender (S : Sender pkt acfg) : FeedLabel → Prop
  | .recv m nread => Incoming S m nread
  | .other (.call .rcvCell c) => IsSent S c
  | _ => True

theorem fresh_sound (S : Sender pkt acfg) {f : Feed} (h : f.Fresh) : Sound S f := by
  obtain ⟨hradio, hrcv, htodo, hends⟩ := h
  refine ⟨threads.fresh_carries hradio, ?_, hends, [], sender.Fresh.ready S hrcv⟩
  rw [htodo]
  nofun

theorem Sound.over {f : Feed} (h : Sound S f) : f.over = false := by
  unfold Feed.over
  rw [h.ends, Bool.false_and]

/-- A call of `RxRcvAth` for the radio has a packet of the sender. -/
theorem GenuineCall.isSent {e : rcv_ath.Event} (h : GenuineCall S e) {p : threads.Producer}
    {c : rx_data_buf.EnqueueArgs} (hl : radioLabel e = some (.call p c)) : IsSent S c := by
  cases e with
  | enqueuePkt b x =>
    cases hl
    exact Genuine.isSent h
  | setBatchInfo | updateTimeLeft | setDecodingDone | pushPkts | setBsId | decodeBatch => cases hl

theorem Sound.step {cfg : threads.Config}
    (hacfg : acfg.ATH_CODE_HEADER_SIZE = ATH_CODE_HEADER_SIZE) {f g : Feed} {l : FeedLabel}
    {out : List threads.Event} (h : Sound S f) (hl : FromSender S l)
    (hs : feedStep cfg acfg f l = some (g, out)) :
    Sound S g ∧ ∀ hd q bs, .delivered hd q bs ∈ out → Covers S q ∧ bs = pkt q := by
  cases feed_move hs with
  | @recv m nread htodo =>
    obtain ⟨tr, hready⟩ := h.ready
    obtain ⟨t, out, hrx, hgen, ht, -⟩ := rxRcvAth_genuine hacfg (Incoming.arrives hl) hready
    have hturn : turn acfg f.rcv (athCodePkt m nread) = (t, out, false) := by
      unfold turn
      rw [hrx]
    rw [hturn]
    exact ⟨⟨h.carries, hgen, rfl, _, ht⟩, nofun⟩
  | @call e todo k r _ htodo hk hstep =>
    have hcalls := h.todo
    rw [htodo] at hcalls
    obtain ⟨hr, hdel⟩ := h.carries.step isSent_fits (fun p c hc =>
      GenuineCall.isSent (hcalls e List.mem_cons_self) (hc ▸ hk)) hstep
    exact ⟨⟨hr, fun e' he' => hcalls e' (List.mem_cons_of_mem _ he'), h.ends, h.ready⟩,
      fun hd q bs hmem => came_isSent (hdel hd q bs hmem)⟩
  | @skip e todo htodo hk =>
    have hcalls := h.todo
    rw [htodo] at hcalls
    exact ⟨⟨h.carries, fun e' he' => hcalls e' (List.mem_cons_of_mem _ he'), h.ends, h.ready⟩,
      nofun⟩
  | @other k r _ hk hstep =>
    obtain ⟨hr, hdel⟩ := h.carries.step isSent_fits (fun p c hc => by
      subst hc
      cases p with
      | rcvAth => cases hk
      | rcvCell => exact hl) hstep
    exact ⟨⟨hr, h.todo, h.ends, h.ready⟩, fun hd q bs hmem => came_isSent (hdel hd q bs hmem)⟩

/-- A step of the radio keeps `FindNackSeqNum` in its ranges, and a list that it
returns fits a packet. -/
theorem feedMove_asks {cfg : threads.Config} (hmax : cfg.max_num_nacks = rx_raw_buf.ACK_WINDOW)
    {f g : Feed} {l : FeedLabel} {out : List threads.Event} (hcore : threads.Core f.radio)
    (hsync : Sync f) (h : Asks f.radio) (m : FeedMove cfg acfg f l g out) :
    Asks g.radio ∧ (∀ x ∈ out.filterMap answer, Sendable x.1 x.2) ∧
      (out.filterMap answer = [] ∨ l = .other .ack ∧ ∃ x, out.filterMap answer = [x]) := by
  rcases m.onRadio with ⟨-, hradio, rfl⟩ | ⟨k, hk, hs⟩
  · rw [hradio]
    exact ⟨h, nofun, .inl rfl⟩
  · have hcalls := (m.sync hsync).2 k hk []
    obtain ⟨hg, hfits⟩ := h.step hmax hcore (seqFits_of_rcvCalls hcalls) hs
    refine ⟨hg, hfits, (ack_thread.step_answers hs).imp_right fun ⟨hack, hx⟩ => ⟨?_, hx⟩⟩
    subst hack
    -- No call of `RxRcvAth` is a step of `FindNackSeqNum`.
    cases m with
    | other => exact congrArg FeedLabel.other (Option.some.inj hk)
    | recv => cases hk
    | @call e todo _ _ _ htodo | @skip e todo htodo =>
      unfold radioStep at hk
      rw [htodo] at hk
      cases e <;> cases hk

theorem Sound.withPrev {f : Feed} (h : Sound S f) (y : Nat) :
    Sound S { f with radio := withPrev y f.radio } := by
  obtain ⟨⟨hcore, hfits, hcalls, hcells⟩, htodo, hends, hready⟩ := h
  exact ⟨⟨⟨hcore.order, hcore.window, hcore.tail_lt, hcore.aligned, hcore.clearing, hcore.owner,
    hcore.atHead, hcore.busy, hcore.words⟩, hfits, hcalls, hcells⟩, htodo, hends, hready⟩

theorem Sound.wait {f : Feed} (h : Sound S f) (us : Nat) :
    Sound S { f with radio := f.radio.wait us } := by
  obtain ⟨⟨hcore, hfits, hcalls, hcells⟩, htodo, hends, hready⟩ := h
  exact ⟨⟨⟨hcore.order, hcore.window, hcore.tail_lt, hcore.aligned, hcore.clearing, hcore.owner,
    hcore.atHead, hcore.busy, hcore.words⟩, hfits, hcalls, hcells⟩, htodo, hends, hready⟩

theorem sync_withPrev {f : Feed} (h : Sync f) (y : Nat) :
    Sync { f with radio := withPrev y f.radio } := ⟨h.start_lt, h.highest_lt, h.agrees⟩

theorem sync_wait {f : Feed} (h : Sync f) (us : Nat) :
    Sync { f with radio := f.radio.wait us } := ⟨h.start_lt, h.highest_lt, h.agrees⟩

/-- What `RxRcvCell` enqueues of a packet of the cellular link. -/
theorem Duplicate.rxRcvCell {b : Batch pkt} {i : Nat} {m : Mem} (hb : S.batches b)
    (h : Duplicate b i m) : ∃ x, process.rxRcvCell acfg.client_id (athCodePkt m 0) =
      .enqueuePkt acfg.radio_id x ∧ Genuine S x := by
  obtain ⟨hi, hp, hpay⟩ := h.read 0
  have hfits := b.fits
  have htype : (athCodePkt m 0).type = ATH_CODE := by
    have hparsed := hp.parsed
    unfold parseHeader at hparsed
    rw [Bool.and_eq_true, decide_eq_true_eq] at hparsed
    exact hparsed.1
  have hind : (athCodePkt m 0).ind < (athCodePkt m 0).k := by rwa [hp.ind, hp.k]
  unfold process.rxRcvCell
  rw [if_neg (not_not_intro htype), if_neg (by rw [hp.parsed]; decide),
    if_neg (not_not_intro (by rw [hp.client_id, S.client b hb])), if_pos hind, hp.bs_id,
    S.radio b hb]
  refine ⟨_, rfl, b, i, hb, hi, ?_, ?_, fun t ht => ?_⟩
  · show add32 (athCodePkt m 0).start_seq (athCodePkt m 0).ind = b.start_seq + i
    rw [hp.ind, hp.start_seq]
    exact add32_of_lt (by omega)
  · show (athCodePkt m 0).lens (athCodePkt m 0).ind = _
    rw [hp.ind]
    exact hp.lens i hi
  · have hlen : (athCodePkt m 0).lens (athCodePkt m 0).ind = (b.native i).length := by
      rw [hp.ind]
      exact hp.lens i hi
    exact hpay t (by rw [← hlen]; exact ht)

end radio

/-! ## The writers -/

/-- The packet that a writer has. -/
def held : write_tun.WriterPc → Option (List Byte)
  | .idle => none
  | .filter p | .write p => some p

theorem dequeuePkt_step {client_id r : Int} {w w' : Writers Int} {p : List Byte}
    {out : List (write_tun.Event Int)}
    (h : write_tun.step client_id w (.dequeuePkt r p) = some (w', out)) :
    out = [] ∧ w'.aborted = w.aborted ∧ ∀ r' p', held (w'.pc r') = some p' →
      held (w.pc r') = some p' ∨
        (r' = r ∧ p' = p ∧ write_tun.isForClient client_id p = true) := by
  unfold write_tun.step at h
  split at h
  · cases h
  · dsimp only at h
    split at h
    · cases h
      split
      · rename_i hfor
        refine ⟨rfl, rfl, fun r' p' hp => ?_⟩
        by_cases hr : r' = r
        · subst hr
          unfold write_tun.setPc at hp
          dsimp only at hp
          rw [Function.update_self] at hp
          cases hp
          exact .inr ⟨rfl, rfl, hfor⟩
        · unfold write_tun.setPc at hp
          dsimp only at hp
          rw [Function.update_of_ne hr] at hp
          exact .inl hp
      · exact ⟨rfl, rfl, fun _ _ hp => .inl hp⟩
    · cases h

/-- A writer that goes on has the packet that it had. -/
theorem writer_step {client_id : Int} {w w' : Writers Int} {l : write_tun.Label Int}
    {out : List (write_tun.Event Int)} (hl : ∀ r p, l ≠ .dequeuePkt r p)
    (h : write_tun.step client_id w l = some (w', out)) :
    (∀ r p, held (w'.pc r) = some p → held (w.pc r) = some p) ∧
      ∀ r q bs, .written r q bs ∈ out → ∃ p, held (w.pc r) = some p ∧
        q = write_tun.oSeq p ∧ bs = write_tun.writeBytes p := by
  have hset : ∀ (v : Writers Int) r pc, v.pc = w.pc → (∀ p, held pc = some p →
      held (w.pc r) = some p) → ∀ r' p, held ((write_tun.setPc v r pc).pc r') = some p →
        held (w.pc r') = some p := by
    intro v r pc hv hpc r' p hp
    unfold write_tun.setPc at hp
    dsimp only at hp
    by_cases hr : r' = r
    · subst hr
      rw [Function.update_self] at hp
      exact hpc p hp
    · rw [Function.update_of_ne hr, hv] at hp
      exact hp
  unfold write_tun.step at h
  split at h
  · cases h
  · cases l with
    | dequeuePkt r p => exact absurd rfl (hl r p)
    | needUpdate r =>
      cases hpc : w.pc r with
      | filter pkt =>
        simp only [hpc] at h
        split at h <;> cases h
        · refine ⟨hset _ r _ rfl fun p hp => ?_, fun r' q bs hmem => ?_⟩
          · rw [hpc]
            exact hp
          · rw [List.mem_singleton] at hmem
            cases hmem
        · exact ⟨hset _ r _ rfl nofun, nofun⟩
      | idle => simp [hpc] at h
      | write _ => simp [hpc] at h
    | write r nwrite =>
      cases hpc : w.pc r with
      | write pkt =>
        simp only [hpc, Option.some.injEq] at h
        unfold write_tun.tunWrite at h
        split at h <;> cases h
        · refine ⟨hset _ r _ rfl nofun, fun r' q bs hmem => ?_⟩
          rw [List.mem_singleton] at hmem
          cases hmem
          exact ⟨pkt, by rw [hpc]; rfl, rfl, rfl⟩
        · exact ⟨fun _ _ hp => hp, nofun⟩
      | idle => simp [hpc] at h
      | filter _ => simp [hpc] at h

/-- A property of the filter that no `DequeuePkt` touches, and what a packet for
a writer comes from. -/
theorem handOver_foldlM {client_id r : Int} {tr : List (write_tun.Event Int)}
    {es : List threads.Event} {w w' : Writers Int} (hf : Filtered w tr)
    (h : es.foldlM (handOver client_id r) w = some w') :
    Filtered w' tr ∧ w'.aborted = w.aborted ∧ ∀ r' p, held (w'.pc r') = some p →
      held (w.pc r') = some p ∨ (r' = r ∧ write_tun.isForClient client_id p = true ∧
        ∃ hd q, .delivered hd q p ∈ es) := by
  induction es generalizing w with
  | nil =>
    cases h
    exact ⟨hf, rfl, fun _ _ hp => .inl hp⟩
  | cons e es ih =>
    rw [List.foldlM_cons] at h
    obtain ⟨v, hv, h⟩ := Option.bind_eq_some_iff.mp h
    have hstep : Filtered v tr ∧ v.aborted = w.aborted ∧ ∀ r' p, held (v.pc r') = some p →
        held (w.pc r') = some p ∨ (r' = r ∧ write_tun.isForClient client_id p = true ∧
          ∃ hd q, e = .delivered hd q p) := by
      unfold handOver at hv
      split at hv
      · rename_i hd q bs
        obtain ⟨⟨v', out⟩, hs, he⟩ := Option.map_eq_some_iff.mp hv
        subst he
        have hm := write_tun.move_filtered hf (write_tun.step_move hs)
        obtain ⟨rfl, hab, hpc⟩ := dequeuePkt_step hs
        rw [List.append_nil] at hm
        refine ⟨hm, hab, fun r' p hp => (hpc r' p hp).imp id ?_⟩
        rintro ⟨hr, rfl, hfor⟩
        exact ⟨hr, hfor, hd, q, rfl⟩
      · cases hv
        exact ⟨hf, rfl, fun _ _ hp => .inl hp⟩
    obtain ⟨hfv, hab, hpc⟩ := hstep
    obtain ⟨hf', hab', hpc'⟩ := ih hfv h
    refine ⟨hf', hab'.trans hab, fun r' p hp => ?_⟩
    rcases hpc' r' p hp with hp | ⟨hr, hfor, hd, q, hmem⟩
    · rcases hpc r' p hp with hp | ⟨hr, hfor, hd, q, rfl⟩
      · exact .inl hp
      · exact .inr ⟨hr, hfor, hd, q, List.mem_cons_self⟩
    · exact .inr ⟨hr, hfor, hd, q, List.mem_cons_of_mem _ hmem⟩

/-! ## The process -/

section client

variable {pkt : Int → Nat → List Byte} {cfg : Config}

/-- A sender for each radio, with numbers of its own. -/
abbrev Senders (pkt : Int → Nat → List Byte) (cfg : Config) :=
  ∀ r, Sender (pkt r) (lengths.athConfig cfg.client_id r)

/-- Every datagram of a radio comes from the radio's sender, is for another
client or is dropped, and every packet of the cellular link is the native packet
of a sender or of another type. -/
def Inputs (S : Senders pkt cfg) (_ : List Event) (_ : Process) : Label → Prop
  | .feed r (.recv m nread) => Incoming (S r) m nread
  | .cell m => (athCodePkt m 0).type ≠ ATH_CODE ∨
      ∃ r ∈ cfg.radio_ids, ∃ b i, (S r).batches b ∧ Duplicate b i m
  | _ => True

/-- `RxRcvCell` passes a packet on to the radio of its sender, or skips it. -/
theorem Inputs.rxRcvCell {S : Senders pkt cfg} {tr : List Event} {s : Process} {m : Mem}
    (h : Inputs S tr s (.cell m)) :
    process.rxRcvCell cfg.client_id (athCodePkt m 0) = .skip ∨
    ∃ r ∈ cfg.radio_ids, ∃ x,
      process.rxRcvCell cfg.client_id (athCodePkt m 0) = .enqueuePkt r x ∧
        FromSender (S r) (.other (.call .rcvCell (enqueueArgs x))) := by
  rcases h with htype | ⟨r, hr, b, i, hb, hd⟩
  · exact .inl (if_pos htype)
  · obtain ⟨x, hx, hgen⟩ := Duplicate.rxRcvCell hb hd
    exact .inr ⟨r, hr, x, hx, Genuine.isSent hgen⟩

/-- The events of the writers. -/
def tunEvents (tr : List Event) : List (write_tun.Event Int) :=
  tr.filterMap fun
    | .tun e => some e
    | .radio _ _ | .dataAck _ _ => none

/-- The lists that `FindNackSeqNum` of a radio returned, with their ends. -/
def nackLists (r : Int) (tr : List Event) : List (List Nat × Nat) :=
  tr.filterMap fun
    | .radio r' e => if r' = r then answer e else none
    | .tun _ | .dataAck _ _ => none

/-- The datagrams that `RxCreateDataAck` of a radio sent. -/
def dataAcks (r : Int) (tr : List Event) : List (List Byte) :=
  tr.filterMap fun
    | .dataAck r' datagram => if r' = r then some datagram else none
    | .radio _ _ | .tun _ => none

theorem tunEvents_append (tr out : List Event) :
    tunEvents (tr ++ out) = tunEvents tr ++ tunEvents out := List.filterMap_append

theorem tunEvents_radio (r : Int) (es : List threads.Event) :
    tunEvents (es.map (.radio r)) = [] := by
  unfold tunEvents
  rw [List.filterMap_map]
  exact List.filterMap_eq_nil_iff.mpr fun _ _ => rfl

theorem tunEvents_tun (es : List (write_tun.Event Int)) : tunEvents (es.map .tun) = es := by
  unfold tunEvents
  rw [List.filterMap_map]
  exact List.filterMap_some

theorem nackLists_append (r : Int) (tr out : List Event) :
    nackLists r (tr ++ out) = nackLists r tr ++ nackLists r out := List.filterMap_append

theorem dataAcks_append (r : Int) (tr out : List Event) :
    dataAcks r (tr ++ out) = dataAcks r tr ++ dataAcks r out := List.filterMap_append

theorem nackLists_radio (r : Int) (es : List threads.Event) :
    nackLists r (es.map (.radio r)) = es.filterMap answer := by
  unfold nackLists
  rw [List.filterMap_map]
  exact congrArg (List.filterMap · es) (funext fun e => if_pos rfl)

theorem nackLists_other {r r' : Int} (h : r' ≠ r) (es : List threads.Event) :
    nackLists r' (es.map (.radio r)) = [] := by
  unfold nackLists
  rw [List.filterMap_map]
  exact List.filterMap_eq_nil_iff.mpr fun _ _ => if_neg (Ne.symm h)

theorem dataAcks_radio (r r' : Int) (es : List threads.Event) :
    dataAcks r' (es.map (.radio r)) = [] := by
  unfold dataAcks
  rw [List.filterMap_map]
  exact List.filterMap_eq_nil_iff.mpr fun _ _ => rfl

/-- The writers neither ask for numbers nor send datagrams. -/
theorem acks_tun (r : Int) (es : List (write_tun.Event Int)) :
    nackLists r (es.map .tun) = [] ∧ dataAcks r (es.map .tun) = [] := by
  unfold nackLists dataAcks
  rw [List.filterMap_map, List.filterMap_map]
  exact ⟨List.filterMap_eq_nil_iff.mpr fun _ _ => rfl,
    List.filterMap_eq_nil_iff.mpr fun _ _ => rfl⟩

/-- A packet that a base station sent for this client, through the radio. -/
def ForUs (S : Senders pkt cfg) (r : Int) (p : List Byte) : Prop :=
  ∃ q, Covers (S r) q ∧ p = pkt r q ∧ isForClient cfg.client_id p = true

/-- What an event says is true of the senders. -/
def Honest (S : Senders pkt cfg) : Event → Prop
  | .radio r (.delivered _ q bs) => Covers (S r) q ∧ bs = pkt r q
  | .tun (.written r o_seq bs) => ∃ p, ForUs S r p ∧ o_seq = oSeq p ∧ bs = writeBytes p
  | _ => True

/-- What can end a process that hears only its senders. -/
def MayEnd (e : Ended) : Prop := e = .findNackSeqNum ∨ e = .dataAck .tunWrite ∨ e = .writeTun

/-- The state of the process, as the senders made it. -/
structure Whole (S : Senders pkt cfg) (s : Process) (tr : List Event) : Prop where
  feeds : ∀ r, Sound (S r) (s.feeds r)
  sync : ∀ r, Sync (s.feeds r)
  asks : ∀ r, Asks (s.feeds r).radio
  acks : ∀ r, Acknowledges cfg.client_id r (s.acks r) (nackLists r tr) (dataAcks r tr)
  held : ∀ r p, held (s.writers.pc r) = some p → ForUs S r p
  filtered : Filtered s.writers (tunEvents tr)
  honest : ∀ e ∈ tr, Honest S e
  ended : ∀ e ∈ s.ended, MayEnd e

theorem fresh_whole (S : Senders pkt cfg) {s : Process} (h : s.Fresh) : Whole S s [] := by
  obtain ⟨-, hfeeds, hacks, hwriters, hended, -⟩ := h
  refine ⟨fun r => fresh_sound (S r) (hfeeds r), fun r => fresh_sync (hfeeds r),
    fun r => ack_thread.fresh_asks (hfeeds r).1,
    fun r => ack_thread.acknowledges_nothing (hacks r), fun r p hp => ?_,
    write_tun.fresh_filtered hwriters, nofun, ?_⟩
  · rw [hwriters.2.1 r] at hp
    cases hp
  · rw [hended]
    nofun

theorem endOf_mayEnd {f : Feed} (hover : f.over = false) : ∀ e ∈ endOf f, MayEnd e := by
  intro e he
  unfold endOf at he
  split at he
  · cases he
    exact .inl rfl
  · rw [hover, if_neg Bool.false_ne_true] at he
    cases he

/-- Only the thread of one radio has a new packet or a new list. -/
theorem acks_update {s : Process} {tr out : List Event}
    (h : ∀ r, Acknowledges cfg.client_id r (s.acks r) (nackLists r tr) (dataAcks r tr))
    {r : Int} {a : ack_thread.AckThread} (hself : Acknowledges cfg.client_id r a
      (nackLists r tr ++ nackLists r out) (dataAcks r tr ++ dataAcks r out))
    (hother : ∀ r', r' ≠ r → nackLists r' out = [] ∧ dataAcks r' out = []) :
    ∀ r', Acknowledges cfg.client_id r' (Function.update s.acks r a r')
      (nackLists r' (tr ++ out)) (dataAcks r' (tr ++ out)) := by
  intro r'
  rw [nackLists_append, dataAcks_append]
  by_cases hr : r' = r
  · subst hr
    rwa [Function.update_self]
  · obtain ⟨hlists, hacks⟩ := hother r' hr
    rw [Function.update_of_ne hr, hlists, hacks, List.append_nil, List.append_nil]
    exact h r'

/-- A step of a thread of one radio. -/
theorem Whole.feed {S : Senders pkt cfg} {s : Process} {tr : List Event} (h : Whole S s tr)
    {r : Int} {l : FeedLabel} {f : Feed} {out : List threads.Event}
    {w : Writers Int} (hl : FromSender (S r) l)
    (hidle : l = .other .ack → (s.acks r).returned = none)
    (hf : feedStep cfg.acks (lengths.athConfig cfg.client_id r) (s.view r) l = some (f, out))
    (hw : out.foldlM (handOver cfg.client_id r) s.writers = some w) :
    Whole S (s.fed r f out w) (tr ++ out.map (.radio r)) := by
  have hview := (h.feeds r).withPrev s.batch_id_prev
  obtain ⟨hsound, hdel⟩ := hview.step rfl hl hf
  have hvsync : Sync (s.view r) := sync_withPrev (h.sync r) s.batch_id_prev
  have hmax : cfg.acks.max_num_nacks = rx_raw_buf.ACK_WINDOW := rfl
  obtain ⟨hasks, hfits, hone⟩ := feedMove_asks hmax hview.carries.core hvsync (h.asks r)
    (feed_move hf)
  obtain ⟨hfil, -, hheld⟩ := handOver_foldlM h.filtered hw
  have hfeeds : ∀ {P : Int → Feed → Prop}, P r f → (∀ r', P r' (s.feeds r')) →
      ∀ r', P r' ((s.fed r f out w).feeds r') := fun {P} hself hall =>
    (Function.forall_update_iff s.feeds P).mpr ⟨hself, fun r' _ => hall r'⟩
  refine ⟨hfeeds (P := fun r' => Sound (S r')) hsound h.feeds,
    hfeeds (P := fun _ => Sync) ((feed_move hf).sync hvsync).1 h.sync,
    hfeeds (P := fun _ g => Asks g.radio) hasks h.asks, acks_update h.acks ?_ fun r' hr => ?_,
    fun r' p hp => ?_, ?_, List.forall_mem_append.mpr ⟨h.honest, fun e he => ?_⟩,
    endOf_mayEnd hsound.over⟩
  · rw [nackLists_radio, dataAcks_radio, List.append_nil]
    exact (h.acks r).take (hone.imp_right fun ⟨hack, hx⟩ => ⟨hidle hack, hx⟩) hfits
  · exact ⟨nackLists_other hr out, dataAcks_radio r r' out⟩
  · rcases hheld r' p hp with hp | ⟨rfl, hfor, hd, q, hmem⟩
    · exact h.held r' p hp
    · obtain ⟨hq, hbs⟩ := hdel hd q p hmem
      exact ⟨q, hq, hbs, hfor⟩
  · rwa [tunEvents_append, tunEvents_radio, List.append_nil]
  · obtain ⟨e', he', rfl⟩ := List.mem_map.mp he
    cases e' with
    | delivered hd q bs => exact hdel hd q bs he'
    | _ => trivial

/-- A turn of `RxCreateDataAck` behind `FindNackSeqNum`. -/
theorem Whole.dataAck {S : Senders pkt cfg} {s : Process} {tr : List Event} (h : Whole S s tr)
    {r nwrite : Int} (hr : r ∈ cfg.radio_ids) {nacks : List Nat} {end_seq : Nat}
    (hret : (s.acks r).returned = some (nacks, end_seq)) :
    (s.acks r).send cfg.client_id r nwrite nacks end_seq = .error .tunWrite ∨
    ∃ a datagram, (s.acks r).send cfg.client_id r nwrite nacks end_seq =
        .ok (a, datagram) ∧
      Whole S { s with acks := Function.update s.acks r a } (tr ++ [.dataAck r datagram]) := by
  have hsend := (s.acks r).send_spec cfg.client_id_int (cfg.radio_ids_int r hr) nwrite
    ((h.acks r).fits _ hret)
  refine hsend.imp_right fun ⟨a, datagram, hok, hidle, htells⟩ => ⟨a, datagram, hok, ?_⟩
  have hlists : ∀ r', nackLists r' [.dataAck r datagram] = [] := fun _ => rfl
  refine ⟨h.feeds, h.sync, h.asks, acks_update h.acks ?_ fun r' hr' => ⟨hlists r', ?_⟩, h.held, ?_,
    List.forall_mem_append.mpr ⟨h.honest, fun e he => ?_⟩, h.ended⟩
  · have hacks : dataAcks r [.dataAck r datagram] = [datagram] :=
      List.filterMap_cons_some (if_pos rfl)
    rw [hlists, List.append_nil, hacks]
    exact (h.acks r).send hret hidle htells
  · exact List.filterMap_cons_none (if_neg (Ne.symm hr'))
  · rw [tunEvents_append]
    exact (List.append_nil (tunEvents tr)).symm ▸ h.filtered
  · rw [List.mem_singleton.mp he]
    trivial

/-- A step of a writer behind its `DequeuePkt`. -/
theorem Whole.tun {S : Senders pkt cfg} {s : Process} {tr : List Event} (h : Whole S s tr)
    {l : write_tun.Label Int} {w : Writers Int} {out : List (write_tun.Event Int)}
    (hne : ∀ r p, l ≠ .dequeuePkt r p)
    (hw : write_tun.step cfg.client_id s.writers l = some (w, out)) :
    Whole S { s with writers := w, ended := if w.aborted then some .writeTun else none }
      (tr ++ out.map .tun) := by
  obtain ⟨hkeep, hwritten⟩ := writer_step hne hw
  refine ⟨h.feeds, h.sync, h.asks, fun r => ?_, fun r p hp => h.held r p (hkeep r p hp), ?_,
    List.forall_mem_append.mpr ⟨h.honest, fun e he => ?_⟩, fun e he => ?_⟩
  · rw [nackLists_append, dataAcks_append, (acks_tun r out).1, (acks_tun r out).2,
      List.append_nil, List.append_nil]
    exact h.acks r
  · rw [tunEvents_append, tunEvents_tun]
    exact write_tun.move_filtered h.filtered (write_tun.step_move hw)
  · obtain ⟨e', he', rfl⟩ := List.mem_map.mp he
    cases e' with
    | accepted => trivial
    | written r q bs =>
      obtain ⟨p, hp, hq, hbs⟩ := hwritten r q bs he'
      exact ⟨p, h.held r p hp, hq, hbs⟩
  · dsimp only at he
    split at he <;> cases he
    exact .inr (.inr rfl)

theorem Whole.step {S : Senders pkt cfg} {s t : Process} {tr : List Event} {l : Label}
    {out : List Event} (h : Whole S s tr) (hl : Inputs S tr s l)
    (hs : process.step cfg s l = some (t, out)) : Whole S t (tr ++ out) := by
  obtain ⟨hover, m⟩ := step_move hs
  cases m with
  | @feed r l f es w hr hmay hf hw =>
    refine h.feed ?_ (fun hack => ?_) hf hw
    · cases l with
      | recv m nread => exact hl
      | next => trivial
      | other k =>
        cases k with
        | call p c => cases hmay
        | _ => trivial
    · subst hack
      exact Option.isNone_iff_eq_none.mp hmay
  | @cellSkip m hm =>
    rw [List.append_nil]
    exact h
  | @cellEnds m hm =>
    -- A packet of a sender is for a radio of the table, and no assertion fails.
    exfalso
    rcases hl.rxRcvCell with hskip | ⟨r, hr, x, hx, -⟩
    · rcases hm with hm | ⟨r, x, hm, -⟩ <;> rw [hskip] at hm <;> cases hm
    · rcases hm with hm | ⟨r', x', hm, hr'⟩ <;> rw [hx] at hm <;> cases hm
      exact hr' hr
  | @cellCall m r x f es w hr hm hf hw =>
    rcases hl.rxRcvCell with hskip | ⟨r', -, x', hx', hsent⟩
    · rw [hskip] at hm
      cases hm
    · rw [hx'] at hm
      cases hm
      exact h.feed hsent nofun hf hw
  | @tun l w es hne hw =>
    exact h.tun hne hw
  | @ackSent r nwrite nacks end_seq a datagram hr hret hsend =>
    rcases h.dataAck hr hret with herr | ⟨a', datagram', hok, hwhole⟩
    · rw [herr] at hsend
      cases hsend
    · rw [hok] at hsend
      cases hsend
      exact hwhole
  | @ackEnds r nwrite nacks end_seq e hr hret hsend =>
    rw [List.append_nil]
    refine ⟨h.feeds, h.sync, h.asks, h.acks, h.held, h.filtered, h.honest,
      fun e' he' => ?_⟩
    rcases h.dataAck hr hret with herr | ⟨a', datagram', hok, -⟩
    · rw [herr] at hsend
      cases hsend
      cases he'
      exact .inr (.inl rfl)
    · rw [hok] at hsend
      cases hsend
  | @tick us =>
    rw [List.append_nil]
    exact ⟨fun r => (h.feeds r).wait us, fun r => sync_wait (h.sync r) us, h.asks, h.acks,
      h.held, h.filtered, h.honest, h.ended⟩

/-- What goes to the device of a packet that is as long as its header is the packet
behind it. -/
theorem writeBytes_eq_drop {p : List Byte} (h : HEADER_SIZE ≤ p.length)
    (hfit : p.length < 2 ^ 16) : writeBytes p = p.drop HEADER_SIZE := by
  have hlen : write_tun.writeLen p.length = p.length - HEADER_SIZE := by
    unfold write_tun.writeLen write_tun.uint16
    omega
  refine List.ext_getElem? fun i => ?_
  unfold writeBytes
  rw [hlen, List.getElem?_map, List.getElem?_drop]
  by_cases hi : i < p.length - HEADER_SIZE
  · rw [List.getElem?_range hi, List.getElem?_eq_getElem (by omega)]
    refine congrArg some ?_
    show p.getD (HEADER_SIZE + i) 0 = _
    rw [List.getD_eq_getElem?_getD, List.getElem?_eq_getElem (by omega)]
    rfl
  · rw [List.getElem?_eq_none (by rw [List.length_range]; omega),
      List.getElem?_eq_none (by omega)]
    rfl

/-- The packets for the client are as long as their header. -/
def LongEnough (S : Senders pkt cfg) : Prop :=
  ∀ r q, Covers (S r) q → isForClient cfg.client_id (pkt r q) = true →
    HEADER_SIZE ≤ (pkt r q).length

theorem Covers.length_lt {p : Nat → List Byte} {acfg : rcv_ath.Config} {T : Sender p acfg}
    {q : Nat} (h : Covers T q) : (p q).length < 2 ^ 16 := by
  obtain ⟨b, -, hq, hlt⟩ := h
  have hlen := (b.lens (q - b.start_seq) (by omega)).2
  rw [Nat.add_sub_cancel' hq] at hlen
  unfold rx_data_buf.PKT_SIZE at hlen
  omega

/-- Every run: only the assertion of `FindNackSeqNum` and those of `Tun::Write` can
end the process, every packet that `DequeuePkt` returns is the sender's packet of its
number, every packet that is written is the payload of one that a base station sent
for this client, written once, and each list that `FindNackSeqNum` returned goes out
in one datagram that tells it, in the order of the lists. -/
theorem the_client_writes_what_was_sent {S : Senders pkt cfg} (hlong : LongEnough S) {s : Process}
    {tr : List Event} (r : Run (client cfg) (Inputs S) s tr) :
    (∀ e ∈ s.ended, e = .findNackSeqNum ∨ e = .dataAck .tunWrite ∨ e = .writeTun) ∧
    (∀ r hd q bs, .radio r (.delivered hd q bs) ∈ tr → Covers (S r) q ∧ bs = pkt r q) ∧
    (∀ r o_seq bs, .tun (.written r o_seq bs) ∈ tr → ∃ q, Covers (S r) q ∧
      isForClient cfg.client_id (pkt r q) = true ∧ o_seq = oSeq (pkt r q) ∧
      bs = (pkt r q).drop HEADER_SIZE) ∧
    (write_tun.writes (tunEvents tr)).Nodup ∧
    ∀ r, ∃ done, nackLists r tr = done ++ (s.acks r).returned.toList ∧
      List.Forall₂ (Tells cfg.client_id r) (dataAcks r tr) done := by
  have hw : Whole S s tr := r.invariant (Whole S) (fun s h0 => fresh_whole S h0)
    fun s tr l t out _ h hok hs => h.step hok hs
  refine ⟨hw.ended, fun r hd q bs he => hw.honest _ he, fun r o bs he => ?_, hw.filtered.once,
    fun r => (hw.acks r).sent⟩
  obtain ⟨p, ⟨q, hq, rfl, hfor⟩, ho, hb⟩ := hw.honest _ he
  refine ⟨q, hq, hfor, ho, hb.trans ?_⟩
  exact writeBytes_eq_drop (hlong r q hq hfor) hq.length_lt

end client

/-! ## One packet over each link -/

/-- A sender of one batch, for the radio of the batch alone. -/
def onlyBatch {pkt : Nat → List Byte} (b : Batch pkt) (r : Int) :
    Sender pkt (lengths.athConfig b.client_id r) where
  batches := fun b' => b' = b ∧ b.bs_id = r
  ids := fun _ _ h h' _ => h.1.trans h'.1.symm
  client := fun _ h => congrArg Batch.client_id h.1
  radio := fun _ h => (congrArg Batch.bs_id h.1).trans h.2

/-- The memory of a native packet that is written over zeros. -/
def duplicate {pkt : Nat → List Byte} (b : Batch pkt) (i : Nat) : Mem :=
  (withPayload (fun _ => 0) (b.header (fun j => (b.native j).length) i) (b.native i).length
    (fec.bytes (b.native i))).getD fun _ => 0

theorem duplicate_is {pkt : Nat → List Byte} (b : Batch pkt) {i : Nat} (hi : i < b.k) :
    Duplicate b i (duplicate b i) := by
  refine ⟨fun _ => 0, fun j => (b.native j).length, fun _ _ => rfl, hi, ?_⟩
  exact b.withPayload_made _ (Nat.lt_of_lt_of_le hi b.k_le) _ _ _ _

/-- The packets of the controller from number 5 on. -/
def fromFive (q : Nat) : List Byte := write_tun.numbered (BitVec.ofNat 8 (4 + q))

theorem three_sizes : Sizes 1 1 3 3 2 1 := by
  constructor <;> decide

theorem three_lens : ∀ i < 3, 1 ≤ (fromFive (1 + i)).length ∧
    (fromFive (1 + i)).length ≤ rx_data_buf.PKT_SIZE := by
  decide

/-- Three packets of the base station 2. -/
def threeBatch : Batch fromFive := batchOf three_sizes three_lens

theorem three_native : ∀ j < threeBatch.k, (threeBatch.native j).length = 13
  | 0, _ => rfl
  | 1, _ => rfl
  | 2, _ => rfl

theorem one_is_int : (-2 : Int) ^ 31 ≤ 1 ∧ (1 : Int) < 2 ^ 31 := by decide

theorem two_is_int : ∀ r ∈ [(2 : Int)], -2 ^ 31 ≤ r ∧ r < 2 ^ 31 := by decide

/-- A client with one radio. -/
def oneRadio : Config := ⟨1, [2], 25, one_is_int, two_is_int⟩

def threeSenders : Senders (fun _ => fromFive) oneRadio := onlyBatch threeBatch

theorem three_longEnough : LongEnough threeSenders := fun _ _ _ _ => Nat.le_succ 12

def Process.atStart : Process where
  batch_id_prev := 0
  feeds := fun _ => .atStart
  acks := fun _ => ⟨⟨⟨.RAW_ACK, 0, 0, 0, 0, 0, 0, 0⟩, fun _ => 0⟩, fun _ => 0, none⟩
  writers := ⟨0, fun _ => .idle, false⟩
  ended := none

theorem atStart_fresh : Process.atStart.Fresh :=
  ⟨rfl, fun _ => feed.atStart_fresh, fun _ => rfl, ⟨rfl, fun _ => rfl, rfl⟩, rfl, fun _ _ => rfl⟩

/-- The first packet comes over the cellular link, and is read and written. -/
def firstOverCell : List Label :=
  .cell (duplicate threeBatch 0) :: (List.replicate 3 (.feed 2 (.other (.prod .rcvCell .ath))) ++
    List.replicate 2 (.feed 2 (.other (.cons .ath))) ++ [.tun (.needUpdate 2), .tun (.write 2 1)])

/-- The third one comes over the radio, and the list of the second one is sent when
it is late. -/
def thirdOverAth : List Label :=
  .feed 2 (.recv (nativeMem threeBatch 13 2) 55) :: (List.replicate 4 (.feed 2 .next) ++
    List.replicate 4 (.feed 2 (.other (.prod .rcvAth .ath))) ++ [.tick 100000] ++
    List.replicate 9 (.feed 2 (.other .ack)) ++ [.dataAck 2 30])

theorem firstOverCell_inputs : ∀ l ∈ firstOverCell, ∀ tr s, Inputs threeSenders tr s l := by
  intro l hl tr s
  simp only [firstOverCell, List.mem_cons, List.mem_append, List.mem_replicate,
    List.not_mem_nil, or_false] at hl
  rcases hl with rfl | (⟨-, rfl⟩ | ⟨-, rfl⟩) | rfl | rfl
  · exact .inr ⟨2, List.mem_singleton_self 2, threeBatch, 0, ⟨rfl, rfl⟩,
      duplicate_is threeBatch (Nat.succ_pos 2)⟩
  · trivial
  · trivial
  · trivial
  · trivial

theorem thirdOverAth_inputs : ∀ l ∈ thirdOverAth, ∀ tr s, Inputs threeSenders tr s l := by
  intro l hl tr s
  simp only [thirdOverAth, List.mem_cons, List.mem_append, List.mem_replicate,
    List.not_mem_nil, or_false] at hl
  rcases hl with rfl | ((((⟨-, rfl⟩ | ⟨-, rfl⟩) | rfl) | ⟨-, rfl⟩) | rfl)
  · exact native_incoming (S := threeSenders 2) (b := threeBatch) ⟨rfl, rfl⟩ three_native
      (Nat.lt_succ_self 2)
  · trivial
  · trivial
  · trivial
  · trivial
  · trivial

/-- The datagram for the list `[2]` with the end 3. -/
def secondIsLost : List Byte :=
  [3, 0, 1, 0, 0, 0, 0, 0, 1, 0, 0, 0, 2, 0, 0, 0, 3, 0, 0, 0, 1, 0, 0, 0, 2, 0, 0, 0, 0, 0]

theorem one_packet_is_written_and_one_is_lost : ∃ s tr,
    Run (client oneRadio) (Inputs threeSenders) s tr ∧
    (∃ q, Covers (threeSenders 2) q ∧ 5 = oSeq (fromFive q) ∧
      [69] = (fromFive q).drop HEADER_SIZE) ∧
    write_tun.writes (tunEvents tr) = [5] ∧ Tells 1 2 secondIsLost ([2], 3) := by
  obtain ⟨s, tr, r, hs⟩ := run_of_check (client oneRadio) (Inputs threeSenders)
    (firstOverCell ++ thirdOverAth)
    (fun x => decide (.tun (.written 2 5 [69]) ∈ x.2 ∧ write_tun.writes (tunEvents x.2) = [5] ∧
      dataAcks 2 x.2 = [secondIsLost] ∧ nackLists 2 x.2 = [([2], 3)])) atStart_fresh
    (execOk_of_labels (fun l hl => (List.mem_append.mp hl).elim (firstOverCell_inputs l)
      (thirdOverAth_inputs l)) _ _) (by decide +kernel)
  obtain ⟨hmem, hwrites, hacks, hlists⟩ := of_decide_eq_true hs
  obtain ⟨-, -, hwrite, -, hsent⟩ := the_client_writes_what_was_sent three_longEnough r
  obtain ⟨q, hq, -, ho, hb⟩ := hwrite 2 5 [69] hmem
  obtain ⟨done, hdone, htells⟩ := hsent 2
  rw [hacks] at htells
  obtain ⟨x, rest, htell, hnil, rfl⟩ := List.forall₂_cons_left_iff.mp htells
  cases hnil
  rw [hlists] at hdone
  obtain ⟨rfl, -⟩ := List.cons.inj hdone
  exact ⟨s, tr, r, ⟨q, hq, ho, hb⟩, hwrites, htell⟩

end wspace_client.process

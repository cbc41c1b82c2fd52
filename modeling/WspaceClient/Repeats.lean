-- `RxRcvAth` on packets that it has seen: a coded packet that comes again, one of
-- an older batch, or one that is ignored changes neither the thread nor its calls
-- on the batch and on the buffer, whatever stands in the packets.
import WspaceClient.Batches

namespace wspace_client.rcv_ath

open fec

/-! ## Packets that bring nothing -/

/-- The calls that a packet causes although it brings nothing. -/
def isNotice : Event → Bool
  | .pushPkts _ | .setBsId _ | .updateTimeLeft _ _ _ => true
  | .setBatchInfo _ _ _ _ _ _ | .setDecodingDone _ | .enqueuePkt _ _ | .decodeBatch _ _ _ => false

/-- The packet is dropped, or it is for another client. -/
def Ignored (cfg : Config) (p : AthCodePkt) : Prop :=
  p.is_good = false ∨ parseHeader p = true ∧ p.client_id ≠ cfg.client_id

/-- The packet passes every check before its batch id is compared. -/
structure Passes (cfg : Config) (p : AthCodePkt) : Prop where
  good : p.is_good = true
  parsed : parseHeader p = true
  client : p.client_id = cfg.client_id
  radio : cfg.radio_id = p.bs_id
  rate : (getRate p.rate).isSome

/-- Packets of `seen` make the packet useless: it is ignored, or one of them has
its batch and its index, or a newer batch. -/
def Useless (cfg : Config) (seen : List AthCodePkt) (p : AthCodePkt) : Prop :=
  Ignored cfg p ∨ Passes cfg p ∧ ∃ q ∈ seen, ¬Ignored cfg q ∧
    (p.batch_id < q.batch_id ∨ p.batch_id = q.batch_id ∧ p.ind = q.ind)

/-- The sequence `qs` is `ps` with useless packets put in anywhere. `seen` came before. -/
inductive Padded (cfg : Config) : List AthCodePkt → List AthCodePkt → List AthCodePkt → Prop
  | nil {seen} : Padded cfg seen [] []
  | same {seen ps qs} (p : AthCodePkt) (h : Padded cfg (p :: seen) ps qs) :
      Padded cfg seen (p :: ps) (p :: qs)
  | useless {seen ps qs} (p : AthCodePkt) (hp : Useless cfg seen p) (h : Padded cfg seen ps qs) :
      Padded cfg seen ps (p :: qs)

/-- The thread has the coded packet of the index, or its batch is over. -/
def Has (s : RcvAth) (batch_id ind : Nat) : Prop :=
  batch_id < s.batch_id ∨ batch_id = s.batch_id ∧
    (s.decoding_done = true ∨ isIndExist s.decoder.inds s.decoder.cur_ind ind = true)

/-- A packet that the thread has changes nothing. -/
theorem rxRcvAth_of_has {cfg : Config} {s : RcvAth} {p : AthCodePkt} (hp : Passes cfg p)
    (h : Has s p.batch_id p.ind) :
    ∃ out, rxRcvAth cfg s p = .ok (s, out) ∧ ∀ e ∈ out, isNotice e = true := by
  obtain ⟨rate, hrate⟩ := Option.isSome_iff_exists.mp hp.rate
  have hbatch : ∃ out, rcvBatch cfg s p (perPktDuration p.nread rate) = .ok (s, out) ∧
      ∀ e ∈ out, isNotice e = true := by
    unfold rcvBatch
    rcases h with hlt | ⟨heq, hdone⟩
    · rw [if_pos hlt]
      exact ⟨[], rfl, nofun⟩
    · rw [if_neg (by omega), if_neg (by omega)]
      refine ⟨_, if_pos (Bool.or_eq_true _ _ ▸ hdone), fun e he => ?_⟩
      split at he
      · cases he
      · rw [List.mem_singleton.mp he]
        rfl
  obtain ⟨out, hout, hnotice⟩ := hbatch
  unfold rxRcvAth
  rw [if_neg (by simp [hp.good]), if_neg (by simp [hp.parsed]), if_neg (not_not_intro hp.client),
    if_neg (not_not_intro hp.radio), hrate]
  simp only [bind, Except.bind, hout]
  refine ⟨_, rfl, fun e he => ?_⟩
  rcases List.mem_cons.mp he with rfl | he
  · rfl
  · rcases List.mem_cons.mp he with rfl | he
    · rfl
    · exact hnotice e he

theorem rxRcvAth_of_ignored {cfg : Config} {p : AthCodePkt} (h : Ignored cfg p) (s : RcvAth) :
    rxRcvAth cfg s p = .ok (s, []) := by
  unfold rxRcvAth
  rcases h with hgood | ⟨hparse, hclient⟩
  · exact if_pos (by simp [hgood])
  · by_cases hgood : p.is_good
    · rw [if_neg (by simp [hgood]), if_neg (by simp [hparse]), if_pos hclient]
    · exact if_pos (by simp [hgood])

/-! ## What the thread has, it keeps -/

theorem enqueueLate_codec {s : RcvAth} {p : AthCodePkt} {d d' : CodeInfo} {is : List Nat}
    {out : List Event} (h : enqueueLate s p d is = .ok (d', out)) :
    d'.codec_type = d.codec_type := by
  induction is generalizing d out with
  | nil =>
    cases h
    rfl
  | cons i is ih =>
    unfold enqueueLate at h
    split at h
    · split at h
      · cases h
      · rename_i buf len d1 hpop
        obtain ⟨x, hrest, h⟩ := ok_of_bind h
        cases h
        rw [ih hrest]
        unfold popPkt at hpop
        split at hpop <;> split at hpop <;> cases hpop <;> rfl
    · have hrest := ih h
      exact hrest

theorem finishBatch_done {s t : RcvAth} {p : AthCodePkt} {out : List Event}
    (h : finishBatch s p = .ok (t, out)) :
    t.batch_id = s.batch_id ∧ t.decoding_done = true ∧
      t.decoder.codec_type = s.decoder.codec_type := by
  unfold finishBatch at h
  by_cases hk : s.early_decoding_cnt ≠ p.k
  · rw [if_pos hk] at h
    obtain ⟨⟨d, late⟩, hd, h⟩ := ok_of_bind h
    cases h
    refine ⟨rfl, rfl, ?_⟩
    unfold decodeLate at hd
    split at hd
    · cases hd
    · rename_i error decoder hdec
      obtain ⟨⟨d', es⟩, hlate, hd⟩ := ok_of_bind hd
      cases hd
      obtain ⟨code, -, hdec⟩ := Option.bind_eq_some_iff.mp hdec
      cases hdec
      have hkeep := enqueueLate_codec hlate
      exact hkeep
  · rw [if_neg hk] at h
    cases h
    exact ⟨rfl, rfl, rfl⟩

/-- A push that is accepted leaves the batch done, or keeps the index. -/
theorem pushCoded_has {cfg : Config} {s t : RcvAth} {p : AthCodePkt} {out : List Event}
    (hcodec : s.decoder.codec_type = .kDecoder) (h : pushCoded cfg s p = .ok (t, out)) :
    t.batch_id = s.batch_id ∧ t.decoder.codec_type = .kDecoder ∧
      (t.decoding_done = true ∨ t.decoding_done = s.decoding_done ∧
        (List.range t.decoder.cur_ind).map t.decoder.inds =
          (List.range s.decoder.cur_ind).map s.decoder.inds ++ [p.ind]) := by
  unfold pushCoded at h
  split at h
  · cases h
  · cases h
  · rename_i d hpush
    have hd : d.codec_type = .kDecoder ∧ (List.range d.cur_ind).map d.inds =
        (List.range s.decoder.cur_ind).map s.decoder.inds ++ [p.ind] := by
      unfold pushPkt at hpush
      split at hpush
      · cases hpush
      · simp only [hcodec] at hpush
        split at hpush
        · cases hpush
        · split at hpush
          · cases hpush
          · cases hpush
            refine ⟨?_, ?_⟩
            · unfold CodeInfo.storeNext
              simp only
            · unfold CodeInfo.storeNext
              simp only
              exact range_update _ _ _
    have hnative : (enqueueNative { s with decoder := d } p).1.decoder = d ∧
        (enqueueNative { s with decoder := d } p).1.batch_id = s.batch_id ∧
        (enqueueNative { s with decoder := d } p).1.decoding_done = s.decoding_done := by
      unfold enqueueNative
      split <;> exact ⟨rfl, rfl, rfl⟩
    obtain ⟨hdec, hid, hdone⟩ := hnative
    dsimp only at h
    split at h
    · obtain ⟨⟨u, out'⟩, hfin, h⟩ := ok_of_bind h
      cases h
      obtain ⟨hb, hall, hc⟩ := finishBatch_done hfin
      exact ⟨hb.trans hid, by rw [hc, hdec]; exact hd.1, .inl hall⟩
    · cases h
      rw [hdec]
      exact ⟨hid, hd.1, .inr ⟨hdone, hd.2⟩⟩

/-- The thread keeps what it has, and has the packet that it took. -/
theorem rcvBatch_has {cfg : Config} {s t : RcvAth} {p : AthCodePkt} {dur : Nat}
    {out : List Event} (hcodec : s.decoder.codec_type = .kDecoder)
    (h : rcvBatch cfg s p dur = .ok (t, out)) :
    t.decoder.codec_type = .kDecoder ∧ (∀ b i, Has s b i → Has t b i) ∧ Has t p.batch_id p.ind := by
  unfold rcvBatch at h
  split at h
  · rename_i hstale
    cases h
    exact ⟨hcodec, fun _ _ hb => hb, .inl hstale⟩
  · split at h
    · rename_i hnew
      obtain ⟨⟨s1, es⟩, h1, h⟩ := ok_of_bind h
      obtain ⟨⟨s2, es'⟩, h2, h⟩ := ok_of_bind h
      cases h
      have hstart : s1.batch_id = p.batch_id ∧ s1.decoder.codec_type = .kDecoder := by
        unfold newBatch at h1
        split at h1
        · cases h1
        · rename_i d hlens
          cases h1
          unfold copyLens at hlens
          split at hlens
          · cases hlens
          · cases hlens
            exact ⟨rfl, hcodec⟩
      obtain ⟨hb, hc, hhas⟩ := pushCoded_has hstart.2 h2
      have hid : t.batch_id = p.batch_id := hb.trans hstart.1
      refine ⟨hc, fun b i hbi => .inl ?_, .inr ⟨hid.symm, hhas.imp id fun hinds => ?_⟩⟩
      · rw [hid]
        rcases hbi with hlt | ⟨rfl, -⟩ <;> omega
      · rw [isIndExist_iff, hinds.2]
        exact List.mem_append_right _ (List.mem_singleton_self _)
    · have heq : s.batch_id = p.batch_id := by omega
      dsimp only at h
      split at h
      · rename_i huse
        cases h
        rw [Bool.or_eq_true] at huse
        exact ⟨hcodec, fun _ _ hb => hb, .inr ⟨heq.symm, huse⟩⟩
      · obtain ⟨⟨s2, es'⟩, h2, h⟩ := ok_of_bind h
        cases h
        obtain ⟨hb, hc, hhas⟩ := pushCoded_has hcodec h2
        refine ⟨hc, fun b i hbi => ?_, .inr ⟨by rw [hb, heq], hhas.imp id fun hinds => ?_⟩⟩
        · rcases hbi with hlt | ⟨rfl, hdone⟩
          · exact .inl (by rw [hb]; exact hlt)
          · rcases hhas with hall | ⟨hsame, hinds⟩
            · exact .inr ⟨hb.symm, .inl hall⟩
            · refine .inr ⟨hb.symm, hdone.imp (fun hs => hsame.trans hs) fun hi => ?_⟩
              rw [isIndExist_iff] at hi ⊢
              rw [hinds]
              exact List.mem_append_left _ hi
        · rw [isIndExist_iff, hinds.2]
          exact List.mem_append_right _ (List.mem_singleton_self _)

/-- What the thread knows of the packets that it looked at. -/
structure Recalls (cfg : Config) (seen : List AthCodePkt) (s : RcvAth) : Prop where
  codec : s.decoder.codec_type = .kDecoder
  has : ∀ q ∈ seen, ¬Ignored cfg q → Has s q.batch_id q.ind

theorem Recalls.step {cfg : Config} {seen : List AthCodePkt} {s t : RcvAth} {p : AthCodePkt}
    {out : List Event} (hr : Recalls cfg seen s) (h : rxRcvAth cfg s p = .ok (t, out)) :
    Recalls cfg (p :: seen) t := by
  by_cases hi : Ignored cfg p
  · rw [rxRcvAth_of_ignored hi] at h
    cases h
    refine ⟨hr.codec, fun q hq hlooked => ?_⟩
    rcases List.mem_cons.mp hq with rfl | hq
    · exact absurd hi hlooked
    · exact hr.has q hq hlooked
  · unfold rxRcvAth at h
    split at h
    · rename_i hgood
      exact absurd (.inl (by simpa using hgood)) hi
    · split at h
      · cases h
      · rename_i hparse
        split at h
        · rename_i hclient
          exact absurd (.inr ⟨by simpa using hparse, hclient⟩) hi
        · split at h
          · cases h
          · split at h
            · cases h
            · obtain ⟨⟨u, es⟩, hbatch, h⟩ := ok_of_bind h
              cases h
              obtain ⟨hcodec, hkeep, hnew⟩ := rcvBatch_has hr.codec hbatch
              refine ⟨hcodec, fun q hq hlooked => ?_⟩
              rcases List.mem_cons.mp hq with rfl | hq
              · exact hnew
              · exact hkeep _ _ (hr.has q hq hlooked)

/-- A useless packet leaves the thread as it is. -/
theorem Recalls.useless {cfg : Config} {seen : List AthCodePkt} {s : RcvAth} {p : AthCodePkt}
    (hr : Recalls cfg seen s) (hp : Useless cfg seen p) :
    ∃ out, rxRcvAth cfg s p = .ok (s, out) ∧ ∀ e ∈ out, isNotice e = true := by
  rcases hp with hi | ⟨hpass, q, hq, hlooked, hpq⟩
  · exact ⟨[], rxRcvAth_of_ignored hi s, nofun⟩
  · refine rxRcvAth_of_has hpass ?_
    have hqs := hr.has q hq hlooked
    rcases hpq with hlt | ⟨hb, hind⟩
    · rcases hqs with hq | ⟨hq, -⟩
      · exact .inl (by omega)
      · exact .inl (by omega)
    · rw [hb, hind]
      exact hqs

/-! ## Whole sequences -/

/-- The thread at the end, or the assertion that ended it, with the calls that
matter. -/
def outcome (r : Except Abort (RcvAth × List Event)) : Except Abort (RcvAth × List Event) :=
  r.map fun x => (x.1, x.2.filter fun e => !isNotice e)

theorem outcome_bind {x : Except Abort (RcvAth × List Event)}
    {f g : RcvAth → Except Abort (RcvAth × List Event)}
    (h : ∀ t out, x = .ok (t, out) → outcome (f t) = outcome (g t)) :
    outcome (do let (t, out) ← x; let (u, out') ← f t; return (u, out ++ out')) =
      outcome (do let (t, out) ← x; let (u, out') ← g t; return (u, out ++ out')) := by
  cases x with
  | error e => rfl
  | ok y =>
    obtain ⟨t, out⟩ := y
    have hfg := h t out rfl
    show outcome ((f t) >>= fun z => pure (z.1, out ++ z.2)) =
      outcome ((g t) >>= fun z => pure (z.1, out ++ z.2))
    have hmap : ∀ r : Except Abort (RcvAth × List Event),
        outcome (r >>= fun z => pure (z.1, out ++ z.2)) =
          (outcome r).map fun z => (z.1, out.filter (fun e => !isNotice e) ++ z.2) := by
      intro r
      cases r with
      | error e => rfl
      | ok z => simp [outcome, bind, Except.bind, pure, Except.pure, Except.map]
    rw [hmap, hmap, hfg]

theorem receive_padded {cfg : Config} {seen ps qs : List AthCodePkt} {s : RcvAth}
    (h : Padded cfg seen ps qs) (hr : Recalls cfg seen s) :
    outcome (receive cfg s qs) = outcome (receive cfg s ps) := by
  induction h generalizing s with
  | nil => rfl
  | same p _ ih =>
    unfold receive
    exact outcome_bind fun t out hs => ih (hr.step hs)
  | @useless seen ps qs p hp _ ih =>
    obtain ⟨out, hout, hnotice⟩ := hr.useless hp
    rw [← ih hr]
    rw [receive, hout]
    have hnil : out.filter (fun e => !isNotice e) = [] :=
      List.filter_eq_nil_iff.mpr fun e he => by simp [hnotice e he]
    simp only [bind, Except.bind]
    cases receive cfg s qs with
    | error e => rfl
    | ok z => simp [outcome, pure, Except.pure, Except.map, hnil]

/-- Useless packets change neither the state of the thread, nor its calls on the
batch and the buffer, nor the assertion that ends it, wherever they come. -/
theorem useless_packets_change_nothing {cfg : Config} {s : RcvAth} {ps qs : List AthCodePkt}
    (hs : s.Fresh) (h : Padded cfg [] ps qs) :
    outcome (receive cfg s qs) = outcome (receive cfg s ps) :=
  receive_padded h ⟨hs.codec, nofun⟩

/-- A packet of another client. -/
def otherPkt : AthCodePkt := { pairPkt 1 with client_id := 8 }

/-- Both packets of a batch come twice, with a packet for another client between them. -/
theorem a_repeated_pair_changes_nothing :
    outcome (receive ⟨7, 1, 36⟩ newRcvAth [pairPkt 0, pairPkt 0, otherPkt, pairPkt 2, pairPkt 0]) =
    outcome (receive ⟨7, 1, 36⟩ newRcvAth [pairPkt 0, pairPkt 2]) := by
  have hpass : ∀ i < 3, Passes ⟨7, 1, 36⟩ (pairPkt i) := fun i hi =>
    have h := pairPkt_downlink hi
    ⟨rfl, h.parsed, rfl, rfl, rfl⟩
  have hlooked : ∀ i, ¬Ignored ⟨7, 1, 36⟩ (pairPkt i) := by
    rintro i (hgood | ⟨-, hclient⟩)
    · cases hgood
    · exact hclient rfl
  have hother : Ignored ⟨7, 1, 36⟩ otherPkt := .inr ⟨by decide, by decide⟩
  have hagain : ∀ seen, pairPkt 0 ∈ seen → Useless ⟨7, 1, 36⟩ seen (pairPkt 0) := fun _ h =>
    .inr ⟨hpass 0 (by decide), _, h, hlooked 0, .inr ⟨rfl, rfl⟩⟩
  exact useless_packets_change_nothing newRcvAth_fresh
    (.same _ (.useless _ (hagain _ (by simp)) (.useless _ (.inl hother)
      (.same _ (.useless _ (hagain _ (by simp)) .nil)))))

end wspace_client.rcv_ath

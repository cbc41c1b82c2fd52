-- `GPSParser::ParseLine` on what one read of gpspipe gives: any number of reports,
-- each on its own line, while the parser cuts at the commas only and looks for each
-- key in every piece.
import WspaceClient.Texts

namespace wspace_client.gps

open texts

/-! ## The parser -/

structure Location (δ : Type) where
  latitude : δ
  longitude : δ
  deriving DecidableEq

structure GPSParser (δ : Type) where
  time : δ
  location : Location δ
  speed : δ
  phrases : List (List Char)

def kStartPhrase : List Char :=
  ['"', 'c', 'l', 'a', 's', 's', '"', ':', '"', 'T', 'P', 'V', '"']

-- The keys of a fix.

def kTime : List Char := ['t', 'i', 'm', 'e']

def kLat : List Char := ['l', 'a', 't']

def kLon : List Char := ['l', 'o', 'n']

def kSpeed : List Char := ['s', 'p', 'e', 'e', 'd']

/-- The loop of `SplitLine`, which also ends when a separator is at position 0. -/
def splitFrom (line separator : List Char) (start_pos : Nat) : List (List Char) :=
  match h : findFirstOf separator line start_pos with
  | none => [line.drop start_pos]
  | some end_pos =>
    if end_pos = 0 then []
    else (line.drop start_pos).take (end_pos - start_pos) ::
      splitFrom line separator (end_pos + 1)
termination_by line.length - start_pos
decreasing_by
  have hpos := findFirstOf_some h
  omega

def splitLine (line separator : List Char) : List (List Char) := splitFrom line separator 0

def isValidLine (phrases : List (List Char)) : Bool :=
  match phrases with
  | [] => false
  | phrase :: _ => (find kStartPhrase phrase).isSome

def searchKey (key : List Char) : List Char := key ++ ['"', ':']

section conversion

-- The conversion of a text to a number.
variable {δ : Type} (atof : List Char → δ)

/-- `GetValue` sets its value just when it returns true. -/
def getValue (phrase key : List Char) : Option δ :=
  match find (searchKey key) phrase with
  | none => none
  | some pos => some (atof (phrase.drop (pos + (searchKey key).length)))

/-- The local variables of `ParseLine`: a value is there once it is found. The -1 before
that is never read. -/
structure Fields (δ : Type) where
  time : Option δ
  lat : Option δ
  lon : Option δ
  speed : Option δ

/-- One turn of the loop: what is found is not looked for again. -/
def Fields.next (f : Fields δ) (phrase : List Char) : Fields δ where
  time := f.time.or (getValue atof phrase kTime)
  lat := f.lat.or (getValue atof phrase kLat)
  lon := f.lon.or (getValue atof phrase kLon)
  speed := f.speed.or (getValue atof phrase kSpeed)

def parseLine (s : GPSParser δ) (line : List Char) : GPSParser δ × Bool :=
  let s := { s with phrases := splitLine line [','] }
  if isValidLine s.phrases then
    match s.phrases.foldl (Fields.next atof) ⟨none, none, none, none⟩ with
    | ⟨some time, some lat, some lon, some speed⟩ =>
      ({ s with time, location := ⟨lat, lon⟩, speed }, true)
    | _ => (s, false)
  else (s, false)

end conversion

/-! ## The chunks -/

/-- A member of an object. -/
structure Member where
  name : List Char
  value : List Char
  no_comma : ',' ∉ value
  no_newline : '\n' ∉ value

def Member.text (m : Member) : List Char := '"' :: m.name ++ ['"', ':'] ++ m.value

/-- An object, whose members have different names. -/
structure Report where
  members : List Member
  unique : (members.map Member.name).Nodup

def Report.text (r : Report) : List Char :=
  '{' :: [','].intercalate (r.members.map Member.text) ++ ['}']

/-- What one read gives: the objects one after another, and whether the last line ends. -/
structure Chunk where
  reports : List Report
  ends : Bool

def Chunk.text (c : Chunk) : List Char :=
  ['\n'].intercalate (c.reports.map Report.text) ++ if c.ends then ['\n'] else []

/-! ## What the parser finds in a line -/

/-- From a position that is not a separator at the start, the pieces are a split. -/
theorem splitFrom_eq {line : List Char} {c : Char} {start_pos : Nat}
    (h : 0 < start_pos ∨ line.head? ≠ some c) :
    splitFrom line [c] start_pos = (line.drop start_pos).splitOn c := by
  induction hn : line.length - start_pos using Nat.strongRecOn generalizing start_pos with
  | _ n ih =>
    rw [splitFrom]
    split
    · rename_i hnone
      have hno := findFirstOf_none hnone
      rw [splitOn_of_not_mem fun hc => hno c hc List.mem_cons_self]
    · rename_i end_pos hsome
      obtain ⟨hle, hlt, x, hx, hcut, hno⟩ := findFirstOf_some hsome
      obtain rfl := List.mem_singleton.mp hx
      rw [if_neg, ih _ (by omega) (.inl (Nat.succ_pos end_pos)) rfl, hcut, splitOn_append_cons,
        splitOn_of_not_mem fun hc => hno x hc List.mem_cons_self, ← hcut]
      · rfl
      · rintro rfl
        obtain rfl : start_pos = 0 := by omega
        rcases h with h | h
        · exact Nat.lt_irrefl 0 h
        · apply h
          rw [← List.drop_zero (l := line), hcut]
          rfl

/-- A line with the separator at its start has no pieces. -/
theorem splitLine_separator (c : Char) (s : List Char) : splitLine (c :: s) [c] = [] := by
  unfold splitLine
  rw [splitFrom]
  split
  · rename_i hnone
    exact absurd List.mem_cons_self (findFirstOf_none hnone c List.mem_cons_self)
  · rename_i end_pos hsome
    have hzero : findFirstOf [c] (c :: s) 0 = some 0 := by
      unfold findFirstOf
      simp [List.findIdx?_cons]
    rw [hzero] at hsome
    cases hsome
    rfl

/-- The class is looked for up to the first comma. -/
theorem isValidLine_iff (line : List Char) :
    isValidLine (splitLine line [',']) ↔ after kStartPhrase (before ',' line) ≠ none := by
  have hsome : ∀ p, (find kStartPhrase p).isSome ↔ after kStartPhrase p ≠ none := by
    intro p
    unfold after
    rw [ne_eq, Option.map_eq_none_iff, Option.isSome_iff_ne_none]
  by_cases h : line.head? = some ','
  · obtain ⟨s, rfl⟩ := List.head?_eq_some_iff.mp h
    have hnil : splitLine (',' :: s) [','] = [] := splitLine_separator ',' s
    rw [hnil]
    exact iff_of_false nofun (not_not_intro (after_nil (by decide)))
  · have hsplit : splitLine line [','] = line.splitOn ',' := splitFrom_eq (.inr h)
    have hhead := head_splitOn ',' line
    rw [hsplit]
    cases hp : line.splitOn ',' with
    | nil =>
      rw [hp] at hhead
      cases hhead
    | cons p ps =>
      rw [hp] at hhead
      cases hhead
      exact hsome _

section conversion

variable {δ : Type} (atof : List Char → δ)

theorem getValue_eq (phrase key : List Char) :
    getValue atof phrase key = (after (searchKey key) phrase).map atof := by
  unfold getValue after
  cases find (searchKey key) phrase <;> rfl

/-- What the parser reads for a key: the number behind its first place, up to a comma. -/
def reading (key s : List Char) : Option δ :=
  (after (searchKey key) s).map fun x => atof (before ',' x)

theorem searchKey_ne_nil (key : List Char) : searchKey key ≠ [] :=
  List.append_ne_nil_of_right_ne_nil _ (by decide)

theorem not_mem_searchKey {key : List Char} {c : Char} (hc : c ∉ key) (hq : c ∉ ['"', ':']) :
    c ∉ searchKey key := fun h => (List.mem_append.mp h).elim hc hq

/-- The first piece that has the key has its reading. -/
theorem getValue_splitOn {key : List Char} (hk : ',' ∉ key) (line : List Char) :
    (line.splitOn ',').findSome? (fun phrase => getValue atof phrase key) =
      reading atof key line := by
  have hcut := after_splitOn (not_mem_searchKey hk (by decide)) (searchKey_ne_nil key) line
  have hmap := congrArg (Option.map atof) hcut
  rw [List.map_findSome?, Option.map_map] at hmap
  have hfun : (fun phrase => getValue atof phrase key) =
      Option.map atof ∘ after (searchKey key) := funext fun phrase => getValue_eq atof phrase key
  rw [hfun]
  exact hmap

/-- The loop keeps what it found first. -/
theorem foldl_next (phrases : List (List Char)) (f : Fields δ) :
    phrases.foldl (Fields.next atof) f =
      ⟨f.time.or (phrases.findSome? fun p => getValue atof p kTime),
        f.lat.or (phrases.findSome? fun p => getValue atof p kLat),
        f.lon.or (phrases.findSome? fun p => getValue atof p kLon),
        f.speed.or (phrases.findSome? fun p => getValue atof p kSpeed)⟩ := by
  induction phrases generalizing f with
  | nil => simp
  | cons p ps ih =>
    rw [List.foldl_cons, ih]
    simp only [Fields.next, findSome?_cons_or, Option.or_assoc]

/-- The keys of a fix. -/
def keys : List (List Char) := [kTime, kLat, kLon, kSpeed]

theorem keys_all {P : List Char → Prop} : (∀ key ∈ keys, P key) ↔
    P kTime ∧ P kLat ∧ P kLon ∧ P kSpeed := by
  unfold keys
  simp only [List.forall_mem_cons, List.not_mem_nil, false_imp_iff, implies_true, and_true]

/-- The line begins a TPV report, as far as the parser looks, and has every key. -/
def Accepted (line : List Char) : Prop :=
  after kStartPhrase (before ',' line) ≠ none ∧ ∀ key ∈ keys, after (searchKey key) line ≠ none

instance (line : List Char) : Decidable (Accepted line) := inferInstanceAs (Decidable (_ ∧ _))

/-- A state of the parser that has read the line. -/
structure Reads (line : List Char) (t : GPSParser δ) : Prop where
  time : reading atof kTime line = some t.time
  lat : reading atof kLat line = some t.location.latitude
  lon : reading atof kLon line = some t.location.longitude
  speed : reading atof kSpeed line = some t.speed

theorem reading_ne_none {key line : List Char} :
    reading atof key line ≠ none ↔ after (searchKey key) line ≠ none := by
  unfold reading
  rw [ne_eq, Option.map_eq_none_iff]

/-- `ParseLine` returns true just on the lines that it accepts, with the readings of the
line, and else it keeps the fix that it has. -/
theorem parseLine_cases (s : GPSParser δ) (line : List Char) :
    (Accepted line ∧ (parseLine atof s line).2 = true ∧ Reads atof line (parseLine atof s line).1) ∨
    (¬Accepted line ∧ (parseLine atof s line).2 = false ∧
      (parseLine atof s line).1.time = s.time ∧ (parseLine atof s line).1.location = s.location ∧
        (parseLine atof s line).1.speed = s.speed) := by
  unfold parseLine
  dsimp only
  by_cases hv : isValidLine (splitLine line [','])
  · have hclass := (isValidLine_iff line).mp hv
    have hsplit : splitLine line [','] = line.splitOn ',' := by
      refine splitFrom_eq (.inr fun h => ?_)
      obtain ⟨s, rfl⟩ := List.head?_eq_some_iff.mp h
      exact hclass (after_nil (by decide))
    rw [if_pos hv, hsplit, foldl_next]
    simp only [Option.none_or]
    rw [getValue_splitOn atof (by decide), getValue_splitOn atof (by decide),
      getValue_splitOn atof (by decide), getValue_splitOn atof (by decide)]
    have hfound : ∀ {key : List Char} {v : δ}, reading atof key line = some v →
        after (searchKey key) line ≠ none := by
      intro key v hv
      rw [← reading_ne_none atof, hv]
      nofun
    split
    · rename_i time lat lon speed hf
      obtain ⟨ht, hlat, hlon, hspeed⟩ := Fields.mk.inj hf
      have hkeys : ∀ key ∈ keys, after (searchKey key) line ≠ none :=
        keys_all.mpr ⟨hfound ht, hfound hlat, hfound hlon, hfound hspeed⟩
      exact .inl ⟨⟨hclass, hkeys⟩, rfl, ⟨ht, hlat, hlon, hspeed⟩⟩
    · rename_i hno
      refine .inr ⟨fun hacc => ?_, rfl, rfl, rfl, rfl⟩
      have hsome : ∀ key ∈ keys, ∃ v, reading atof key line = some v := fun key hk =>
        Option.ne_none_iff_exists'.mp ((reading_ne_none atof).mpr (hacc.2 key hk))
      obtain ⟨⟨time, ht⟩, ⟨lat, hlat⟩, ⟨lon, hlon⟩, ⟨speed, hspeed⟩⟩ := keys_all.mp hsome
      apply hno time lat lon speed
      rw [ht, hlat, hlon, hspeed]
  · rw [if_neg hv]
    exact .inr ⟨fun h => hv ((isValidLine_iff line).mpr h.1), rfl, rfl, rfl, rfl⟩

theorem parseLine_accepted (s : GPSParser δ) {line : List Char} (h : Accepted line) :
    (parseLine atof s line).2 = true := by
  rcases parseLine_cases atof s line with ⟨-, htrue, -⟩ | ⟨hno, -⟩
  · exact htrue
  · exact absurd h hno

/-! ## What the parser finds in a chunk -/

/-- The conversion stops at a closing brace, which is part of no number. -/
def StopsAtBrace : Prop := ∀ v w, atof (v ++ '}' :: w) = atof v

/-- The text that a member shows behind the key, up to a comma. -/
def Member.shows (key : List Char) (m : Member) : Option (List Char) :=
  (after (searchKey key) m.text).map (before ',')

/-- The text that the first member of the chunk shows that has the key. -/
def Chunk.shown (c : Chunk) (key : List Char) : Option (List Char) :=
  c.reports.findSome? fun r => r.members.findSome? (Member.shows key)

theorem reading_nil (key : List Char) : reading atof key [] = none := by
  unfold reading
  rw [after_nil (searchKey_ne_nil key)]
  rfl

/-- A character that is not in the key is skipped. -/
theorem reading_cons {key : List Char} {c : Char} (hc : c ∉ searchKey key) (t : List Char) :
    reading atof key (c :: t) = reading atof key t := by
  have hne := searchKey_ne_nil key
  unfold reading
  rw [← List.nil_append (c :: t), after_append_cons hc hne, after_nil hne]
  rfl

theorem reading_comma {key : List Char} (hk : ',' ∉ key) (p t : List Char) :
    reading atof key (p ++ ',' :: t) = (reading atof key p).or (reading atof key t) := by
  unfold reading
  rw [after_append_cons (not_mem_searchKey hk (by decide)) (searchKey_ne_nil key)]
  cases after (searchKey key) p with
  | none => rfl
  | some x =>
    simp only [Option.map_some, Option.some_or, before_append_cons]

theorem before_brace (x t : List Char) : before ',' (x ++ '}' :: t) = before ',' x ∨
    before ',' (x ++ '}' :: t) = before ',' x ++ '}' :: before ',' t := by
  by_cases h : ',' ∈ x
  · obtain ⟨p, q, rfl, -⟩ := List.eq_append_cons_of_mem h
    rw [List.append_assoc, List.cons_append, before_append_cons, before_append_cons]
    exact .inl rfl
  · rw [before_of_not_mem h]
    right
    unfold before
    rw [List.takeWhile_append_of_pos]
    · rfl
    · intro a ha
      rw [decide_eq_true_eq]
      rintro rfl
      exact h ha

theorem reading_brace (hatof : StopsAtBrace atof) {key : List Char} (hk : '}' ∉ key)
    (p t : List Char) :
    reading atof key (p ++ '}' :: t) = (reading atof key p).or (reading atof key t) := by
  unfold reading
  rw [after_append_cons (not_mem_searchKey hk (by decide)) (searchKey_ne_nil key)]
  cases after (searchKey key) p with
  | none => rfl
  | some x =>
    simp only [Option.map_some, Option.some_or]
    rcases before_brace x t with he | he
    · rw [he]
    · rw [he, hatof]

/-- The characters that separate are not in the key. -/
structure Plain (key : List Char) : Prop where
  comma : ',' ∉ key
  opening : '{' ∉ key
  closing : '}' ∉ key
  newline : '\n' ∉ key

theorem keys_plain : ∀ key ∈ keys, Plain key := by
  refine keys_all.mpr ⟨?_, ?_, ?_, ?_⟩
  all_goals exact ⟨by decide, by decide, by decide, by decide⟩

theorem members_reading {key : List Char} (hk : ',' ∉ key) (ms : List Member) :
    reading atof key ([','].intercalate (ms.map Member.text)) =
      (ms.findSome? (Member.shows key)).map atof := by
  have hone : ∀ m : Member, reading atof key m.text = (m.shows key).map atof := by
    intro m
    unfold reading Member.shows
    rw [Option.map_map]
    rfl
  induction ms with
  | nil => exact reading_nil atof key
  | cons m ms ih =>
    cases ms with
    | nil =>
      rw [List.map_singleton, List.intercalate_singleton, hone, List.findSome?_singleton]
    | cons m' ms =>
      rw [List.map_cons, List.map_cons, List.intercalate_cons_cons, ← List.map_cons,
        List.append_assoc, List.singleton_append, reading_comma atof hk, ih, hone,
        findSome?_cons_or _ m]
      cases m.shows key <;> rfl

/-- Behind a report the search goes on with the rest of the chunk. -/
theorem report_reading (hatof : StopsAtBrace atof) {key : List Char} (hk : Plain key) (r : Report)
    (rest : List Char) : reading atof key (r.text ++ rest) =
      ((r.members.findSome? (Member.shows key)).map atof).or (reading atof key rest) := by
  unfold Report.text
  rw [List.append_assoc, List.singleton_append, List.cons_append,
    reading_cons atof (not_mem_searchKey hk.opening (by decide)),
    reading_brace atof hatof hk.closing, members_reading atof hk.comma]

/-- The parser reads for a key what the first member of the chunk shows that has it. -/
theorem chunk_reading (hatof : StopsAtBrace atof) {key : List Char} (hk : Plain key) (c : Chunk) :
    reading atof key c.text = (c.shown key).map atof := by
  have hnewline : '\n' ∉ searchKey key := not_mem_searchKey hk.newline (by decide)
  obtain ⟨rs, ends⟩ := c
  unfold Chunk.text Chunk.shown
  have htail : reading atof key (if ends then ['\n'] else []) = none := by
    cases ends with
    | false => exact reading_nil atof key
    | true => exact (reading_cons atof hnewline []).trans (reading_nil atof key)
  dsimp only
  generalize (if ends then ['\n'] else []) = tail at htail
  induction rs with
  | nil => exact htail
  | cons r rs ih =>
    cases rs with
    | nil =>
      rw [List.map_singleton, List.intercalate_singleton, report_reading atof hatof hk, htail,
        Option.or_none, List.findSome?_singleton]
    | cons r' rs =>
      rw [List.map_cons, List.map_cons, List.intercalate_cons_cons, ← List.map_cons,
        List.append_assoc, List.append_assoc, report_reading atof hatof hk, List.singleton_append,
        reading_cons atof hnewline, ih, findSome?_cons_or _ r]
      cases r.members.findSome? (Member.shows key) <;> rfl

/-! ## One report -/

/-- The object has a member with the name and the value. -/
def Report.Has (r : Report) (name value : List Char) : Prop :=
  ∃ m ∈ r.members, m.name = name ∧ m.value = value

def kClass : List Char := ['c', 'l', 'a', 's', 's']

def kTPV : List Char := ['"', 'T', 'P', 'V', '"']

def Report.IsTPV (r : Report) : Prop := r.Has kClass kTPV

/-- The fix is that of the report. -/
structure FixOf (r : Report) (t : GPSParser δ) : Prop where
  tpv : r.IsTPV
  time : ∃ v, r.Has kTime v ∧ t.time = atof v
  lat : ∃ v, r.Has kLat v ∧ t.location.latitude = atof v
  lon : ∃ v, r.Has kLon v ∧ t.location.longitude = atof v
  speed : ∃ v, r.Has kSpeed v ∧ t.speed = atof v

/-- A fix is taken from the first report of the chunk alone, or the old one stays. -/
structure FromOneReport (c : Chunk) (s : GPSParser δ) (res : GPSParser δ × Bool) : Prop where
  fix : res.2 = true → ∃ r ∈ c.reports.head?, FixOf atof r res.1
  kept : res.2 = false →
    res.1.time = s.time ∧ res.1.location = s.location ∧ res.1.speed = s.speed

/-- The first report is of class TPV, and for each key the first member of the chunk that
has it shows the value of the member of the first report that is named so. -/
def ShowsFirst (c : Chunk) : Prop :=
  ∃ r ∈ c.reports.head?, r.IsTPV ∧ ∀ key ∈ keys, ∃ v, r.Has key v ∧
    (c.shown key).map atof = some (atof v)

/-- What was read for a key is a value of the report just when the chunk shows that value. -/
theorem value_iff {c : Chunk} {r : Report} {key : List Char} {x : δ}
    (hx : (c.shown key).map atof = some x) : (∃ v, r.Has key v ∧ x = atof v) ↔
      ∃ v, r.Has key v ∧ (c.shown key).map atof = some (atof v) := by
  rw [hx]
  simp only [Option.some.injEq]

theorem Reads.fixOf_iff {c : Chunk} {r : Report} {t : GPSParser δ}
    (hshown : ∀ key ∈ keys, reading atof key c.text = (c.shown key).map atof)
    (h : Reads atof c.text t) : FixOf atof r t ↔ r.IsTPV ∧
      ∀ key ∈ keys, ∃ v, r.Has key v ∧ (c.shown key).map atof = some (atof v) := by
  obtain ⟨htime, hlat, hlon, hspeed⟩ := keys_all.mp hshown
  rw [keys_all, ← value_iff atof (htime.symm.trans h.time),
    ← value_iff atof (hlat.symm.trans h.lat), ← value_iff atof (hlon.symm.trans h.lon),
    ← value_iff atof (hspeed.symm.trans h.speed)]
  constructor
  · intro hf
    exact ⟨hf.tpv, hf.time, hf.lat, hf.lon, hf.speed⟩
  · rintro ⟨htpv, htime, hlat, hlon, hspeed⟩
    exact ⟨htpv, htime, hlat, hlon, hspeed⟩

/-- A fix is of one report just when the parser refuses the chunk, or the chunk shows the
values of its first report first. -/
theorem a_fix_is_of_one_report_iff (hatof : StopsAtBrace atof) (s : GPSParser δ) (c : Chunk) :
    FromOneReport atof c s (parseLine atof s c.text) ↔ (Accepted c.text → ShowsFirst atof c) := by
  have hshown : ∀ key ∈ keys, reading atof key c.text = (c.shown key).map atof :=
    fun key hk => chunk_reading atof hatof (keys_plain key hk) c
  rcases parseLine_cases atof s c.text with ⟨hacc, htrue, hreads⟩ | ⟨hno, hfalse, hkept⟩
  · constructor
    · intro h _
      obtain ⟨r, hr, hfix⟩ := h.fix htrue
      exact ⟨r, hr, (hreads.fixOf_iff atof hshown).mp hfix⟩
    · intro h
      obtain ⟨r, hr, hfirst⟩ := h hacc
      refine ⟨fun _ => ⟨r, hr, (hreads.fixOf_iff atof hshown).mpr hfirst⟩, fun hf => ?_⟩
      rw [htrue] at hf
      cases hf
  · refine iff_of_true ⟨fun h => ?_, fun _ => hkept⟩ fun h => absurd h hno
    rw [hfalse] at h
    cases h

/-- A member shows its value behind its own name. -/
theorem Member.shows_name (m : Member) (hne : m.name ≠ []) (hq : '"' ∉ m.name) :
    m.shows m.name = some m.value := by
  have hno : ¬searchKey m.name <+: m.text := by
    obtain ⟨c, name, hname⟩ := List.exists_cons_of_ne_nil hne
    unfold searchKey Member.text
    rw [hname, List.cons_append, List.cons_append, List.cons_append, List.cons_prefix_cons]
    rintro ⟨rfl, -⟩
    apply hq
    rw [hname]
    exact List.mem_cons_self
  have htext : m.text = '"' :: (searchKey m.name ++ m.value) := rfl
  unfold Member.shows
  rw [htext] at hno ⊢
  rw [after_cons, if_neg hno, after_append (searchKey_ne_nil m.name), Option.map_some,
    before_of_not_mem m.no_comma]

/-- A first report that has every key, each in the member of its name only, is read as it
is, whatever follows it. -/
theorem a_whole_first_report_is_read {c : Chunk} {r : Report} (hr : c.reports.head? = some r)
    (htpv : r.IsTPV) (hkeys : ∀ key ∈ keys, ∃ m ∈ r.members, m.name = key)
    (honly : ∀ key ∈ keys, ∀ m ∈ r.members, m.shows key ≠ none → m.name = key) :
    ShowsFirst atof c := by
  obtain ⟨rs, hrs⟩ := List.head?_eq_some_iff.mp hr
  have hplain : ∀ key ∈ keys, key ≠ [] ∧ '"' ∉ key := by
    refine keys_all.mpr ⟨?_, ?_, ?_, ?_⟩
    all_goals exact ⟨by decide, by decide⟩
  refine ⟨r, hr, htpv, fun key hk => ?_⟩
  have hown : ∀ m ∈ r.members, m.name = key → m.shows key = some m.value := by
    rintro m hm rfl
    obtain ⟨hne, hq⟩ := hplain _ hk
    exact m.shows_name hne hq
  obtain ⟨m, hm, hname⟩ := hkeys key hk
  have hsome : (r.members.findSome? (Member.shows key)).isSome := by
    rw [List.findSome?_isSome_iff]
    exact ⟨m, hm, by rw [hown m hm hname]; rfl⟩
  obtain ⟨x, hx⟩ := Option.isSome_iff_exists.mp hsome
  obtain ⟨m', hm', hshows⟩ := List.exists_of_findSome?_eq_some hx
  have hname' := honly key hk m' hm' (by rw [hshows]; nofun)
  refine ⟨m'.value, ⟨m', hm', hname', rfl⟩, ?_⟩
  have hshown : c.shown key = some x := by
    unfold Chunk.shown
    rw [hrs, findSome?_cons_or, hx, Option.some_or]
  rw [hshown, ← hshows, hown m' hm' hname']
  rfl

end conversion

/-! ## A whole report, and two halves -/

/-- The value of a text that starts with a natural number. -/
def digits (v : List Char) : Nat :=
  (v.takeWhile Char.isDigit).foldl (fun n c => 10 * n + (c.toNat - 48)) 0

theorem digits_stops : StopsAtBrace digits := by
  intro v w
  unfold digits
  rw [takeWhile_append_cons rfl]

def noFix : GPSParser Nat := ⟨0, ⟨0, 0⟩, 0, []⟩

def tpv : Member := ⟨kClass, kTPV, by decide, by decide⟩

def number (name : List Char) (c : Char) (h : ',' ∉ [c]) (h' : '\n' ∉ [c]) : Member :=
  ⟨name, [c], h, h'⟩

def wholeReport : Report where
  members := [tpv, number kTime '1' (by decide) (by decide),
    number kLat '2' (by decide) (by decide),
    number kLon '3' (by decide) (by decide),
    number kSpeed '4' (by decide) (by decide)]
  unique := by decide

def whole : Chunk := ⟨[wholeReport], true⟩

theorem a_whole_report_gives_its_fix : (parseLine digits noFix whole.text).2 = true ∧
    FromOneReport digits whole noFix (parseLine digits noFix whole.text) := by
  have hshows : ShowsFirst digits whole :=
    a_whole_first_report_is_read digits rfl ⟨tpv, List.mem_cons_self, rfl, rfl⟩
      (by decide) (by decide)
  exact ⟨parseLine_accepted digits noFix (by decide),
    (a_fix_is_of_one_report_iff digits digits_stops noFix whole).mpr fun _ => hshows⟩

/-- A report with the place missing, and one with nothing but the rest. -/
def halves : Chunk where
  reports := [
    ⟨[tpv, number kTime '1' (by decide) (by decide),
      number kLat '2' (by decide) (by decide)], by decide⟩,
    ⟨[tpv, number kLon '3' (by decide) (by decide),
      number kSpeed '4' (by decide) (by decide)], by decide⟩]
  ends := true

/-- A fix is put together from two reports. -/
theorem two_halves_give_a_fix : ¬∀ (δ : Type) (atof : List Char → δ), StopsAtBrace atof →
    ∀ (s : GPSParser δ) (c : Chunk), FromOneReport atof c s (parseLine atof s c.text) := by
  intro hall
  have h := hall Nat digits digits_stops noFix halves
  obtain ⟨r, hr, hfix⟩ := h.fix (parseLine_accepted digits noFix (by decide))
  obtain ⟨v, ⟨m, hm, hname, -⟩, -⟩ := hfix.lon
  have hno : ∀ r ∈ halves.reports.head?, ∀ m ∈ r.members, m.name ≠ kLon := by
    rintro r ⟨⟩
    decide
  exact hno r hr m hm hname

end wspace_client.gps

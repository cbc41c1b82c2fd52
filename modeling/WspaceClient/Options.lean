-- The constructor of `WspaceClient`: the options in their order, with the checks
-- that end the process. What it accepts gives every radio its own context and
-- its own settings, and pairs the addresses with the base stations.
import WspaceClient.RxRawBuf

namespace wspace_client.options

open rx_raw_buf

/-! ## Texts of the command line -/

/-- `getline` at the commas, until it fails. A last comma ends a line and starts none. -/
def getlines : List Char → List (List Char)
  | [] => []
  | c :: s =>
    if c = ',' then [] :: getlines s
    else
      match getlines s with
      | [] => [[c]]
      | t :: ts => (c :: t) :: ts

def isSpace (c : Char) : Bool := c = ' ' || (9 ≤ c.toNat && c.toNat ≤ 13)

def digits (s : List Char) : Nat :=
  (s.takeWhile Char.isDigit).foldl (fun n c => 10 * n + (c.toNat - '0'.toNat)) 0

/-- `strtol` in base 10: the number, or the end of the range of a `long`. -/
def strtol (s : List Char) : Int :=
  let x : Int :=
    match s.dropWhile isSpace with
    | '-' :: r => -digits r
    | '+' :: r => digits r
    | r => digits r
  max (-2 ^ 63) (min (2 ^ 63 - 1) x)

/-- `atoi`: what an `int` keeps of the result of `strtol`. -/
def atoi (s : List Char) : Int := (strtol s).bmod (2 ^ 32)

/-- What a `uint8` keeps of a number. -/
def uint8 (x : Int) : Nat := (x % 2 ^ 8).toNat

/-! ## Tables -/

/-- A `map` by its entries, which have different keys. -/
abbrev Table (β : Type) := List (Int × β)

section tables

variable {β : Type}

def Table.get (t : Table β) (k : Int) : Option β := (t.find? fun e => e.1 = k).map (·.2)

/-- `t[k] = v`. -/
def Table.set (t : Table β) (k : Int) (v : β) : Table β := (k, v) :: t.filter fun e => e.1 ≠ k

/-- The same change to every entry. -/
def Table.each (t : Table β) (f : β → β) : Table β := t.map fun e => (e.1, f e.2)

@[simp] theorem get_nil (k : Int) : Table.get ([] : Table β) k = none := rfl

@[simp] theorem get_set_self (t : Table β) (k : Int) (v : β) : (t.set k v).get k = some v := by
  simp [Table.get, Table.set]

theorem get_set_ne (t : Table β) {k j : Int} (v : β) (h : j ≠ k) :
    (t.set k v).get j = t.get j := by
  have hkeys : (fun e : Int × β => decide (decide (e.1 ≠ k) = true ∧ decide (e.1 = j) = true)) =
      fun e => decide (e.1 = j) := by
    funext e
    by_cases he : e.1 = j <;> simp [he, h]
  unfold Table.get Table.set
  rw [List.find?_cons_of_neg (by simpa using fun he => h he.symm), List.find?_filter, hkeys]

theorem get_each (t : Table β) (f : β → β) (k : Int) : (t.each f).get k = (t.get k).map f := by
  unfold Table.get Table.each
  rw [List.find?_map, Option.map_map, Option.map_map]
  rfl

theorem mem_of_get {t : Table β} {k : Int} {v : β} (h : t.get k = some v) : (k, v) ∈ t := by
  obtain ⟨e, he, rfl⟩ := Option.map_eq_some_iff.mp h
  have hk := List.find?_some he
  simp only [decide_eq_true_eq] at hk
  rw [← hk]
  exact List.mem_of_find?_eq_some he

end tables

/-! ## The constructor -/

def MAX_RADIO : Nat := 3

def IFNAMSIZ : Nat := 16

def PORT_ETH : Nat := 55554

/-- The context of a radio. Its other parts do not depend on the options. -/
structure RadioContext where
  bs_id : Int
  raw_pkt_buf : RxRawBuf

def newRadioContext (bs_id : Int) : RadioContext := ⟨bs_id, start 1⟩

def RadioContext.set_max_send_cnt (r : RadioContext) (max_send_cnt : Nat) : RadioContext :=
  { r with raw_pkt_buf := { r.raw_pkt_buf with max_send_cnt } }

/-- `sockaddr_in`, with the address as the text that `inet_addr` reads. -/
structure Addr where
  ip : List Char
  port : Nat
  deriving DecidableEq

structure Tun where
  if_name : List Char
  controller_ip_eth : List Char
  client_id : Int
  port_eth : Nat
  bs_ip_tbl : Table (List Char)
  bs_addr_tbl : Table Addr
  radio_ids : List Int

structure WspaceClient where
  tun : Tun
  ack_time_out : Int
  block_time : Int
  max_ack_cnt : Nat
  min_pkt_cnt : Int
  bs_ids : List Int
  radio_context_tbl : Table RadioContext
  is_fixed_speed : Bool
  f_gps : List Char

/-- The members before the loop over the options. The constructor leaves the
times, `max_ack_cnt_` and the speed of the GPS parser to chance. -/
structure WspaceClient.Fresh (w : WspaceClient) : Prop where
  tun : w.tun = ⟨[], [], 0, PORT_ETH, [], [], []⟩
  min_pkt_cnt : w.min_pkt_cnt = 30
  bs_ids : w.bs_ids = []
  radio_context_tbl : w.radio_context_tbl = []
  f_gps : w.f_gps = []

/-- How the constructor ends the process. -/
inductive Abort
  /-- `Perror("Need to set number of radios before setting raw_pkt_buf_ of
  radio_context_tbl_\\n")`. -/
  | needRadios
  /-- `assert(min_pkt_cnt_ > 0)`. -/
  | minPktCnt
  /-- `Perror("id 1 is reserved by controller\\n")`. -/
  | reservedId
  /-- `Perror("WspaceClient::ParseIP: Need to indicate ids first!\\n")`. -/
  | needIds
  /-- `Perror("WspaceClient::ParseIP: Too many input addresses\\n")`. -/
  | tooManyAddresses
  /-- `Perror("Usage: %s -i tun0/tap0 -S server_eth_ip -s server_ath_ip -C client_eth_ip\\n")`. -/
  | usage
  /-- The assertion on the members that must be set. -/
  | missing
  /-- `assert(strlen(it->second.c_str()))`. -/
  | emptyAddress
  /-- `Perror("Need to revise 901-base.patch to enable more radios!\\n")`. -/
  | tooManyRadios
  deriving DecidableEq

/-- What `getopt` returns, and `optarg`. -/
structure Opt where
  option : Char
  optarg : List Char

/-- The loop of the option `s` over the ids. -/
def addRadios (w : WspaceClient) : List (List Char) → Except Abort WspaceClient
  | [] => .ok w
  | s :: ss =>
    let bs_id := atoi s
    if bs_id = 1 then .error .reservedId
    else
      let radio_id := bs_id
      addRadios { w with
        bs_ids := w.bs_ids ++ [bs_id]
        tun := { w.tun with radio_ids := w.tun.radio_ids ++ [radio_id] }
        radio_context_tbl := w.radio_context_tbl.set radio_id (newRadioContext bs_id) } ss

/-- `CreateAddr` of a destination. -/
def createAddr (ip : List Char) (port : Nat) : Addr := ⟨ip, port⟩

/-- The loop of `ParseIP`, with the ids that are left for it. -/
def parseAddrs (tun : Tun) : List Int → List (List Char) → Except Abort Tun
  | _, [] => .ok tun
  | [], _ :: _ => .error .tooManyAddresses
  | id :: ids, addr :: addrs =>
    parseAddrs { tun with
      bs_ip_tbl := tun.bs_ip_tbl.set id addr
      bs_addr_tbl := tun.bs_addr_tbl.set id (createAddr addr tun.port_eth) } ids addrs

def parseIP (w : WspaceClient) (optarg : List Char) : Except Abort WspaceClient :=
  if w.bs_ids.isEmpty then .error .needIds
  else do
    let tun ← parseAddrs w.tun w.bs_ids (getlines optarg)
    return { w with tun }

/-- One turn of the loop over the options. -/
def step (w : WspaceClient) (o : Opt) : Except Abort WspaceClient :=
  match o.option with
  | 'T' => .ok { w with ack_time_out := atoi o.optarg }
  | 'B' => .ok { w with block_time := atoi o.optarg }
  | 'i' => .ok { w with tun := { w.tun with if_name := o.optarg.take (IFNAMSIZ - 1) } }
  | 'I' => .ok { w with tun := { w.tun with client_id := atoi o.optarg } }
  | 'C' => .ok { w with tun := { w.tun with controller_ip_eth := o.optarg.take 16 } }
  | 'A' =>
    if w.tun.radio_ids.isEmpty then .error .needRadios
    else
      let max_ack_cnt := uint8 (atoi o.optarg)
      .ok { w with
        max_ack_cnt
        radio_context_tbl := w.radio_context_tbl.each (·.set_max_send_cnt max_ack_cnt) }
  | 'p' => .ok { w with is_fixed_speed := false, f_gps := o.optarg }
  | 'n' =>
    if atoi o.optarg > 0 then .ok { w with min_pkt_cnt := atoi o.optarg } else .error .minPktCnt
  | 's' => addRadios w (getlines o.optarg)
  | 'S' => parseIP w o.optarg
  | _ => .error .usage

/-- The checks behind the loop. -/
def check (w : WspaceClient) : Except Abort WspaceClient :=
  if w.tun.if_name.isEmpty ∨ w.tun.controller_ip_eth.isEmpty ∨ w.tun.client_id = 0 ∨
      w.tun.bs_ip_tbl.isEmpty ∨ w.tun.radio_ids.isEmpty then .error .missing
  else if w.tun.bs_ip_tbl.any fun e => e.2.isEmpty then .error .emptyAddress
  else if w.tun.radio_ids.length > MAX_RADIO then .error .tooManyRadios
  else .ok w

/-- The constructor. -/
def construct (w : WspaceClient) (opts : List Opt) : Except Abort WspaceClient := do
  let w ← opts.foldlM step w
  check w

/-! ## What the options say -/

/-- The base stations that an option adds. -/
def mentions (o : Opt) : List Int :=
  if o.option = 's' then (getlines o.optarg).map atoi else []

def ids (opts : List Opt) : List Int := opts.flatMap mentions

/-- The argument of the last option `c`. -/
def lastOf (c : Char) : List Opt → Option (List Char)
  | [] => none
  | o :: opts => (lastOf c opts).or (if o.option = c then some o.optarg else none)

/-! ## One turn -/

/-- What most options leave alone. -/
structure Same (w w' : WspaceClient) : Prop where
  bs_ids : w'.bs_ids = w.bs_ids
  radio_ids : w'.tun.radio_ids = w.tun.radio_ids
  radio_context_tbl : w'.radio_context_tbl = w.radio_context_tbl
  bs_ip_tbl : w'.tun.bs_ip_tbl = w.tun.bs_ip_tbl
  bs_addr_tbl : w'.tun.bs_addr_tbl = w.tun.bs_addr_tbl
  port_eth : w'.tun.port_eth = w.tun.port_eth
  client_id : w'.tun.client_id = w.tun.client_id
  min_pkt_cnt : w'.min_pkt_cnt = w.min_pkt_cnt

/-- The radios of `s`, after the ones that were there. -/
structure Added (w : WspaceClient) (new : List Int) (w' : WspaceClient) : Prop where
  bs_ids : w'.bs_ids = w.bs_ids ++ new
  tun : w'.tun = { w.tun with radio_ids := w.tun.radio_ids ++ new }
  contexts : ∀ id, w'.radio_context_tbl.get id =
    if id ∈ new then some (newRadioContext id) else w.radio_context_tbl.get id
  min_pkt_cnt : w'.min_pkt_cnt = w.min_pkt_cnt
  reserved : 1 ∉ new

/-- The addresses of `S`, with the ids in their order. -/
structure Paired (tun : Tun) (ids : List Int) (addrs : List (List Char)) (tun' : Tun) : Prop where
  radio_ids : tun'.radio_ids = tun.radio_ids
  client_id : tun'.client_id = tun.client_id
  port_eth : tun'.port_eth = tun.port_eth
  known : ∀ id ip, tun'.bs_ip_tbl.get id = some ip → id ∈ ids ∨ tun.bs_ip_tbl.get id = some ip
  kept : ∀ id, (∀ j < addrs.length, ids[j]? ≠ some id) →
    tun'.bs_ip_tbl.get id = tun.bs_ip_tbl.get id
  /-- The last position of an id decides its address. -/
  pairs : ∀ (i : Nat) (id : Int) (ip : List Char), ids[i]? = some id → addrs[i]? = some ip →
    (∀ j < addrs.length, i < j → ids[j]? ≠ some id) → tun'.bs_ip_tbl.get id = some ip
  addrs : (∀ id, tun.bs_addr_tbl.get id =
      (tun.bs_ip_tbl.get id).map fun ip => createAddr ip tun.port_eth) →
    ∀ id, tun'.bs_addr_tbl.get id =
      (tun'.bs_ip_tbl.get id).map fun ip => createAddr ip tun'.port_eth

theorem addRadios_added {w w' : WspaceClient} {ss : List (List Char)}
    (h : addRadios w ss = .ok w') : Added w (ss.map atoi) w' := by
  induction ss generalizing w with
  | nil =>
    cases h
    exact ⟨by simp, by simp, by simp, rfl, by simp⟩
  | cons s ss ih =>
    unfold addRadios at h
    simp only at h
    split at h
    · cases h
    · rename_i hone
      obtain ⟨hbs, htun, hctx, hmin, hres⟩ := ih h
      refine ⟨by simp [hbs], by simp [htun], fun id => ?_, hmin, ?_⟩
      · rw [hctx]
        by_cases hin : id ∈ ss.map atoi
        · rw [if_pos hin, List.map_cons, if_pos (List.mem_cons_of_mem _ hin)]
        · by_cases hid : id = atoi s
          · subst hid
            rw [if_neg hin, get_set_self, List.map_cons, if_pos List.mem_cons_self]
          · rw [if_neg hin, get_set_ne _ _ hid, List.map_cons, if_neg]
            simp only [List.mem_cons, not_or]
            exact ⟨hid, hin⟩
      · rw [List.map_cons, List.mem_cons, not_or]
        exact ⟨fun he => hone he.symm, hres⟩

theorem parseAddrs_paired {tun tun' : Tun} {ids : List Int} {addrs : List (List Char)}
    (h : parseAddrs tun ids addrs = .ok tun') : Paired tun ids addrs tun' := by
  induction addrs generalizing tun ids with
  | nil =>
    cases ids <;> cases h <;> exact ⟨rfl, rfl, rfl, fun _ _ h => .inr h, fun _ _ => rfl, by simp,
      fun h => h⟩
  | cons addr addrs ih =>
    cases ids with
    | nil => cases h
    | cons id ids =>
      obtain ⟨hrad, hcl, hport, hknown, hkept, hpairs, haddrs⟩ := ih h
      simp only at hrad hcl hport
      refine ⟨hrad, hcl, hport, fun j ip hj => ?_, fun j hj => ?_, fun i j ip hi ha hlast => ?_,
        fun hold => haddrs fun j => ?_⟩
      · rcases hknown j ip hj with hin | hj
        · exact .inl (List.mem_cons_of_mem _ hin)
        · by_cases hid : j = id
          · exact .inl (hid ▸ List.mem_cons_self)
          · exact .inr (by rwa [get_set_ne _ _ hid] at hj)
      · have hid : j ≠ id := by
          rintro rfl
          exact hj 0 (Nat.succ_pos _) rfl
        rw [hkept j fun i hi => hj (i + 1) (Nat.succ_lt_succ hi), get_set_ne _ _ hid]
      · cases i with
        | zero =>
          simp only [List.getElem?_cons_zero, Option.some.injEq] at hi ha
          subst hi ha
          rw [hkept id fun j hj => hlast (j + 1) (Nat.succ_lt_succ hj) (Nat.succ_pos j),
            get_set_self]
        | succ i =>
          rw [List.getElem?_cons_succ] at hi ha
          exact hpairs i j ip hi ha fun j' hj' hij =>
            hlast (j' + 1) (Nat.succ_lt_succ hj') (Nat.succ_lt_succ hij)
      · by_cases hid : j = id
        · subst hid
          rw [get_set_self, get_set_self]
          rfl
        · rw [get_set_ne _ _ hid, get_set_ne _ _ hid]
          exact hold j

/-- The ways a turn can go. -/
inductive Turn (w : WspaceClient) : Opt → WspaceClient → Prop
  | other {o : Opt} {w' : WspaceClient} (h : o.option ∉ ['I', 'A', 'n', 's', 'S'])
      (same : Same w w') : Turn w o w'
  | clientId (a : List Char) :
      Turn w ⟨'I', a⟩ { w with tun := { w.tun with client_id := atoi a } }
  | maxAckCnt (a : List Char) :
      Turn w ⟨'A', a⟩ { w with
        max_ack_cnt := uint8 (atoi a)
        radio_context_tbl := w.radio_context_tbl.each (·.set_max_send_cnt (uint8 (atoi a))) }
  | minPktCnt {a : List Char} (h : 0 < atoi a) : Turn w ⟨'n', a⟩ { w with min_pkt_cnt := atoi a }
  | radios {a : List Char} {w' : WspaceClient} (added : Added w ((getlines a).map atoi) w') :
      Turn w ⟨'s', a⟩ w'
  | addresses {a : List Char} {tun : Tun} (paired : Paired w.tun w.bs_ids (getlines a) tun) :
      Turn w ⟨'S', a⟩ { w with tun }

theorem step_turn {w w' : WspaceClient} {o : Opt} (h : step w o = .ok w') : Turn w o w' := by
  obtain ⟨c, a⟩ := o
  unfold step at h
  dsimp only at h
  -- The cases are the options in the order of the code: 4 is `I`, 6 is `A`, 8 is
  -- `n`, 9 is `s`, 10 is `S`, and 11 is any other letter.
  split at h
  case h_4 =>
    cases h
    exact .clientId a
  case h_6 =>
    split at h
    · cases h
    · cases h
      exact .maxAckCnt a
  case h_8 =>
    split at h
    · rename_i hpos
      cases h
      exact .minPktCnt hpos
    · cases h
  case h_9 => exact .radios (addRadios_added h)
  case h_10 =>
    unfold parseIP at h
    split at h
    · cases h
    · cases htun : parseAddrs w.tun w.bs_ids (getlines a) with
      | error e =>
        rw [htun] at h
        cases h
      | ok tun =>
        rw [htun] at h
        cases h
        exact .addresses (parseAddrs_paired htun)
  case h_11 => cases h
  all_goals
    cases h
    exact .other (by simp) ⟨rfl, rfl, rfl, rfl, rfl, rfl, rfl, rfl⟩

/-! ## What every turn keeps -/

/-- The radios are the ones of the ids, and nothing else is in the tables. -/
structure Configured (is : List Int) (w : WspaceClient) : Prop where
  bs_ids : w.bs_ids = is
  radio_ids : w.tun.radio_ids = is
  reserved : 1 ∉ is
  known : ∀ id, id ∉ is → w.radio_context_tbl.get id = none
  addressed : ∀ id ip, w.tun.bs_ip_tbl.get id = some ip → id ∈ is
  addrs : ∀ id, w.tun.bs_addr_tbl.get id =
    (w.tun.bs_ip_tbl.get id).map fun ip => createAddr ip w.tun.port_eth
  port_eth : w.tun.port_eth = PORT_ETH
  min_pkt_cnt : 0 < w.min_pkt_cnt

theorem fresh_configured {w : WspaceClient} (h : w.Fresh) : Configured [] w := by
  obtain ⟨htun, hmin, hbs, htbl, -⟩ := h
  refine ⟨hbs, by rw [htun], by simp, fun id _ => by rw [htbl]; rfl, ?_, ?_, by rw [htun], ?_⟩
  · intro id ip hid
    rw [htun] at hid
    cases hid
  · intro id
    rw [htun]
    rfl
  · rw [hmin]
    decide

theorem mentions_of_ne {o : Opt} (h : o.option ≠ 's') : mentions o = [] := if_neg h

theorem turn_configured {is : List Int} {w w' : WspaceClient} {o : Opt} (h : Configured is w)
    (ht : Turn w o w') : Configured (is ++ mentions o) w' := by
  obtain ⟨hbs, hrad, hres, hknown, haddressed, haddrs, hport, hmin⟩ := h
  cases ht with
  | other hne same =>
    have hs : o.option ≠ 's' := by
      intro hs
      simp [hs] at hne
    obtain ⟨h1, h2, h3, h4, h5, h6, -, h7⟩ := same
    rw [mentions_of_ne hs, List.append_nil]
    refine ⟨h1.trans hbs, h2.trans hrad, hres, ?_, ?_, ?_, h6.trans hport, ?_⟩
    · rwa [h3]
    · rwa [h4]
    · rwa [h4, h5, h6]
    · rwa [h7]
  | clientId a =>
    rw [mentions_of_ne (show 'I' ≠ 's' by decide), List.append_nil]
    exact ⟨hbs, hrad, hres, hknown, haddressed, haddrs, hport, hmin⟩
  | maxAckCnt a =>
    rw [mentions_of_ne (show 'A' ≠ 's' by decide), List.append_nil]
    refine ⟨hbs, hrad, hres, fun id hid => ?_, haddressed, haddrs, hport, hmin⟩
    rw [get_each, hknown id hid]
    rfl
  | minPktCnt hpos =>
    rw [mentions_of_ne (show 'n' ≠ 's' by decide), List.append_nil]
    exact ⟨hbs, hrad, hres, hknown, haddressed, haddrs, hport, hpos⟩
  | @radios a w' added =>
    obtain ⟨hbs', htun, hctx, hmin', hres'⟩ := added
    have hids : mentions ⟨'s', a⟩ = (getlines a).map atoi := if_pos rfl
    rw [hids]
    refine ⟨by rw [hbs', hbs], by rw [htun, hrad], ?_, fun id hid => ?_, fun id ip hid => ?_, ?_,
      ?_, by rwa [hmin']⟩
    · rw [List.mem_append, not_or]
      exact ⟨hres, hres'⟩
    · rw [List.mem_append, not_or] at hid
      rw [hctx, if_neg hid.2, hknown id hid.1]
    · rw [htun] at hid
      exact List.mem_append_left _ (haddressed id ip hid)
    · rw [htun]
      exact haddrs
    · rw [htun]
      exact hport
  | @addresses a tun paired =>
    rw [mentions_of_ne (show 'S' ≠ 's' by decide), List.append_nil]
    refine ⟨hbs, paired.radio_ids.trans hrad, hres, hknown, fun id ip hid => ?_,
      paired.addrs haddrs, paired.port_eth.trans hport, hmin⟩
    rcases paired.known id ip hid with hin | hold
    · rwa [hbs] at hin
    · exact haddressed id ip hold

theorem foldlM_configured {is : List Int} {opts : List Opt} {w w' : WspaceClient}
    (h : Configured is w) (hf : opts.foldlM step w = .ok w') : Configured (is ++ ids opts) w' := by
  induction opts generalizing is w with
  | nil =>
    cases hf
    simpa [ids] using h
  | cons o opts ih =>
    rw [List.foldlM_cons] at hf
    cases hs : step w o with
    | error e =>
      rw [hs] at hf
      cases hf
    | ok w1 =>
      rw [hs] at hf
      have h1 := ih (turn_configured h (step_turn hs)) hf
      rwa [List.append_assoc] at h1

/-! ## The last option of a kind -/

/-- When the options `c` set something, each to what the option before set, and no
other option touches it, the last `c` decides it. -/
theorem last_setting {α : Type} (f : WspaceClient → α) (c : Char) (set : List Char → α → α)
    (hset : ∀ a b x, set a (set b x) = set a x) {opts : List Opt} {w w' : WspaceClient}
    (hstep : ∀ o ∈ opts, ∀ w w', Turn w o w' →
      f w' = if o.option = c then set o.optarg (f w) else f w)
    (hf : opts.foldlM step w = .ok w') :
    f w' = (lastOf c opts).elim (f w) fun a => set a (f w) := by
  induction opts generalizing w with
  | nil =>
    cases hf
    rfl
  | cons o opts ih =>
    rw [List.foldlM_cons] at hf
    cases hs : step w o with
    | error e =>
      rw [hs] at hf
      cases hf
    | ok w1 =>
      rw [hs] at hf
      have hrest := ih (fun o ho => hstep o (List.mem_cons_of_mem _ ho)) hf
      have hone := hstep o List.mem_cons_self w w1 (step_turn hs)
      rw [hrest, hone, lastOf]
      by_cases hc : o.option = c
      · rw [if_pos hc, if_pos hc]
        cases lastOf c opts with
        | some a => exact hset a o.optarg (f w)
        | none => rfl
      · rw [if_neg hc, if_neg hc, Option.or_none]

/-- The context of a radio after options that do not mention it. -/
theorem context_kept {id : Int} {m : Nat} {opts : List Opt} {w w' : WspaceClient}
    (hno : ∀ o ∈ opts, id ∉ mentions o)
    (h : w.radio_context_tbl.get id = some ⟨id, start m⟩) (hf : opts.foldlM step w = .ok w') :
    w'.radio_context_tbl.get id =
      some ⟨id, start ((lastOf 'A' opts).elim m fun a => uint8 (atoi a))⟩ := by
  have hstep : ∀ o ∈ opts, ∀ w w', Turn w o w' → w'.radio_context_tbl.get id =
      if o.option = 'A' then
        (w.radio_context_tbl.get id).map (·.set_max_send_cnt (uint8 (atoi o.optarg)))
      else w.radio_context_tbl.get id := by
    intro o ho w w' ht
    cases ht with
    | other hne same =>
      have hA : o.option ≠ 'A' := by
        intro hA
        simp [hA] at hne
      rw [if_neg hA, same.radio_context_tbl]
    | clientId a => rfl
    | maxAckCnt a =>
      have hget := get_each w.radio_context_tbl (·.set_max_send_cnt (uint8 (atoi a))) id
      exact hget
    | minPktCnt hpos => rfl
    | @radios a w' added =>
      have hnot := hno _ ho
      rw [mentions, if_pos rfl] at hnot
      have hctx := added.contexts id
      rw [if_neg hnot] at hctx
      exact hctx
    | addresses paired => rfl
  have hlast := last_setting (fun w => w.radio_context_tbl.get id) 'A'
    (fun a r => r.map (·.set_max_send_cnt (uint8 (atoi a)))) (fun a b r => by cases r <;> rfl)
    hstep hf
  rw [hlast, h]
  cases lastOf 'A' opts <;> rfl

theorem minPktCnt_last {opts : List Opt} {w w' : WspaceClient} (hf : opts.foldlM step w = .ok w') :
    w'.min_pkt_cnt = (lastOf 'n' opts).elim w.min_pkt_cnt atoi := by
  refine last_setting (·.min_pkt_cnt) 'n' (fun a _ => atoi a) (fun _ _ _ => rfl) ?_ hf
  intro o _ w w' ht
  cases ht with
  | other hne same =>
    have hn : o.option ≠ 'n' := by
      intro hn
      simp [hn] at hne
    rw [if_neg hn]
    exact same.min_pkt_cnt
  | clientId a => rfl
  | maxAckCnt a => rfl
  | minPktCnt hpos => rfl
  | radios added => exact added.min_pkt_cnt
  | addresses paired => rfl

theorem clientId_last {opts : List Opt} {w w' : WspaceClient} (hf : opts.foldlM step w = .ok w') :
    w'.tun.client_id = (lastOf 'I' opts).elim w.tun.client_id atoi := by
  refine last_setting (·.tun.client_id) 'I' (fun a _ => atoi a) (fun _ _ _ => rfl) ?_ hf
  intro o _ w w' ht
  cases ht with
  | other hne same =>
    have hI : o.option ≠ 'I' := by
      intro hI
      simp [hI] at hne
    rw [if_neg hI]
    exact same.client_id
  | clientId a => rfl
  | maxAckCnt a => rfl
  | minPktCnt hpos => rfl
  | radios added =>
    rw [added.tun]
    rfl
  | addresses paired => exact paired.client_id

/-- Only `S` touches the addresses. -/
theorem addresses_kept {opts : List Opt} {w w' : WspaceClient}
    (hno : ∀ o ∈ opts, o.option ≠ 'S') (hf : opts.foldlM step w = .ok w') :
    w'.tun.bs_ip_tbl = w.tun.bs_ip_tbl := by
  have hstep : ∀ o ∈ opts, ∀ w w', Turn w o w' → w'.tun.bs_ip_tbl =
      if o.option = 'S' then w.tun.bs_ip_tbl else w.tun.bs_ip_tbl := by
    intro o ho w w' ht
    have hS := hno o ho
    rw [if_neg hS]
    cases ht with
    | other hne same => exact same.bs_ip_tbl
    | clientId a => rfl
    | maxAckCnt a => rfl
    | minPktCnt hpos => rfl
    | radios added => rw [added.tun]
    | addresses paired => exact absurd rfl hS
  have hlast := last_setting (·.tun.bs_ip_tbl) 'S' (fun _ t => t) (fun _ _ _ => rfl) hstep hf
  rw [hlast]
  cases lastOf 'S' opts <;> rfl

/-! ## The whole constructor -/

/-- An option of an accepted list made its turn between the ones around it. -/
theorem foldlM_split {pre post : List Opt} {o : Opt} {w w' : WspaceClient}
    (hf : (pre ++ o :: post).foldlM step w = .ok w') :
    ∃ w1 w2, pre.foldlM step w = .ok w1 ∧ Turn w1 o w2 ∧ post.foldlM step w2 = .ok w' := by
  rw [List.foldlM_append] at hf
  cases h1 : pre.foldlM step w with
  | error e =>
    rw [h1] at hf
    cases hf
  | ok w1 =>
    rw [h1] at hf
    change (o :: post).foldlM step w1 = .ok w' at hf
    rw [List.foldlM_cons] at hf
    cases h2 : step w1 o with
    | error e =>
      rw [h2] at hf
      cases hf
    | ok w2 =>
      rw [h2] at hf
      exact ⟨w1, w2, rfl, step_turn h2, hf⟩

/-- A radio that an option mentions has a new context after it. -/
theorem turn_context {w w' : WspaceClient} {o : Opt} {id : Int} (ht : Turn w o w')
    (hid : id ∈ mentions o) : w'.radio_context_tbl.get id = some ⟨id, start 1⟩ := by
  have hs : o.option = 's' := by
    by_contra hs
    rw [mentions_of_ne hs] at hid
    cases hid
  cases ht with
  | other hne => simp [hs] at hne
  | @radios a w' added =>
    rw [mentions, if_pos rfl] at hid
    rw [added.contexts, if_pos hid]
    rfl
  | clientId | maxAckCnt | minPktCnt | addresses => cases hs

/-- What the checks behind the loop let pass. -/
structure Accepted (w : WspaceClient) : Prop where
  client_id : w.tun.client_id ≠ 0
  radio_ids : w.tun.radio_ids ≠ []
  few : w.tun.radio_ids.length ≤ MAX_RADIO
  addresses : ∀ e ∈ w.tun.bs_ip_tbl, e.2 ≠ []

theorem check_accepted {w w' : WspaceClient} (h : check w = .ok w') : w' = w ∧ Accepted w := by
  unfold check at h
  split at h
  · cases h
  · rename_i hset
    split at h
    · cases h
    · rename_i haddr
      split at h
      · cases h
      · rename_i hfew
        cases h
        simp only [not_or, List.isEmpty_iff] at hset
        simp only [List.any_eq_true, List.isEmpty_iff, not_exists, not_and] at haddr
        exact ⟨rfl, hset.2.2.1, hset.2.2.2.2, Nat.le_of_not_lt hfew, haddr⟩

/-- Every accepted list of options gives one to three radios, none of them 1, each
with its own context and nothing else in the table. A context has the limit of
the last option `A` behind the last mention of its radio, and the default when
there is none. Every address belongs to a radio, and the last option `S` pairs its
addresses with the ids before it, in their order: an id that stands there more than
once has the address of its last place that got one. -/
theorem accepted_options_configure_every_radio {w0 w : WspaceClient} {opts : List Opt}
    (h0 : w0.Fresh) (h : construct w0 opts = .ok w) :
    (w.bs_ids = ids opts ∧ w.tun.radio_ids = ids opts ∧ ids opts ≠ [] ∧
      (ids opts).length ≤ MAX_RADIO ∧ 1 ∉ ids opts) ∧
    (∀ id, id ∉ ids opts → w.radio_context_tbl.get id = none) ∧
    (∀ pre o post id, opts = pre ++ o :: post → id ∈ mentions o →
      (∀ o' ∈ post, id ∉ mentions o') →
      w.radio_context_tbl.get id =
        some ⟨id, start ((lastOf 'A' post).elim 1 fun a => uint8 (atoi a))⟩) ∧
    (∀ id ip, w.tun.bs_ip_tbl.get id = some ip → id ∈ ids opts ∧ ip ≠ [] ∧
      w.tun.bs_addr_tbl.get id = some ⟨ip, PORT_ETH⟩) ∧
    (∀ pre a post, opts = pre ++ ⟨'S', a⟩ :: post → (∀ o ∈ post, o.option ≠ 'S') →
      ∀ (i : Nat) (id : Int) (ip : List Char), (ids pre)[i]? = some id →
        (getlines a)[i]? = some ip →
        (∀ j < (getlines a).length, i < j → (ids pre)[j]? ≠ some id) →
        w.tun.bs_ip_tbl.get id = some ip) ∧
    (w.min_pkt_cnt = (lastOf 'n' opts).elim 30 atoi ∧ 0 < w.min_pkt_cnt) ∧
    w.tun.client_id = (lastOf 'I' opts).elim 0 atoi ∧ w.tun.client_id ≠ 0 := by
  have hloop : opts.foldlM step w0 = .ok w ∧ Accepted w := by
    unfold construct at h
    cases hf : opts.foldlM step w0 with
    | error e =>
      rw [hf] at h
      cases h
    | ok w1 =>
      rw [hf] at h
      obtain ⟨rfl, hacc⟩ := check_accepted h
      exact ⟨rfl, hacc⟩
  obtain ⟨hf, hacc⟩ := hloop
  have hconf := foldlM_configured (fresh_configured h0) hf
  rw [List.nil_append] at hconf
  have hrad := hconf.radio_ids
  refine ⟨⟨hconf.bs_ids, hrad, hrad ▸ hacc.radio_ids, hrad ▸ hacc.few, hconf.reserved⟩,
    hconf.known, ?_, ?_, ?_, ⟨?_, hconf.min_pkt_cnt⟩, ?_, hacc.client_id⟩
  · rintro pre o post id rfl hid hno
    obtain ⟨w1, w2, -, ht, hpost⟩ := foldlM_split hf
    exact context_kept hno (turn_context ht hid) hpost
  · intro id ip hip
    refine ⟨hconf.addressed id ip hip, hacc.addresses _ (mem_of_get hip), ?_⟩
    rw [hconf.addrs, hip, hconf.port_eth]
    rfl
  · rintro pre a post rfl hno i id ip hi ha hlast
    obtain ⟨w1, w2, hpre, ht, hpost⟩ := foldlM_split hf
    have hconf1 := foldlM_configured (fresh_configured h0) hpre
    rw [addresses_kept hno hpost]
    cases ht with
    | other hne => simp at hne
    | addresses paired =>
      rw [hconf1.bs_ids, List.nil_append] at paired
      exact paired.pairs i id ip hi ha hlast
  · rw [minPktCnt_last hf, h0.min_pkt_cnt]
  · rw [clientId_last hf, h0.tun]

/-- `-i t -I 9 -C c -s 2,3 -A 5 -s 2 -S x,y,z`. -/
def lateRadio : List Opt :=
  [⟨'i', ['t']⟩, ⟨'I', ['9']⟩, ⟨'C', ['c']⟩, ⟨'s', ['2', ',', '3']⟩, ⟨'A', ['5']⟩, ⟨'s', ['2']⟩,
    ⟨'S', ['x', ',', 'y', ',', 'z']⟩]

/-- A client before its options, in memory full of zeros. -/
def zeroed : WspaceClient :=
  ⟨⟨[], [], 0, PORT_ETH, [], [], []⟩, 0, 0, 0, 30, [], [], true, []⟩

/-- Radio 2 loses the limit of `-A` with its first context, and its address is the
last one. -/
theorem a_late_radio_keeps_its_limit :
    ∃ w, construct zeroed lateRadio = .ok w ∧
      w.radio_context_tbl.get 3 = some ⟨3, start 5⟩ ∧
      w.radio_context_tbl.get 2 = some ⟨2, start 1⟩ ∧
      w.tun.bs_ip_tbl.get 3 = some ['y'] ∧ w.tun.bs_ip_tbl.get 2 = some ['z'] := by
  obtain ⟨w, hw⟩ : ∃ w, construct zeroed lateRadio = .ok w := ⟨_, rfl⟩
  obtain ⟨-, -, hctx, -, haddr, -⟩ :=
    accepted_options_configure_every_radio ⟨rfl, rfl, rfl, rfl, rfl⟩ hw
  refine ⟨w, hw, ?_, ?_, ?_, ?_⟩
  · exact hctx (lateRadio.take 3) ⟨'s', ['2', ',', '3']⟩ (lateRadio.drop 4) 3 rfl (by decide)
      (by decide)
  · exact hctx (lateRadio.take 5) ⟨'s', ['2']⟩ (lateRadio.drop 6) 2 rfl (by decide) (by decide)
  · exact haddr (lateRadio.take 6) ['x', ',', 'y', ',', 'z'] [] rfl (by simp) 1 3 ['y'] rfl rfl
      (by decide)
  · exact haddr (lateRadio.take 6) ['x', ',', 'y', ',', 'z'] [] rfl (by simp) 2 2 ['z'] rfl rfl
      (by decide)

end wspace_client.options

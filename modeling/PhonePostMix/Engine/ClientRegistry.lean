import PhonePostMix.Server.ListenerCalls

/-! The engine's list of clients. Every connection has its own thread, which calls the engine as
its listener; the calls of one connection follow each other, those of two interleave, and the
control thread starts and stops the server beside them. -/

namespace Ppm.Engine
open Server

/-- What the engine uses of `juce::JSON` and `juce::var`. -/
structure Json (V δ : Type) where
  parse : List UInt8 → V
  isObject : V → Bool
  getProperty : V → String → Option V
  toString : V → String
  toInt : V → Int32
  toDouble : V → δ
  toBool : V → Bool

structure ClientInfo (δ : Type) where
  id : BitVec 32
  userAgent : String
  audioPath : String
  bufferMs : Int32
  targetMs : Int32
  underruns : Int32
  driftPpm : δ
  playing : Bool
  deriving DecidableEq, Repr

section Listener
variable {V δ : Type} [Zero δ]

def ClientInfo.new (clientId : BitVec 32) : ClientInfo δ where
  id := clientId
  userAgent := ""
  audioPath := ""
  bufferMs := 0
  targetMs := 0
  underruns := 0
  driftPpm := 0
  playing := false

omit [Zero δ] in
def Json.text (json : Json V δ) (parsed : V) (key : String) : String :=
  (json.getProperty parsed key).elim "" json.toString

omit [Zero δ] in
def Json.int (json : Json V δ) (parsed : V) (key : String) : Int32 :=
  (json.getProperty parsed key).elim 0 json.toInt

def ClientInfo.update (json : Json V δ) (parsed : V) (entry : ClientInfo δ) : ClientInfo δ :=
  let type := json.text parsed "type"
  if type = "ready" then
    { entry with userAgent := json.text parsed "ua", audioPath := json.text parsed "path" }
  else if type = "setLatency" then { entry with targetMs := json.int parsed "ms" }
  else if type = "stat" then
    { entry with
      bufferMs := json.int parsed "bufferMs"
      targetMs := json.int parsed "targetMs"
      underruns := json.int parsed "underruns"
      driftPpm := (json.getProperty parsed "driftPpm").elim 0 json.toDouble
      playing := (json.getProperty parsed "playing").elim false json.toBool }
  else entry

def streamClientConnected (clients : List (ClientInfo δ)) (clientId : BitVec 32) :
    List (ClientInfo δ) :=
  -- the locked part of `streamClientConnected`; the hello it broadcasts then is an `enqueue`
  -- into each connection
  clients ++ [.new clientId]

omit [Zero δ] in
def streamClientDisconnected (clients : List (ClientInfo δ)) (clientId : BitVec 32) :
    List (ClientInfo δ) :=
  clients.filter fun c => c.id ≠ clientId

def streamTextMessageReceived (json : Json V δ) (clients : List (ClientInfo δ))
    (clientId : BitVec 32) (message : List UInt8) : List (ClientInfo δ) :=
  let parsed := json.parse message
  if json.isObject parsed then
    clients.modify (clients.findIdx fun c => c.id = clientId) (ClientInfo.update json parsed)
  else clients

def ids (clients : List (ClientInfo δ)) : List (BitVec 32) := clients.map (·.id)

theorem ClientInfo.update_id (json : Json V δ) (parsed : V) (entry : ClientInfo δ) :
    (entry.update json parsed).id = entry.id := by
  unfold ClientInfo.update
  dsimp only
  split_ifs <;> rfl

theorem ids_textMessage (json : Json V δ) (clients : List (ClientInfo δ)) (clientId : BitVec 32)
    (message : List UInt8) :
    ids (streamTextMessageReceived json clients clientId message) = ids clients := by
  unfold streamTextMessageReceived ids
  dsimp only
  split_ifs
  · apply List.ext_getElem?
    intro k
    simp only [List.getElem?_map, List.getElem?_modify]
    cases clients[k]? with
    | none => rfl
    | some c =>
      simp only [Option.map_some]
      split_ifs
      · exact congrArg some (ClientInfo.update_id json _ c)
      · rfl
  · rfl

theorem textMessage_others (json : Json V δ) (clients : List (ClientInfo δ)) (clientId : BitVec 32)
    (message : List UInt8) (k : ℕ) (hk : ∀ c ∈ clients[k]?, c.id ≠ clientId) :
    (streamTextMessageReceived json clients clientId message)[k]? = clients[k]? := by
  unfold streamTextMessageReceived
  dsimp only
  split_ifs
  · rw [List.getElem?_modify]
    cases hentry : clients[k]? with
    | none => rfl
    | some c =>
      have hother : clients.findIdx (fun c => c.id = clientId) ≠ k := by
        rintro rfl
        obtain ⟨hlt, hget⟩ := List.getElem?_eq_some_iff.mp hentry
        have hfound := List.findIdx_getElem (w := hlt)
        rw [hget, decide_eq_true_eq] at hfound
        exact hk c hentry hfound
      simp [hother]
  · rfl

theorem textMessage_ignored (json : Json V δ) (clients : List (ClientInfo δ)) (clientId : BitVec 32)
    (message : List UInt8)
    (h : json.isObject (json.parse message) = false ∨
      json.text (json.parse message) "type" ∉ ["ready", "setLatency", "stat"] ∨
      clientId ∉ ids clients) :
    streamTextMessageReceived json clients clientId message = clients := by
  unfold streamTextMessageReceived
  dsimp only
  split_ifs with hobject
  · rcases h with hnot | htype | hunknown
    · simp [hobject] at hnot
    · have hsame : ClientInfo.update json (json.parse message) = id := by
        funext entry
        simp only [List.mem_cons, List.not_mem_nil, or_false, not_or] at htype
        simp [ClientInfo.update, htype]
      rw [hsame, List.modify_id]
    · have hnone : clients.findIdx (fun c => c.id = clientId) = clients.length := by
        rw [List.findIdx_eq_length]
        intro c hc
        rw [decide_eq_false_iff_not]
        rintro rfl
        exact hunknown (List.mem_map_of_mem hc)
      rw [hnone, List.modify_eq_self (Nat.le_refl _)]
  · rfl

end Listener

structure Accepted where
  id : BitVec 32
  connection : Connection := {}
  made : ℕ := 0
  deriving DecidableEq, Repr

namespace Accepted

def told (c : Accepted) : List ListenerCall := c.connection.calls.take c.made

def ended (c : Accepted) : Bool := c.connection.hasEnded && c.connection.calls.length ≤ c.made

def step (owner : Owner) (c : Accepted) : ConnectionEvent → Accepted
  -- the thread waits for a call it has made; other threads may enqueue frames all the same
  | .thread a =>
    if c.made < c.connection.calls.length then c
    else { c with connection := c.connection.step owner (.thread a) }
  | .enqueue out => { c with connection := c.connection.step owner (.enqueue out) }

end Accepted

/-- What the control thread is at: within `start` after the server has started, within `stop`
before the acceptor has gone, or within `stop` with some of the connections joined. -/
inductive Control where
  | idle
  | starting
  | stopping
  | closing (joined : ℕ)
  deriving DecidableEq, Repr

/-- The connections are those ever accepted; the ones the acceptor reaps have ended. `log` records
the listener's calls. -/
structure Registry (δ : Type) where
  connections : List Accepted := []
  nextClientId : BitVec 32 := 1
  clients : List (ClientInfo δ) := []
  serverRunning : Bool := false
  accepting : Bool := false
  control : Control := .idle
  log : List (BitVec 32 × ListenerCall) := []

inductive RegistryEvent where
  | accept
  | connection (k : ℕ) (ev : ConnectionEvent)
  | call (k : ℕ)
  | start (bound : Bool)
  | started
  | stop
  | joinAcceptor
  | joinConnection
  | clear

namespace Registry
variable {V δ : Type} [Zero δ]

def listen (json : Json V δ) (clients : List (ClientInfo δ)) (clientId : BitVec 32) :
    ListenerCall → List (ClientInfo δ)
  | .connected => streamClientConnected clients clientId
  | .disconnected => streamClientDisconnected clients clientId
  | .textMessage message => streamTextMessageReceived json clients clientId message

omit [Zero δ] in
def accept (w : Registry δ) : Registry δ :=
  { w with
    connections := w.connections ++ [{ id := w.nextClientId }]
    nextClientId := w.nextClientId + 1 }

def call (json : Json V δ) (w : Registry δ) (k : ℕ) (c : Accepted) (call : ListenerCall) :
    Registry δ :=
  { w with
    connections := w.connections.set k { c with made := c.made + 1 }
    clients := listen json w.clients c.id call
    log := w.log ++ [(c.id, call)] }

def step (json : Json V δ) (owner : Owner) (w : Registry δ) : RegistryEvent → Registry δ
  | .accept => if w.accepting then w.accept else w
  | .connection k ev =>
    match w.connections[k]? with
    | none => w
    | some c => { w with connections := w.connections.set k (c.step owner ev) }
  | .call k =>
    match w.connections[k]? with
    | none => w
    | some c =>
      match c.connection.calls[c.made]? with
      | none => w
      | some call => w.call json k c call
  | .start bound =>
    if w.control = .idle ∧ w.serverRunning = false ∧ bound then
      { w with accepting := true, control := .starting }
    else w
  | .started =>
    if w.control = .starting then { w with serverRunning := true, control := .idle } else w
  | .stop =>
    if w.control = .idle ∧ w.serverRunning then
      { w with serverRunning := false, control := .stopping }
    else w
  | .joinAcceptor =>
    if w.control = .stopping then { w with accepting := false, control := .closing 0 } else w
  | .joinConnection =>
    match w.control with
    | .closing joined =>
      if (w.connections[joined]?).any Accepted.ended then { w with control := .closing (joined + 1) }
      else w
    | _ => w
  | .clear =>
    if w.control = .closing w.connections.length then { w with clients := [], control := .idle }
    else w

def run (json : Json V δ) (owner : Owner) (w : Registry δ) (es : List RegistryEvent) : Registry δ :=
  Runs.run (step json owner) w es

omit [Zero δ] in
def callsOf (w : Registry δ) (id : BitVec 32) : List ListenerCall :=
  (w.log.filter fun e => e.1 = id).map (·.2)

end Registry

namespace Accepted

structure Sound (c : Accepted) : Prop where
  calling : c.connection.Calling
  made : c.made ≤ c.connection.calls.length

theorem Sound.inSession {c : Accepted} (h : c.Sound) : InSession c.told :=
  h.calling.inSession.of_prefix (List.take_prefix _ _)

theorem sound_new (id : BitVec 32) : Sound { id } := ⟨Connection.calling_new, Nat.le_refl _⟩

variable {c : Accepted}

theorem step_connection (owner : Owner) (c : Accepted) (ev : ConnectionEvent) :
    (c.step owner ev).id = c.id ∧ (c.step owner ev).made = c.made ∧
      ((c.step owner ev).connection = c.connection ∨
        (c.step owner ev).connection = c.connection.step owner ev) := by
  cases ev with
  | thread a =>
    simp only [step]
    split_ifs
    · exact ⟨rfl, rfl, .inl rfl⟩
    · exact ⟨rfl, rfl, .inr rfl⟩
  | enqueue out => exact ⟨rfl, rfl, .inr rfl⟩

theorem sound_step (owner : Owner) (h : c.Sound) (ev : ConnectionEvent) :
    (c.step owner ev).Sound ∧ (c.step owner ev).told = c.told := by
  obtain ⟨-, hmade, hconnection⟩ := c.step_connection owner ev
  unfold told
  rw [hmade]
  rcases hconnection with hsame | hstep
  · rw [hsame]
    exact ⟨⟨hsame ▸ h.calling, by rw [hmade, hsame]; exact h.made⟩, rfl⟩
  · have hprefix := Connection.calls_step owner c.connection ev
    rw [hstep]
    refine ⟨⟨hstep ▸ Connection.calling_step owner h.calling ev, ?_⟩, ?_⟩
    · rw [hmade, hstep]
      exact Nat.le_trans h.made hprefix.length_le
    · obtain ⟨more, hmore⟩ := hprefix
      rw [← hmore, List.take_append_of_le_length h.made]

theorem told_called {call : ListenerCall} (hcall : c.connection.calls[c.made]? = some call) :
    told { c with made := c.made + 1 } = c.told ++ [call] := by
  unfold told
  rw [List.take_add_one, hcall, Option.toList_some]

theorem sound_called {call : ListenerCall} (h : c.Sound)
    (hcall : c.connection.calls[c.made]? = some call) : Sound { c with made := c.made + 1 } :=
  ⟨h.calling, (List.getElem?_eq_some_iff.mp hcall).1⟩

theorem ended_iff : c.ended = true ↔
    c.connection.hasEnded = true ∧ c.connection.calls.length ≤ c.made := by
  simp [ended]

theorem ended_step (owner : Owner) (h : c.ended = true) (ev : ConnectionEvent) :
    (c.step owner ev).ended = true := by
  obtain ⟨hended, hmade⟩ := ended_iff.mp h
  obtain ⟨-, hsame, hconnection⟩ := c.step_connection owner ev
  rcases hconnection with hkept | hstep
  · rw [ended, hkept, hsame]
    exact h
  · obtain ⟨hstill, hcalls⟩ := Connection.hasEnded_step owner hended ev
    rw [ended_iff, hstep, hsame, hcalls]
    exact ⟨hstill, hmade⟩

theorem Sound.disconnected (h : c.Sound) (hended : c.ended = true) (hcalls : .connected ∈ c.told) :
    .disconnected ∈ c.told := by
  obtain ⟨hgone, hmade⟩ := ended_iff.mp hended
  have hall : c.told = c.connection.calls := List.take_of_length_le hmade
  rw [hall] at hcalls ⊢
  exact h.calling.disconnected hgone hcalls

end Accepted

namespace Registry
variable {V δ : Type} [Zero δ] {w : Registry δ}

structure Numbered (w : Registry δ) : Prop where
  next : w.nextClientId = BitVec.ofNat 32 (w.connections.length + 1)
  ids : ∀ k c, w.connections[k]? = some c → c.id = BitVec.ofNat 32 (k + 1)
  sound : ∀ c ∈ w.connections, c.Sound
  quiet : w.control = .idle → w.serverRunning = false →
    w.accepting = false ∧ w.clients = [] ∧ ∀ c ∈ w.connections, c.ended = true
  closing : ∀ joined, w.control = .closing joined →
    w.accepting = false ∧ ∀ c ∈ w.connections.take joined, c.ended = true

omit [Zero δ] in
theorem numbered_new : Numbered ({} : Registry δ) where
  next := rfl
  ids _ _ h := nomatch h
  sound _ h := nomatch h
  quiet _ _ := ⟨rfl, rfl, fun _ h => nomatch h⟩
  closing _ h := nomatch h

omit [Zero δ] in
theorem Numbered.accept (h : Numbered w) (haccepting : w.accepting = true) :
    Numbered w.accept where
  next := by
    simp only [Registry.accept, h.next, List.length_append, List.length_singleton]
    exact (BitVec.ofNat_add _ 1).symm
  ids k c hc := by
    rcases Nat.lt_or_ge k w.connections.length with hk | hk
    · rw [Registry.accept, List.getElem?_append_left hk] at hc
      exact h.ids k c hc
    · rw [Registry.accept, List.getElem?_append_right hk, List.getElem?_singleton] at hc
      split_ifs at hc with hlast
      obtain rfl := Option.some.inj hc
      rw [h.next, Nat.le_antisymm (Nat.sub_eq_zero_iff_le.mp hlast) hk]
  sound c hc := by
    rcases List.mem_append.mp hc with hold | hnew
    · exact h.sound c hold
    · exact List.mem_singleton.mp hnew ▸ Accepted.sound_new _
  quiet hidle hstopped := by
    have hquiet := (h.quiet hidle hstopped).1
    rw [haccepting] at hquiet
    cases hquiet
  closing joined hclosing := by
    have hquiet := (h.closing joined hclosing).1
    rw [haccepting] at hquiet
    cases hquiet

omit [Zero δ] in
theorem Numbered.set (h : Numbered w) {k : ℕ} {c d : Accepted} (hc : w.connections[k]? = some c)
    (hid : d.id = c.id) (hsound : d.Sound) (hended : c.ended = true → d.ended = true)
    {clients : List (ClientInfo δ)} (hclients : c.ended = true → clients = w.clients)
    (log : List (BitVec 32 × ListenerCall)) :
    Numbered { w with connections := w.connections.set k d, clients, log } where
  next := by
    rw [List.length_set]
    exact h.next
  ids j e he := by
    rw [List.getElem?_set] at he
    split_ifs at he with hj hlt
    · obtain rfl := Option.some.inj he
      rw [hid, h.ids k c hc, hj]
    · exact h.ids j e he
  sound e he := by
    rcases List.mem_or_eq_of_mem_set he with hold | rfl
    · exact h.sound e hold
    · exact hsound
  quiet hidle hstopped := by
    obtain ⟨haccepting, hnone, hall⟩ := h.quiet hidle hstopped
    have hgone := hall c (List.mem_of_getElem? hc)
    refine ⟨haccepting, (hclients hgone).trans hnone, fun e he => ?_⟩
    rcases List.mem_or_eq_of_mem_set he with hold | rfl
    · exact hall e hold
    · exact hended hgone
  closing joined hclosing := by
    obtain ⟨haccepting, hall⟩ := h.closing joined hclosing
    refine ⟨haccepting, fun e he => ?_⟩
    dsimp only at he
    rw [List.take_set] at he
    rcases Nat.lt_or_ge k joined with hk | hk
    · rcases List.mem_or_eq_of_mem_set he with hold | rfl
      · exact hall e hold
      · refine hended (hall c (List.mem_of_getElem? (i := k) ?_))
        rw [List.getElem?_take_of_lt hk]
        exact hc
    · rw [List.set_eq_of_length_le] at he
      · exact hall e he
      · exact Nat.le_trans (List.length_take_le _ _) hk

theorem Numbered.call (json : Json V δ) (h : Numbered w) {k : ℕ} {c : Accepted}
    {call : ListenerCall} (hc : w.connections[k]? = some c)
    (hcall : c.connection.calls[c.made]? = some call) : Numbered (w.call json k c call) := by
  have hlasts : ¬ c.ended = true := fun hended =>
    absurd (Accepted.ended_iff.mp hended).2 (Nat.not_le.mpr (List.getElem?_eq_some_iff.mp hcall).1)
  exact h.set (d := { c with made := c.made + 1 }) hc rfl
    (Accepted.sound_called (h.sound c (List.mem_of_getElem? hc)) hcall)
    (fun hended => absurd hended hlasts) (fun hended => absurd hended hlasts) _

omit [Zero δ] in
theorem Numbered.joinConnection (h : Numbered w) {joined : ℕ}
    (hclosing : w.control = .closing joined)
    (hended : w.connections[joined]?.any Accepted.ended = true) :
    Numbered { w with control := .closing (joined + 1) } := by
  obtain ⟨haccepting, hall⟩ := h.closing joined hclosing
  refine ⟨h.next, h.ids, h.sound, fun hidle => (nomatch hidle), fun joined' hclosing' => ?_⟩
  obtain rfl := Control.closing.inj hclosing'
  refine ⟨haccepting, fun c hc => ?_⟩
  rw [List.take_add_one] at hc
  rcases List.mem_append.mp hc with hold | hnew
  · exact hall c hold
  · rw [Option.mem_toList] at hnew
    rw [Option.mem_def.mp hnew] at hended
    exact hended

theorem numbered_step (json : Json V δ) (owner : Owner) (w : Registry δ) (ev : RegistryEvent)
    (h : Numbered w) : Numbered (w.step json owner ev) := by
  cases ev with
  | accept =>
    simp only [step]
    split_ifs with haccepting
    · exact h.accept haccepting
    · exact h
  | connection k ev =>
    simp only [step]
    split
    · exact h
    · rename_i c hc
      have hsound := h.sound c (List.mem_of_getElem? hc)
      exact h.set hc (c.step_connection owner ev).1 (Accepted.sound_step owner hsound ev).1
        (fun hended => Accepted.ended_step owner hended ev) (fun _ => rfl) _
  | call k =>
    simp only [step]
    split
    · exact h
    rename_i c hc
    split
    · exact h
    · rename_i call hcall
      exact h.call json hc hcall
  | start bound =>
    simp only [step]
    split_ifs
    · exact ⟨h.next, h.ids, h.sound, fun hidle => (nomatch hidle),
        fun _ hclosing => (nomatch hclosing)⟩
    · exact h
  | started =>
    simp only [step]
    split_ifs
    · exact ⟨h.next, h.ids, h.sound, fun _ hstopped => (nomatch hstopped),
        fun _ hclosing => (nomatch hclosing)⟩
    · exact h
  | stop =>
    simp only [step]
    split_ifs
    · exact ⟨h.next, h.ids, h.sound, fun hidle => (nomatch hidle),
        fun _ hclosing => (nomatch hclosing)⟩
    · exact h
  | joinAcceptor =>
    simp only [step]
    split_ifs
    · refine ⟨h.next, h.ids, h.sound, fun hidle => (nomatch hidle), fun joined hclosing => ?_⟩
      obtain rfl := Control.closing.inj hclosing
      exact ⟨rfl, by simp⟩
    · exact h
  | joinConnection =>
    simp only [step]
    split
    · rename_i joined hclosing
      split_ifs with hended
      · exact h.joinConnection hclosing hended
      · exact h
    · exact h
  | clear =>
    simp only [step]
    split_ifs with hclosing
    · obtain ⟨haccepting, hall⟩ := h.closing _ hclosing
      rw [List.take_length] at hall
      exact ⟨h.next, h.ids, h.sound, fun _ _ => ⟨haccepting, rfl, hall⟩,
        fun _ hclosing => (nomatch hclosing)⟩
    · exact h

/-- The list of clients is what the calls make of it, id by id. -/
structure Registered (w : Registry δ) : Prop where
  told : ∀ c ∈ w.connections, w.callsOf c.id = c.told
  known : ∀ id, w.callsOf id ≠ [] → ∃ c ∈ w.connections, c.id = id
  nodup : (ids w.clients).Nodup
  listed : ∀ id, id ∈ ids w.clients ↔ .connected ∈ w.callsOf id ∧ .disconnected ∉ w.callsOf id

omit [Zero δ] in
theorem registered_new : Registered ({} : Registry δ) where
  told _ h := nomatch h
  known _ h := absurd rfl h
  nodup := List.nodup_nil
  listed _ := iff_of_false (fun h => nomatch h) (fun h => nomatch h.1)

omit [Zero δ] in
theorem Numbered.ids_injective (h : Numbered w) (hbound : w.connections.length ≤ 2 ^ 32) {j k : ℕ}
    {c d : Accepted} (hc : w.connections[j]? = some c) (hd : w.connections[k]? = some d)
    (hid : c.id = d.id) : j = k := by
  obtain ⟨hj, -⟩ := List.getElem?_eq_some_iff.mp hc
  obtain ⟨hk, -⟩ := List.getElem?_eq_some_iff.mp hd
  rw [h.ids j c hc, h.ids k d hd] at hid
  have hmod := congrArg BitVec.toNat hid
  rw [BitVec.toNat_ofNat, BitVec.toNat_ofNat] at hmod
  omega

omit [Zero δ] in
theorem callsOf_append (w : Registry δ) (connections : List Accepted)
    (clients : List (ClientInfo δ)) (clientId : BitVec 32) (call : ListenerCall) (id : BitVec 32) :
    callsOf { w with connections, clients, log := w.log ++ [(clientId, call)] } id =
      w.callsOf id ++ if clientId = id then [call] else [] := by
  unfold callsOf
  rw [List.filter_append, List.map_append, List.filter_singleton]
  by_cases hid : clientId = id <;> simp [hid]

theorem mem_ids_listen (json : Json V δ) (clients : List (ClientInfo δ)) (clientId id : BitVec 32)
    (call : ListenerCall) : id ∈ ids (listen json clients clientId call) ↔
      match call with
      | .connected => id ∈ ids clients ∨ id = clientId
      | .disconnected => id ∈ ids clients ∧ id ≠ clientId
      | .textMessage _ => id ∈ ids clients := by
  cases call with
  | connected => simp [listen, streamClientConnected, ids, ClientInfo.new]
  | disconnected =>
    simp only [listen, streamClientDisconnected, ids, List.mem_map, List.mem_filter,
      decide_eq_true_eq]
    constructor
    · rintro ⟨c, ⟨hc, hne⟩, rfl⟩
      exact ⟨⟨c, hc, rfl⟩, hne⟩
    · rintro ⟨⟨c, hc, rfl⟩, hne⟩
      exact ⟨c, ⟨hc, hne⟩, rfl⟩
  | textMessage message => simp only [listen, ids_textMessage]

theorem nodup_listen (json : Json V δ) {clients : List (ClientInfo δ)} (h : (ids clients).Nodup)
    {clientId : BitVec 32} {call : ListenerCall}
    (hnew : call = .connected → clientId ∉ ids clients) :
    (ids (listen json clients clientId call)).Nodup := by
  cases call with
  | connected =>
    simp only [listen, streamClientConnected, ids, List.map_append, List.map_cons, List.map_nil]
    refine List.nodup_append.mpr ⟨h, List.nodup_singleton _, fun id hid id' hid' => ?_⟩
    rintro rfl
    obtain rfl := List.mem_singleton.mp hid'
    exact hnew rfl hid
  | disconnected => exact h.sublist (List.filter_sublist.map _)
  | textMessage message =>
    simp only [listen, ids_textMessage]
    exact h

theorem Registered.call (hn : Numbered w) (h : Registered w)
    (hbound : w.connections.length ≤ 2 ^ 32) (json : Json V δ) {k : ℕ} {c : Accepted}
    (hc : w.connections[k]? = some c) {call : ListenerCall}
    (hcall : c.connection.calls[c.made]? = some call) : Registered (w.call json k c call) := by
  have hmem := List.mem_of_getElem? hc
  have hnext : InSession (w.callsOf c.id ++ [call]) := by
    rw [h.told c hmem, ← Accepted.told_called hcall]
    exact (Accepted.sound_called (hn.sound c hmem) hcall).inSession
  have hcalls := callsOf_append w (w.connections.set k { c with made := c.made + 1 })
    (listen json w.clients c.id call) c.id call
  refine ⟨fun d hd => ?_, fun id hid => ?_, ?_, fun id => ?_⟩
  · obtain ⟨j, hj⟩ := List.mem_iff_getElem?.mp hd
    rw [Registry.call, hcalls]
    rw [Registry.call, List.getElem?_set] at hj
    split_ifs at hj with hkj hlt
    · obtain rfl := Option.some.inj hj
      rw [if_pos rfl, h.told c hmem, Accepted.told_called hcall]
    · have hother : c.id ≠ d.id := fun hid => hkj (hn.ids_injective hbound hc hj hid)
      rw [if_neg hother, List.append_nil]
      exact h.told d (List.mem_of_getElem? hj)
  · have hknown : ∃ d ∈ w.connections, d.id = id := by
      by_cases hsame : c.id = id
      · exact ⟨c, hmem, hsame⟩
      · rw [Registry.call, hcalls, if_neg hsame, List.append_nil] at hid
        exact h.known id hid
    obtain ⟨d, hd, rfl⟩ := hknown
    obtain ⟨j, hj⟩ := List.mem_iff_getElem?.mp hd
    by_cases hkj : k = j
    · subst hkj
      obtain rfl := Option.some.inj (hc.symm.trans hj)
      exact ⟨_, List.mem_set (List.getElem?_eq_some_iff.mp hc).1 _, rfl⟩
    · refine ⟨d, List.mem_of_getElem? (i := j) ?_, rfl⟩
      rw [Registry.call, List.getElem?_set_ne hkj]
      exact hj
  · refine nodup_listen json h.nodup fun hconnected => ?_
    rcases hnext.next with ⟨hnil, -⟩ | ⟨-, -, hne⟩
    · rw [h.listed, hnil]
      simp
    · exact absurd hconnected hne
  · rw [Registry.call, hcalls]
    rw [mem_ids_listen]
    by_cases hid : c.id = id
    · subst hid
      rw [if_pos rfl]
      rcases hnext.next with ⟨hnil, rfl⟩ | ⟨hopen, hlasts, hne⟩
      · simp [hnil]
      · have hin : c.id ∈ ids w.clients := (h.listed c.id).mpr ⟨hopen, hlasts⟩
        cases call with
        | connected => exact absurd rfl hne
        | disconnected => simp
        | textMessage message => simp [hin, hopen, hlasts]
    · rw [if_neg hid, List.append_nil, ← h.listed id]
      cases call with
      | connected => simp [Ne.symm hid]
      | disconnected => simp [Ne.symm hid]
      | textMessage message => rfl

omit [Zero δ] in
theorem Registered.gone (hn : Numbered w) (h : Registered w) {c : Accepted}
    (hc : c ∈ w.connections) (hended : c.ended = true) : c.id ∉ ids w.clients := by
  rw [h.listed, h.told c hc]
  rintro ⟨hopen, hlasts⟩
  exact hlasts ((hn.sound c hc).disconnected hended hopen)

omit [Zero δ] in
theorem Registered.clients_eq_nil (hn : Numbered w) (h : Registered w)
    (hended : ∀ c ∈ w.connections, c.ended = true) : w.clients = [] := by
  rw [List.eq_nil_iff_forall_not_mem]
  intro entry hentry
  have hin : entry.id ∈ ids w.clients := List.mem_map_of_mem hentry
  obtain ⟨c, hc, hid⟩ := h.known entry.id (List.ne_nil_of_mem ((h.listed _).mp hin).1)
  exact h.gone hn hc (hended c hc) (hid ▸ hin)

omit [Zero δ] in
theorem Registered.accept (hn : Numbered w) (h : Registered w)
    (hbound : w.connections.length < 2 ^ 32) : Registered w.accept := by
  have hfresh : w.callsOf w.nextClientId = [] := by
    by_contra hcalls
    obtain ⟨c, hc, hid⟩ := h.known _ hcalls
    obtain ⟨k, hk⟩ := List.mem_iff_getElem?.mp hc
    obtain ⟨hlt, -⟩ := List.getElem?_eq_some_iff.mp hk
    rw [hn.ids k c hk, hn.next] at hid
    have hmod := congrArg BitVec.toNat hid
    rw [BitVec.toNat_ofNat, BitVec.toNat_ofNat] at hmod
    omega
  refine ⟨fun c hc => ?_, fun id hid => ?_, h.nodup, h.listed⟩
  · rcases List.mem_append.mp hc with hold | hnew
    · exact h.told c hold
    · rw [List.mem_singleton.mp hnew]
      exact hfresh
  · obtain ⟨c, hc, hid⟩ := h.known id hid
    exact ⟨c, List.mem_append_left _ hc, hid⟩

omit [Zero δ] in
theorem Registered.connection (hn : Numbered w) (h : Registered w) (owner : Owner) {k : ℕ}
    {c : Accepted} (hc : w.connections[k]? = some c) (ev : ConnectionEvent) :
    Registered { w with connections := w.connections.set k (c.step owner ev) } := by
  have hmem := List.mem_of_getElem? hc
  obtain ⟨-, htold⟩ := Accepted.sound_step owner (hn.sound c hmem) ev
  have hid := (c.step_connection owner ev).1
  refine ⟨fun d hd => ?_, fun id hid' => ?_, h.nodup, h.listed⟩
  · rcases List.mem_or_eq_of_mem_set hd with hold | rfl
    · exact h.told d hold
    · rw [htold, hid]
      exact h.told c hmem
  · obtain ⟨d, hd, rfl⟩ := h.known id hid'
    obtain ⟨j, hj⟩ := List.mem_iff_getElem?.mp hd
    by_cases hkj : k = j
    · subst hkj
      obtain rfl := Option.some.inj (hc.symm.trans hj)
      exact ⟨_, List.mem_set (List.getElem?_eq_some_iff.mp hc).1 _, hid⟩
    · refine ⟨d, List.mem_of_getElem? (i := j) ?_, rfl⟩
      rw [List.getElem?_set_ne hkj]
      exact hj

theorem length_step (json : Json V δ) (owner : Owner) (w : Registry δ) (ev : RegistryEvent) :
    w.connections.length ≤ (w.step json owner ev).connections.length := by
  cases ev with
  | accept =>
    simp only [step]
    split_ifs
    · simp [Registry.accept]
    · exact Nat.le_refl _
  | connection k ev =>
    simp only [step]
    split
    · exact Nat.le_refl _
    · rw [List.length_set]
  | call k =>
    simp only [step]
    split
    · exact Nat.le_refl _
    · split
      · exact Nat.le_refl _
      · rw [Registry.call, List.length_set]
  | joinConnection =>
    simp only [step]
    split
    · split_ifs <;> exact Nat.le_refl _
    · exact Nat.le_refl _
  | _ =>
    simp only [step]
    split_ifs <;> exact Nat.le_refl _

theorem registered_step (json : Json V δ) (owner : Owner) (w : Registry δ) (ev : RegistryEvent)
    (hn : Numbered w) (h : Registered w)
    (hbound : (w.step json owner ev).connections.length ≤ 2 ^ 32) :
    Registered (w.step json owner ev) := by
  have hbefore := Nat.le_trans (length_step json owner w ev) hbound
  cases ev with
  | accept =>
    simp only [step] at hbound ⊢
    split_ifs with haccepting
    · rw [if_pos haccepting, Registry.accept, List.length_append, List.length_singleton] at hbound
      exact h.accept hn hbound
    · exact h
  | connection k ev =>
    simp only [step]
    split
    · exact h
    · rename_i c hc
      exact h.connection hn owner hc ev
  | call k =>
    simp only [step]
    split
    · exact h
    rename_i c hc
    split
    · exact h
    rename_i call hcall
    exact h.call hn hbefore json hc hcall
  | joinConnection =>
    simp only [step]
    split
    · split_ifs <;> exact ⟨h.told, h.known, h.nodup, h.listed⟩
    · exact h
  | clear =>
    simp only [step]
    split_ifs with hclosing
    · have hended := (hn.closing _ hclosing).2
      rw [List.take_length] at hended
      have hnil := h.clients_eq_nil hn hended
      exact ⟨h.told, h.known, hnil ▸ h.nodup, hnil ▸ h.listed⟩
    · exact h
  | _ =>
    simp only [step]
    split_ifs <;> exact ⟨h.told, h.known, h.nodup, h.listed⟩

theorem registered_run (json : Json V δ) (owner : Owner) (es : List RegistryEvent) :
    Numbered (run json owner ({} : Registry δ) es) ∧
      ((run json owner ({} : Registry δ) es).connections.length ≤ 2 ^ 32 →
        Registered (run json owner ({} : Registry δ) es)) := by
  refine Runs.invariant
    (I := fun w : Registry δ => Numbered w ∧ (w.connections.length ≤ 2 ^ 32 → Registered w))
    (fun w ev h => ?_) ⟨numbered_new, fun _ => registered_new⟩ es
  obtain ⟨hn, hr⟩ := h
  refine ⟨numbered_step json owner w ev hn, fun hbound => ?_⟩
  have hbefore := Nat.le_trans (length_step json owner w ev) hbound
  exact registered_step json owner w ev hn (hr hbefore) hbound

/-- Up to `2 ^ 32` connections the list of clients is that of the connected ids, whatever the
connections do and however they end; a message touches the entry of its sender at most; and with
the server stopped the list is empty. -/
theorem client_registry_consistent (json : Json V δ) (owner : Owner) (es : List RegistryEvent) :
    let w := run json owner ({} : Registry δ) es
    (w.connections.length ≤ 2 ^ 32 →
      (ids w.clients).Nodup ∧
      (∀ id, id ∈ ids w.clients ↔ .connected ∈ w.callsOf id ∧ .disconnected ∉ w.callsOf id) ∧
      (∀ id, ∃ messages : List (List UInt8),
        w.callsOf id <+: .connected :: (messages.map .textMessage ++ [.disconnected])) ∧
      ∀ c ∈ w.connections, c.ended = true → c.id ∉ ids w.clients) ∧
    (∀ (clientId : BitVec 32) (message : List UInt8),
      let clients := streamTextMessageReceived json w.clients clientId message
      ids clients = ids w.clients ∧
      (∀ k : ℕ, (∀ c ∈ w.clients[k]?, c.id ≠ clientId) → clients[k]? = w.clients[k]?) ∧
      (json.isObject (json.parse message) = false ∨
          json.text (json.parse message) "type" ∉ ["ready", "setLatency", "stat"] ∨
          clientId ∉ ids w.clients →
        clients = w.clients)) ∧
    (w.control = .idle → w.serverRunning = false → w.clients = []) := by
  intro w
  obtain ⟨hn, hr⟩ : Numbered w ∧ (w.connections.length ≤ 2 ^ 32 → Registered w) :=
    registered_run json owner es
  refine ⟨fun hbound => ?_, fun clientId message => ?_, fun hidle hstopped => ?_⟩
  · have h := hr hbound
    refine ⟨h.nodup, h.listed, fun id => ?_, fun c hc hended => h.gone hn hc hended⟩
    by_cases hcalls : w.callsOf id = []
    · rw [hcalls]
      exact inSession_nil
    · obtain ⟨c, hc, rfl⟩ := h.known id hcalls
      rw [h.told c hc]
      exact (hn.sound c hc).inSession
  · exact ⟨ids_textMessage json w.clients clientId message,
      textMessage_others json w.clients clientId message,
      textMessage_ignored json w.clients clientId message⟩
  · exact (hn.quiet hidle hstopped).2.1

def upgrading : List ConnectionEvent :=
  let head := ascii "GET /ws?t=0 HTTP/1.1\r\nUpgrade: websocket\r\nConnection: Upgrade\r\n" ++
    ascii "Sec-WebSocket-Key: k\r\n\r\n"
  [.thread { read := head }, .thread {}, .thread { written := 4096 }, .thread {}]

def upgrade (k : ℕ) : List RegistryEvent := upgrading.map (.connection k) ++ [.call k]

def plainOwner : Owner where
  assetProvider := none
  upgradeAuthorizer := some fun target => target = ascii "/ws?t=0"
  makeAcceptKey := id

def plainJson : Json Unit ℕ where
  parse _ := ()
  isObject _ := false
  getProperty _ _ := none
  toString _ := ""
  toInt _ := 0
  toDouble _ := 0
  toBool _ := false

theorem run_connection (json : Json V δ) (owner : Owner) {w : Registry δ} {k : ℕ} {c : Accepted}
    (hc : w.connections[k]? = some c) (evs : List ConnectionEvent) :
    run json owner w (evs.map (.connection k)) =
      { w with connections := w.connections.set k (Runs.run (Accepted.step owner) c evs) } := by
  induction evs generalizing w c with
  | nil =>
    obtain ⟨hlt, rfl⟩ := List.getElem?_eq_some_iff.mp hc
    simp [run]
  | cons ev evs ih =>
    obtain ⟨hlt, -⟩ := List.getElem?_eq_some_iff.mp hc
    have hstep : w.step json owner (.connection k ev) =
        { w with connections := w.connections.set k (c.step owner ev) } := by
      simp only [step, hc]
    show run json owner (w.step json owner (.connection k ev)) _ = _
    rw [hstep, ih (c := c.step owner ev) (by simp [hlt])]
    simp

theorem run_upgrade {w : Registry ℕ} {k : ℕ} (hk : w.connections[k]? = some { id := 1 }) :
    ids (run plainJson plainOwner w (upgrade k)).clients = ids w.clients ++ [1] ∧
      (run plainJson plainOwner w (upgrade k)).accepting = w.accepting ∧
      (run plainJson plainOwner w (upgrade k)).connections.length = w.connections.length := by
  obtain ⟨hlt, -⟩ := List.getElem?_eq_some_iff.mp hk
  have hserved : ∃ connection, connection.calls = [.connected] ∧
      Runs.run (Accepted.step plainOwner) { id := 1 } upgrading = { id := 1, connection } :=
    ⟨(Runs.run (Accepted.step plainOwner) { id := 1 } upgrading).connection, by decide +kernel,
      by decide +kernel⟩
  obtain ⟨connection, hcalls, hserved⟩ := hserved
  rw [upgrade, run, Runs.run_append]
  rw [show Runs.run (step plainJson plainOwner) w (upgrading.map (.connection k)) = _ from
    run_connection plainJson plainOwner hk upgrading, hserved]
  simp [step, hlt, hcalls, Registry.call, listen, streamClientConnected, ids, ClientInfo.new]

def turns (es : List ConnectionEvent) : List RegistryEvent :=
  es.flatMap fun e => [.connection 0 e, .connection 1 e]

def twoClients : List RegistryEvent :=
  -- two clients are told of in the other order, send a text each, and the first one leaves
  let text : List UInt8 := [0x81, 0x81, 0, 0, 0, 0, 0x79]
  [.start true, .accept, .accept] ++ turns upgrading ++ [.call 1, .call 0] ++
    turns [.thread {}, .thread {}, .thread { read := text }, .thread {}] ++ [.call 1, .call 0] ++
    List.replicate 5 (.connection 0 (.thread {})) ++ [.call 0]

theorem client_registry_consistent_two :
    let w := run plainJson plainOwner ({} : Registry ℕ) twoClients
    ids w.clients = [2] ∧ w.callsOf 1 = [.connected, .textMessage [0x79], .disconnected] ∧
      w.callsOf 2 = [.connected, .textMessage [0x79]] ∧ (ids w.clients).Nodup ∧
      (1 ∈ ids w.clients ↔ .connected ∈ w.callsOf 1 ∧ .disconnected ∉ w.callsOf 1) ∧
      (2 ∈ ids w.clients ↔ .connected ∈ w.callsOf 2 ∧ .disconnected ∉ w.callsOf 2) := by
  intro w
  obtain ⟨hbounded, -, -⟩ := client_registry_consistent plainJson plainOwner (δ := ℕ) twoClients
  obtain ⟨hnodup, hlisted, -, -⟩ := hbounded (by decide +kernel)
  exact ⟨by decide +kernel, by decide +kernel, by decide +kernel, hnodup, hlisted 1, hlisted 2⟩

theorem run_accepts {w : Registry ℕ} (haccepting : w.accepting = true) (n : ℕ) :
    (run plainJson plainOwner w (List.replicate n .accept)).accepting = true ∧
      (run plainJson plainOwner w (List.replicate n .accept)).clients = w.clients ∧
      (run plainJson plainOwner w (List.replicate n .accept)).connections.length =
        w.connections.length + n := by
  induction n generalizing w with
  | zero => exact ⟨haccepting, rfl, rfl⟩
  | succ n ih =>
    have hstep : w.step plainJson plainOwner .accept = w.accept := by simp [step, haccepting]
    obtain ⟨hstill, hclients, hlength⟩ := ih (w := w.accept) haccepting
    rw [List.replicate_succ, run, Runs.run_cons, hstep]
    refine ⟨hstill, hclients, hlength.trans ?_⟩
    simp [Registry.accept]
    omega

def lap (n : ℕ) : List RegistryEvent :=
  -- the first client stays while `n` more connections are accepted, the last of which is
  -- upgraded
  [.start true, .accept] ++ upgrade 0 ++ List.replicate n .accept ++ upgrade n

theorem ids_lap {m : ℕ} (hm : m + 1 = 2 ^ 32) :
    ids (run plainJson plainOwner ({} : Registry ℕ) (lap (m + 1))).clients = [1, 1] := by
  let es : List RegistryEvent := [.start true, .accept] ++ upgrade 0 ++ List.replicate m .accept
  have hes : lap (m + 1) = es ++ .accept :: upgrade (m + 1) := by
    simp [lap, es, List.replicate_succ']
  obtain ⟨hids, haccepting, hlength⟩ :=
    run_upgrade (w := run plainJson plainOwner {} [.start true, .accept]) (k := 0) rfl
  obtain ⟨hstill, hclients, hmany⟩ := run_accepts haccepting m
  have hrun : run plainJson plainOwner (run plainJson plainOwner (run plainJson plainOwner
      ({} : Registry ℕ) [.start true, .accept]) (upgrade 0)) (List.replicate m .accept) =
        run plainJson plainOwner {} es := by
    simp only [run, es, Runs.run_append]
  rw [hrun] at hstill hclients hmany
  have hone : (run plainJson plainOwner ({} : Registry ℕ) es).connections.length = m + 1 := by
    rw [hmany, hlength]
    exact Nat.add_comm 1 m
  have hnumbered : Numbered (run plainJson plainOwner ({} : Registry ℕ) es) :=
    (registered_run plainJson plainOwner es).1
  have hnext : (run plainJson plainOwner ({} : Registry ℕ) es).nextClientId = 1 := by
    rw [hnumbered.next, hone, hm]
    decide
  have hsplit : run plainJson plainOwner ({} : Registry ℕ) (lap (m + 1)) =
      run plainJson plainOwner (run plainJson plainOwner {} es).accept (upgrade (m + 1)) := by
    rw [hes, run, Runs.run_append, Runs.run_cons]
    exact congrArg (fun w => run plainJson plainOwner w (upgrade (m + 1))) (if_pos hstill)
  have hlast : (run plainJson plainOwner ({} : Registry ℕ) es).accept.connections[m + 1]? =
      some { id := 1 } := by
    rw [Registry.accept, hnext, ← hone, List.getElem?_concat_length]
  rw [hsplit, (run_upgrade hlast).1]
  show ids (run plainJson plainOwner ({} : Registry ℕ) es).clients ++ [1] = [1, 1]
  rw [hclients, hids]
  rfl

/-- Once `2 ^ 32` more connections have been accepted, the counter hands out the first id again. -/
theorem id_handed_out_twice :
    ids (run plainJson plainOwner ({} : Registry ℕ) (lap (2 ^ 32))).clients = [1, 1] ∧
      ¬ (ids (run plainJson plainOwner ({} : Registry ℕ) (lap (2 ^ 32))).clients).Nodup := by
  have hids : ids (run plainJson plainOwner ({} : Registry ℕ) (lap (2 ^ 32))).clients = [1, 1] := by
    rw [show (2 : ℕ) ^ 32 = 4294967295 + 1 by norm_num]
    exact ids_lap (by norm_num)
  rw [hids]
  decide

end Registry
end Ppm.Engine

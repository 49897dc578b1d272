import PhonePostMix.Library.Locking

/-! The threads of the engine and its server, as far as they take mutexes and join each other:
the host's, any number of others that call the engine, the streaming thread, the acceptor and one
thread for each connection. Whatever they do, none waits for ever. -/

namespace Ppm.Engine.Mutexes
open Locking

inductive Mutex
  | state
  | connections
  | queue (clientId : ℕ)
  deriving DecidableEq

inductive Id
  | host
  | caller (k : ℕ)
  | streamer
  | acceptor
  | connection (clientId : ℕ)
  deriving DecidableEq

inductive Role
  | unstarted
  | running
  /-- the host, in `start`, with the settings read, and then with the server started -/
  | binding
  | serving
  /-- the acceptor, with `connectionsMutex` held, and then with a new connection added -/
  | reaping
  | added (clientId : ℕ)
  /-- a connection behind its upgrade, and in `finish` -/
  | upgraded
  | finishing
  | finished
  | ended
  deriving DecidableEq

abbrev Act := Action Id Mutex

def locked (m : Mutex) : List Act := [.lock m, .unlock m]

section Engine

def getSettings : List Act := locked .state
def getCandidateAddresses : List Act := locked .state
def setPreferredAddress : List Act := locked .state
def getPreferredAddress : List Act := locked .state
def getClients : List Act := locked .state
def refreshAddresses : List Act := locked .state
def getListenUrl : List Act := getPreferredAddress
def makeSessionJson : List Act := getSettings
def getNumClients : List Act := locked .connections

/-- `enqueue` on a connection that is upgraded. -/
def enqueue (clientId : ℕ) : List Act := locked (.queue clientId)

def broadcast (clientIds : List ℕ) : List Act :=
  -- `broadcastBinary` and `broadcastText`, when these connections are upgraded
  .lock .connections :: (clientIds.flatMap enqueue ++ [.unlock .connections])

def broadcastConfig : Option (List ℕ) → List Act
  | none => []
  | some clientIds => makeSessionJson ++ broadcast clientIds

def setSettings (config : Option (List ℕ)) : List Act := locked .state ++ broadcastConfig config

def prepare (config : Option (List ℕ)) : List Act := broadcastConfig config

def iteration (changed packet : Option (List ℕ)) : List Act :=
  getSettings ++ (changed.elim [] fun clientIds => makeSessionJson ++ broadcast clientIds) ++
    packet.elim [] broadcast

def streamClientConnected (clientIds : List ℕ) : List Act :=
  locked .state ++ (makeSessionJson ++ broadcast clientIds)

def streamClientDisconnected : List Act := locked .state
def streamTextMessageReceived : List Act := locked .state

def stop (toClose : List ℕ) : List Act :=
  -- `stop` joins the threads from the outside in: the streaming thread, the acceptor and,
  -- without `connectionsMutex`, the connections it has taken out of the vector
  [.join .streamer, .join .acceptor] ++ (locked .connections ++
    (toClose.map (fun clientId => .join (.connection clientId)) ++ locked .state))

end Engine

inductive Call : List Act → Prop
  | getSettings : Call getSettings
  | getCandidateAddresses : Call getCandidateAddresses
  | setPreferredAddress : Call setPreferredAddress
  | getListenUrl : Call getListenUrl
  | getClients : Call getClients
  | getNumClients : Call getNumClients
  | setSettings (config : Option (List ℕ)) : Call (setSettings config)
  | prepare (config : Option (List ℕ)) : Call (prepare config)

def startThread (roles : Id → Role) (t : Id) : Id → Role :=
  if roles t = .unstarted then Function.update roles t .running else roles

open Role in
/-- What a thread that has finished a routine may do next. The exit flag, the sockets and the
contents of the queues decide between these; here any of them may happen. -/
inductive Next (roles : Id → Role) : Id → (Id → Role) → List Act → Prop
  | call {t : Id} {todo : List Act} (hid : t = .host ∨ ∃ k, t = .caller k)
      (hrole : roles t = running) (hcall : Call todo) : Next roles t roles todo
  | start (hrole : roles .host = running) :
      Next roles .host (Function.update roles .host binding) (refreshAddresses ++ getSettings)
  | noPort (hrole : roles .host = binding) :
      Next roles .host (Function.update roles .host running) []
  | startAcceptor (hrole : roles .host = binding) :
      Next roles .host (startThread (Function.update roles .host serving) .acceptor) []
  | startStreamer (hrole : roles .host = serving) :
      Next roles .host (startThread (Function.update roles .host running) .streamer) []
  | stop (toClose : List ℕ) (hrole : roles .host = running) :
      Next roles .host roles (stop toClose)
  | iterate (changed packet : Option (List ℕ)) (hrole : roles .streamer = running) :
      Next roles .streamer roles (iteration changed packet)
  | leaveStream (hrole : roles .streamer = running) :
      Next roles .streamer (Function.update roles .streamer unstarted) []
  | accept (hrole : roles .acceptor = running) :
      Next roles .acceptor (Function.update roles .acceptor reaping) [.lock .connections]
  | reap (clientId : ℕ) (hrole : roles .acceptor = reaping)
      (hfinished : roles (.connection clientId) = finished ∨
        roles (.connection clientId) = ended) :
      Next roles .acceptor roles [.join (.connection clientId)]
  | add (clientId : ℕ) (hrole : roles .acceptor = reaping) :
      Next roles .acceptor (Function.update roles .acceptor (added clientId))
        [.unlock .connections]
  | begin (clientId : ℕ) (hrole : roles .acceptor = added clientId) :
      Next roles .acceptor
        (startThread (Function.update roles .acceptor running) (.connection clientId)) []
  | leaveAccept (hrole : roles .acceptor = running) :
      Next roles .acceptor (Function.update roles .acceptor unstarted) []
  | refuse (clientId : ℕ) (hrole : roles (.connection clientId) = running) :
      Next roles (.connection clientId)
        (Function.update roles (.connection clientId) finished) []
  | upgrade (clientId : ℕ) (clientIds : List ℕ) (hrole : roles (.connection clientId) = running) :
      Next roles (.connection clientId)
        (Function.update roles (.connection clientId) upgraded) (streamClientConnected clientIds)
  | drain (clientId : ℕ) (hrole : roles (.connection clientId) = upgraded) :
      Next roles (.connection clientId) roles (locked (.queue clientId))
  | pong (clientId : ℕ) (hrole : roles (.connection clientId) = upgraded) :
      Next roles (.connection clientId) roles (enqueue clientId)
  | text (clientId : ℕ) (hrole : roles (.connection clientId) = upgraded) :
      Next roles (.connection clientId) roles streamTextMessageReceived
  | hangUp (clientId : ℕ) (hrole : roles (.connection clientId) = upgraded) :
      Next roles (.connection clientId)
        (Function.update roles (.connection clientId) finishing) streamClientDisconnected
  | finish (clientId : ℕ) (hrole : roles (.connection clientId) = finishing) :
      Next roles (.connection clientId)
        (Function.update roles (.connection clientId) finished) []
  | endThread (clientId : ℕ) (hrole : roles (.connection clientId) = finished) :
      Next roles (.connection clientId) (Function.update roles (.connection clientId) ended) []

def program : Program Id Mutex Role where
  idle r := r = .unstarted ∨ r = .ended
  next := Next

def admits : Id → Role → Bool
  | .host, .running | .host, .binding | .host, .serving => true
  | .caller _, .running => true
  | .streamer, .unstarted | .streamer, .running => true
  | .acceptor, .unstarted | .acceptor, .running | .acceptor, .reaping | .acceptor, .added _ => true
  | .connection _, .unstarted | .connection _, .running | .connection _, .upgraded
  | .connection _, .finishing | .connection _, .finished | .connection _, .ended => true
  | _, _ => false

def order : Order Id Mutex Role where
  -- a queue mutex is taken under `connectionsMutex`, and nothing under the others
  rank
    | .queue _ => 1
    | _ => 0
  top := 1
  level t := if t = .host then 1 else 0
  admits t r := admits t r
  keeps r := if r = .reaping then [.connections] else []
  leaving t r := (∃ clientId, t = .connection clientId) ∧ (r = .finished ∨ r = .ended)
  reaps t held := t = .acceptor ∧ held = [.connections]

def initial : Id → Thread Id Mutex Role
  | .host | .caller _ => { role := .running }
  | _ => { role := .unstarted }

section Ordered
variable {roles : Id → Role} {t : Id} {held kept : List Mutex} {todo : List Act}

theorem ordered_locked {m : Mutex} (h : ∀ l ∈ held, order.rank l < order.rank m) :
    Ordered order roles t held (locked m) held := ⟨h, held, rfl, rfl⟩

theorem ordered_locked_nil (m : Mutex) : Ordered order roles t [] (locked m) [] :=
  ordered_locked fun _ h => absurd h List.not_mem_nil

theorem ordered_enqueues (clientIds : List ℕ) :
    Ordered order roles t [.connections] (clientIds.flatMap enqueue) [.connections] := by
  induction clientIds with
  | nil => rfl
  | cons clientId clientIds ih =>
    rw [List.flatMap_cons]
    refine Ordered.append (ordered_locked fun l hl => ?_) ih
    obtain rfl := List.mem_singleton.mp hl
    exact Nat.zero_lt_one

theorem ordered_broadcast (clientIds : List ℕ) :
    Ordered order roles t [] (broadcast clientIds) [] :=
  ⟨fun _ h => absurd h List.not_mem_nil, (ordered_enqueues clientIds).append ⟨[], rfl, rfl⟩⟩

theorem ordered_broadcastConfig (config : Option (List ℕ)) :
    Ordered order roles t [] (broadcastConfig config) [] := by
  cases config with
  | none => rfl
  | some clientIds => exact (ordered_locked_nil .state).append (ordered_broadcast clientIds)

theorem Call.ordered (h : Call todo) : Ordered order roles t [] todo [] := by
  cases h with
  | getSettings | getCandidateAddresses | setPreferredAddress | getListenUrl | getClients =>
    exact ordered_locked_nil .state
  | getNumClients => exact ordered_locked_nil .connections
  | setSettings config => exact (ordered_locked_nil .state).append (ordered_broadcastConfig config)
  | prepare config => exact ordered_broadcastConfig config

theorem ordered_iteration (changed packet : Option (List ℕ)) :
    Ordered order roles t [] (iteration changed packet) [] := by
  have hchanged : Ordered order roles t []
      (changed.elim [] fun clientIds => makeSessionJson ++ broadcast clientIds) [] := by
    cases changed with
    | none => rfl
    | some clientIds => exact (ordered_locked_nil .state).append (ordered_broadcast clientIds)
  have hpacket : Ordered order roles t [] (packet.elim [] broadcast) [] := by
    cases packet with
    | none => rfl
    | some clientIds => exact ordered_broadcast clientIds
  exact ((ordered_locked_nil .state).append hchanged).append hpacket

theorem ordered_stop (toClose : List ℕ) :
    Ordered order roles .host [] (stop toClose) [] := by
  have hbelow : [] = ([] : List Mutex) ∧ 0 < 1 := ⟨rfl, Nat.zero_lt_one⟩
  refine ⟨.inr hbelow, .inr hbelow, (ordered_locked_nil .connections).append ?_⟩
  refine Ordered.append ?_ (ordered_locked_nil .state)
  induction toClose with
  | nil => rfl
  | cons clientId toClose ih => exact ⟨.inr hbelow, ih⟩

end Ordered

section Roles
variable {roles roles' : Id → Role} {t u : Id} {todo : List Act}

theorem startThread_of_ne (hu : u ≠ t) : startThread roles t u = roles u := by
  unfold startThread
  split_ifs
  · exact Function.update_of_ne hu ..
  · rfl

theorem startThread_self (roles : Id → Role) (t : Id) : startThread roles t t = roles t ∨
    roles t = .unstarted ∧ startThread roles t t = .running := by
  unfold startThread
  split_ifs with hstart
  · exact .inr ⟨hstart, Function.update_self ..⟩
  · exact .inl rfl

theorem Next.others (h : Next roles t roles' todo) (hu : u ≠ t) : roles' u = roles u ∨
    roles u = .unstarted ∧ roles' u = .running ∧ (u = .acceptor ∨ u = .streamer ∨
      ∃ clientId, u = .connection clientId) := by
  have hstart {v : Id} {r : Role} (hv : v = .acceptor ∨ v = .streamer ∨
      ∃ clientId, v = .connection clientId) :
      startThread (Function.update roles t r) v u = roles u ∨
        roles u = .unstarted ∧ startThread (Function.update roles t r) v u = .running ∧
          (u = .acceptor ∨ u = .streamer ∨ ∃ clientId, u = .connection clientId) := by
    by_cases huv : u = v
    · subst huv
      rcases startThread_self (Function.update roles t r) u with hsame | ⟨hwas, hnow⟩
      · exact .inl (hsame.trans (Function.update_of_ne hu ..))
      · exact .inr ⟨(Function.update_of_ne hu ..).symm.trans hwas, hnow, hv⟩
    · rw [startThread_of_ne huv, Function.update_of_ne hu]
      exact .inl rfl
  cases h with
  | startAcceptor => exact hstart (.inl rfl)
  | startStreamer => exact hstart (.inr (.inl rfl))
  | begin clientId => exact hstart (.inr (.inr ⟨clientId, rfl⟩))
  | call | stop | iterate | reap | drain | pong | text => exact .inl rfl
  | _ => exact .inl (Function.update_of_ne hu ..)

theorem Next.own (h : Next roles t roles' todo) :
    (admits t (roles' t) = true ∧ roles t ≠ .unstarted ∧ roles t ≠ .ended) ∧
      (roles' t = .unstarted ∨ roles' t = .finished ∨ roles' t = .ended → todo = []) ∧
      (roles t = .finished → roles' t = .ended) := by
  cases h with
  | call hid hrole =>
    rw [hrole]
    rcases hid with rfl | ⟨k, rfl⟩ <;> simp [admits]
  | stop _ hrole | iterate _ _ hrole | reap _ hrole | drain _ hrole | pong _ hrole
  | text _ hrole => simp [hrole, admits]
  | startAcceptor hrole | startStreamer hrole | begin _ hrole =>
    rw [startThread_of_ne (by simp), Function.update_self]
    simp [hrole, admits]
  | start hrole | noPort hrole | leaveStream hrole | accept hrole | add _ hrole
  | leaveAccept hrole | refuse _ hrole | upgrade _ _ hrole | hangUp _ hrole | finish _ hrole
  | endThread _ hrole => simp [Function.update_self, hrole, admits]

theorem Next.ordered (h : Next roles t roles' todo) :
    Ordered order roles t (order.keeps (roles t)) todo (order.keeps (roles' t)) := by
  have hreaping : order.keeps .reaping = [.connections] := rfl
  cases h with
  | call hid hrole hcall =>
    rw [hrole]
    exact hcall.ordered
  | start hrole =>
    rw [hrole, Function.update_self]
    exact (ordered_locked_nil .state).append (ordered_locked_nil .state)
  | noPort hrole | leaveStream hrole | leaveAccept hrole | refuse _ hrole | finish _ hrole
  | endThread _ hrole =>
    rw [hrole, Function.update_self]
    rfl
  | startAcceptor hrole | startStreamer hrole | begin _ hrole =>
    rw [startThread_of_ne (by simp), Function.update_self, hrole]
    rfl
  | stop toClose hrole =>
    rw [hrole]
    exact ordered_stop toClose
  | iterate changed packet hrole =>
    rw [hrole]
    exact ordered_iteration changed packet
  | accept hrole =>
    rw [hrole, Function.update_self, hreaping]
    exact ⟨fun _ h => absurd h List.not_mem_nil, rfl⟩
  | reap clientId hrole hfinished =>
    rw [hrole]
    exact ⟨.inl ⟨⟨⟨clientId, rfl⟩, hfinished⟩, rfl, hreaping⟩, rfl⟩
  | add clientId hrole =>
    rw [hrole, Function.update_self, hreaping]
    exact ⟨[], rfl, rfl⟩
  | upgrade clientId clientIds hrole =>
    rw [hrole, Function.update_self]
    exact (ordered_locked_nil .state).append
      ((ordered_locked_nil .state).append (ordered_broadcast clientIds))
  | drain clientId hrole | pong clientId hrole =>
    rw [hrole]
    exact ordered_locked_nil _
  | text clientId hrole =>
    rw [hrole]
    exact ordered_locked_nil _
  | hangUp clientId hrole =>
    rw [hrole, Function.update_self]
    exact ordered_locked_nil _

theorem exists_next (hadmits : admits t (roles t) = true)
    (hrunning : ¬ (roles t = .unstarted ∨ roles t = .ended)) :
    ∃ roles' todo, Next roles t roles' todo := by
  obtain ⟨hunstarted, hended⟩ := not_or.mp hrunning
  cases t with
  | host =>
    cases hrole : roles .host with
    | running => exact ⟨_, _, .stop [] hrole⟩
    | binding => exact ⟨_, _, .noPort hrole⟩
    | serving => exact ⟨_, _, .startStreamer hrole⟩
    | _ => simp [hrole, admits] at hadmits
  | caller k =>
    cases hrole : roles (.caller k) with
    | running => exact ⟨_, _, .call (.inr ⟨k, rfl⟩) hrole .getSettings⟩
    | _ => simp [hrole, admits] at hadmits
  | streamer =>
    cases hrole : roles .streamer with
    | running => exact ⟨_, _, .leaveStream hrole⟩
    | unstarted => exact absurd hrole hunstarted
    | _ => simp [hrole, admits] at hadmits
  | acceptor =>
    cases hrole : roles .acceptor with
    | running => exact ⟨_, _, .leaveAccept hrole⟩
    | reaping => exact ⟨_, _, .add 0 hrole⟩
    | added clientId => exact ⟨_, _, .begin clientId hrole⟩
    | unstarted => exact absurd hrole hunstarted
    | _ => simp [hrole, admits] at hadmits
  | connection clientId =>
    cases hrole : roles (.connection clientId) with
    | running => exact ⟨_, _, .refuse clientId hrole⟩
    | upgraded => exact ⟨_, _, .hangUp clientId hrole⟩
    | finishing => exact ⟨_, _, .finish clientId hrole⟩
    | finished => exact ⟨_, _, .endThread clientId hrole⟩
    | unstarted => exact absurd hrole hunstarted
    | ended => exact absurd hrole hended
    | _ => simp [hrole, admits] at hadmits

end Roles

theorem keeps : Keeps program order where
  rank_le m := by
    cases m with
    | state | connections => exact Nat.zero_le 1
    | queue clientId => exact Nat.le_refl 1
  idle_keeps r hidle := by rcases hidle with rfl | rfl <;> rfl
  rest roles t hadmits hrunning := exists_next hadmits hrunning
  admits {roles t roles' todo} hnext u hadmits := by
    by_cases hu : u = t
    · subst hu
      exact hnext.own.1.1
    · rcases hnext.others hu with hsame | ⟨-, hnow, hid⟩
      · rw [hsame]
        exact hadmits
      · rw [hnow]
        rcases hid with rfl | rfl | ⟨clientId, rfl⟩ <;> rfl
  ordered hnext := hnext.ordered
  others {roles t roles' todo} hnext u hu := by
    rcases hnext.others hu with hsame | ⟨hwas, hnow, -⟩
    · exact .inl hsame
    · exact .inr ⟨.inl hwas, by rw [hnow]; rfl⟩
  leaving {roles t roles' todo} hnext u hleaving := by
    refine ⟨hleaving.1, ?_⟩
    by_cases hu : u = t
    · subst hu
      obtain ⟨⟨-, -, hended⟩, -, hfinished⟩ := hnext.own
      rcases hleaving.2 with h | h
      · exact .inr (hfinished h)
      · exact absurd h hended
    · rcases hnext.others hu with hsame | ⟨hwas, -⟩
      · rw [hsame]
        exact hleaving.2
      · rw [hwas] at hleaving
        rcases hleaving.2 with h | h <;> cases h
  last {roles t roles' todo} hnext hleaving := hnext.own.2.1 (.inr hleaving.2)
  stopped {roles t roles' todo} hnext hidle := hnext.own.2.1 (hidle.imp_right .inr)

theorem sound_initial : Sound program order initial :=
  sound_rest (fun t => by cases t <;> rfl) (fun t => by cases t <;> rfl) fun t => by cases t <;> rfl

/-- Whatever the threads are in the middle of, a running one can go on, or it waits, over a chain
of others, for one that can. No thread waits for another to end while it holds a mutex, except the
acceptor with `connectionsMutex`, for a connection that has called `finish`. -/
theorem no_deadlock {s : Id → Thread Id Mutex Role} (h : Reaches program initial s) :
    (∀ t, ¬ program.idle (s t).role →
      ∃ u, Relation.ReflTransGen (WaitsFor program s) t u ∧ CanRun program s u) ∧
    ∀ t u rest, (s t).todo = .join u :: rest → (s t).held = [] ∨
      t = .acceptor ∧ (s t).held = [.connections] ∧ (∃ clientId, u = .connection clientId) ∧
        ((s u).role = .finished ∨ (s u).role = .ended) := by
  have hsound := sound_initial.reaches keeps h
  refine ⟨fun t hrunning => hsound.waits keeps hrunning, fun t u rest htodo => ?_⟩
  have hordered := hsound.ordered t
  rw [htodo] at hordered
  rcases hordered.1 with ⟨⟨hconnection, hleaving⟩, hacceptor, hheld⟩ | ⟨hnone, -⟩
  · exact .inr ⟨hacceptor, hheld, hconnection, hleaving⟩
  · exact .inl hnone

section Reap

def midway (host caller acceptor connection : Thread Id Mutex Role) : Id → Thread Id Mutex Role
  | .host => host
  | .caller 0 => caller
  | .acceptor => acceptor
  | .connection 0 => connection
  | .caller _ => { role := .running }
  | _ => { role := .unstarted }

theorem reaches_midway {s s' : Id → Thread Id Mutex Role}
    {host caller acceptor connection : Thread Id Mutex Role} (h : Reaches program initial s)
    (t : Id) (hstep : Step program s t s')
    (hhost : s' .host = host := by rfl) (hcaller : s' (.caller 0) = caller := by rfl)
    (hacceptor : s' .acceptor = acceptor := by rfl)
    (hconnection : s' (.connection 0) = connection := by rfl)
    (hothers : ∀ n, s' (.caller (n + 1)) = { role := .running } ∧
      s' (.connection (n + 1)) = { role := .unstarted } ∧
      s' .streamer = { role := .unstarted } := by exact fun _ => ⟨rfl, rfl, rfl⟩) :
    Reaches program initial (midway host caller acceptor connection) := by
  have hsame : s' = midway host caller acceptor connection := by
    funext u
    rcases u with _ | (_ | k) | _ | _ | (_ | clientId)
    · exact hhost
    · exact hcaller
    · exact (hothers k).1
    · exact (hothers 0).2.2
    · exact hacceptor
    · exact hconnection
    · exact (hothers clientId).2.1
  exact hsame ▸ h.tail ⟨t, hstep⟩

theorem free_midway {m : Mutex} {host caller acceptor connection : Thread Id Mutex Role}
    (h : ∀ l ∈ [host, caller, acceptor, connection], m ∉ l.held) (u : Id) :
    m ∉ (midway host caller acceptor connection u).held := by
  simp only [List.mem_cons, List.not_mem_nil, or_false, forall_eq_or_imp, forall_eq] at h
  obtain ⟨hhost, hcaller, hacceptor, hconnection⟩ := h
  rcases u with _ | (_ | k) | _ | _ | (_ | clientId)
  · exact hhost
  · exact hcaller
  · exact List.not_mem_nil
  · exact List.not_mem_nil
  · exact hacceptor
  · exact hconnection
  · exact List.not_mem_nil

theorem reaches_started : Reaches program initial
    (midway { role := .serving } { role := .running } { role := .running }
      { role := .unstarted }) := by
  have hread : Reaches program initial (midway { role := .binding, todo := getSettings }
      { role := .running } { role := .unstarted } { role := .unstarted }) := by
    have hstart : Reaches program initial (midway
        { role := .binding, todo := refreshAddresses ++ getSettings } { role := .running }
        { role := .unstarted } { role := .unstarted }) :=
      reaches_midway .refl .host (.next rfl (Next.start rfl))
    have hlock : Reaches program initial (midway
        { role := .binding, todo := .unlock .state :: getSettings, held := [.state] }
        { role := .running } { role := .unstarted } { role := .unstarted }) :=
      reaches_midway hstart .host (.lock rfl (free_midway (by simp)))
    exact reaches_midway hlock .host (.unlock rfl)
  have hlock : Reaches program initial (midway
      { role := .binding, todo := [.unlock .state], held := [.state] } { role := .running }
      { role := .unstarted } { role := .unstarted }) :=
    reaches_midway hread .host (.lock rfl (free_midway (by simp)))
  have hunlock : Reaches program initial (midway { role := .binding } { role := .running }
      { role := .unstarted } { role := .unstarted }) := reaches_midway hlock .host (.unlock rfl)
  exact reaches_midway hunlock .host (.next rfl (Next.startAcceptor rfl))

theorem reaches_refused : Reaches program initial
    (midway { role := .serving } { role := .running } { role := .running }
      { role := .finished }) := by
  have haccept : Reaches program initial (midway { role := .serving } { role := .running }
      { role := .reaping, todo := [.lock .connections] } { role := .unstarted }) :=
    reaches_midway reaches_started .acceptor (.next rfl (Next.accept rfl))
  have hlock : Reaches program initial (midway { role := .serving } { role := .running }
      { role := .reaping, held := [.connections] } { role := .unstarted }) :=
    reaches_midway haccept .acceptor (.lock rfl (free_midway (by simp)))
  have hadd : Reaches program initial (midway { role := .serving } { role := .running }
      { role := .added 0, todo := [.unlock .connections], held := [.connections] }
      { role := .unstarted }) := reaches_midway hlock .acceptor (.next rfl (Next.add 0 rfl))
  have hunlock : Reaches program initial (midway { role := .serving } { role := .running }
      { role := .added 0 } { role := .unstarted }) := reaches_midway hadd .acceptor (.unlock rfl)
  have hbegin : Reaches program initial (midway { role := .serving } { role := .running }
      { role := .running } { role := .running }) :=
    reaches_midway hunlock .acceptor (.next rfl (Next.begin 0 rfl))
  exact reaches_midway hbegin (.connection 0) (.next rfl (Next.refuse 0 rfl))

theorem no_deadlock_reap :
    let s := midway { role := .serving } { role := .running, todo := getNumClients }
      { role := .reaping, todo := [.join (.connection 0)], held := [.connections] }
      { role := .finished }
    (∃ u, Relation.ReflTransGen (WaitsFor program s) (.caller 0) u ∧ CanRun program s u) ∧
      ((s .acceptor).held = [] ∨ Id.acceptor = .acceptor ∧ (s .acceptor).held = [.connections] ∧
        (∃ clientId, Id.connection 0 = .connection clientId) ∧
          ((s (.connection 0)).role = .finished ∨ (s (.connection 0)).role = .ended)) := by
  intro s
  have haccept : Reaches program initial (midway { role := .serving } { role := .running }
      { role := .reaping, todo := [.lock .connections] } { role := .finished }) :=
    reaches_midway reaches_refused .acceptor (.next rfl (Next.accept rfl))
  have hlock : Reaches program initial (midway { role := .serving } { role := .running }
      { role := .reaping, held := [.connections] } { role := .finished }) :=
    reaches_midway haccept .acceptor (.lock rfl (free_midway (by simp)))
  have hreap : Reaches program initial (midway { role := .serving } { role := .running }
      { role := .reaping, todo := [.join (.connection 0)], held := [.connections] }
      { role := .finished }) := reaches_midway hlock .acceptor (.next rfl (Next.reap 0 rfl (.inl rfl)))
  have hreaches : Reaches program initial s :=
    reaches_midway hreap (.caller 0) (.next rfl (Next.call (.inr ⟨0, rfl⟩) rfl .getNumClients))
  obtain ⟨hwaits, hjoins⟩ := no_deadlock hreaches
  refine ⟨hwaits (.caller 0) ?_, hjoins .acceptor (.connection 0) [] rfl⟩
  rintro (h | h) <;> cases h

end Reap

end Ppm.Engine.Mutexes

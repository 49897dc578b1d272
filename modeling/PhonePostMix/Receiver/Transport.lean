import Mathlib.Data.List.GetD
import PhonePostMix.Library.Runs

/-! The page's connection: the LISTEN button, the sockets it opens and their close events, and
the reconnect timer. Every handler runs to its end, or to the `await` it stops at, before the
next event is taken. -/

namespace Ppm.Receiver

inductive ReadyState where
  | connecting
  | opened
  | closing
  | closed
  deriving DecidableEq, Repr

inductive Await where
  | resume
  | wakeLock
  deriving DecidableEq, Repr

structure Caps where
  audioContext : Bool := true
  wakeLock : Bool := false

/-- `sockets` has every WebSocket the page has created, and `stopped` records that the last
thing the user did was STOP. -/
structure Page where
  sockets : List ReadyState := []
  socket : Option ℕ := none
  reconnectTimer : Bool := false
  reconnectDelay : ℕ := 500
  reconnects : ℕ := 0
  playing : Bool := false
  starting : List Await := []
  stopped : Bool := false
  deriving DecidableEq, Repr

/-- `click` says whether the audio context is running, and `settle` which of the suspended
calls of `startListening` goes on. -/
inductive PageEvent where
  | click (running : Bool)
  | settle (call : ℕ)
  | opened (id : ℕ)
  | errored (id : ℕ)
  | closed (id : ℕ)
  | reconnect

namespace Page

def readyState (p : Page) (id : ℕ) : ReadyState := p.sockets.getD id .closed

def Feeds (p : Page) (id : ℕ) : Prop :=
  -- the socket hands what it receives to `handlePacket`: nothing ever takes its `onmessage`
  -- away, so it does until it is closed
  p.readyState id = .connecting ∨ p.readyState id = .opened

def connect (p : Page) : Page :=
  if p.socket.isSome then p
  else { p with sockets := p.sockets ++ [.connecting], socket := some p.sockets.length }

def scheduleReconnect (p : Page) : Page :=
  if p.reconnectTimer then p
  else { p with reconnectTimer := true, reconnectDelay := min (p.reconnectDelay * 2) 5000 }

def onclose (p : Page) : Page := { p with socket := none }.scheduleReconnect

def reconnect (p : Page) : Page :=
  { p with reconnectTimer := false, reconnects := p.reconnects + 1 }.connect

def closeSocket (p : Page) (id : ℕ) : Page :=
  -- from `CLOSING` on, a socket delivers no message, and its close event is still to come
  if p.readyState id = .closed then p else { p with sockets := p.sockets.set id .closing }

def listen (p : Page) : Page := { p with playing := true }.connect

def requestWakeLock (caps : Caps) (p : Page) : Page :=
  if caps.wakeLock then { p with starting := p.starting ++ [.wakeLock] } else p.listen

def startListening (caps : Caps) (running : Bool) (p : Page) : Page :=
  if !caps.audioContext then p
  else if running then p.requestWakeLock caps
  else { p with starting := p.starting ++ [.resume] }

def stopListening (p : Page) : Page :=
  let p := { p with playing := false }
  match p.socket with
  | none => p
  | some id => { p.closeSocket id with socket := none }

def settle (caps : Caps) (call : ℕ) (p : Page) : Page :=
  match p.starting[call]? with
  | none => p
  | some .resume => { p with starting := p.starting.eraseIdx call }.requestWakeLock caps
  | some .wakeLock => { p with starting := p.starting.eraseIdx call }.listen

def step (caps : Caps) (p : Page) : PageEvent → Page
  | .click running =>
    if p.playing then { p with stopped := true }.stopListening
    else { p with stopped := false }.startListening caps running
  | .settle call => p.settle caps call
  | .opened id =>
    if p.readyState id = .connecting then
      { p with sockets := p.sockets.set id .opened, reconnectDelay := 500 }
    else p
  -- the error handler only shows a status
  | .errored _ => p
  | .closed id =>
    if p.readyState id = .closed then p
    else { p with sockets := p.sockets.set id .closed }.onclose
  | .reconnect => if p.reconnectTimer then p.reconnect else p

/-- No two sockets feed `handlePacket` after the event, and if the user's last action is still
STOP then, the event has created none. -/
def Disciplined (caps : Caps) (p : Page) (ev : PageEvent) : Prop :=
  (∀ i j, (p.step caps ev).Feeds i → (p.step caps ev).Feeds j → i = j) ∧
    ((p.step caps ev).stopped = true → (p.step caps ev).sockets.length = p.sockets.length)

def reaches (caps : Caps) (p : Page) (call : ℕ) : Bool :=
  match p.starting[call]? with
  | none => false
  | some .resume => !caps.wakeLock
  | some .wakeLock => true

/-- The close event of a socket does not find another one in `socket`, and after STOP neither
the timer fires nor a suspended `startListening` gets to `connect`. -/
def Timely (caps : Caps) (p : Page) : PageEvent → Prop
  | .closed id => p.readyState id ≠ .closed → ∀ current ∈ p.socket, current = id
  | .reconnect => p.reconnectTimer = true → p.stopped = false
  | .settle call => p.reaches caps call = true → p.stopped = false
  | _ => True

instance (caps : Caps) (p : Page) (ev : PageEvent) : Decidable (p.Timely caps ev) := by
  cases ev <;> (unfold Timely; infer_instance)

structure Single (p : Page) : Prop where
  current : ∀ id, p.Feeds id → p.socket = some id
  stopped : p.stopped = true → p.socket = none

variable {caps : Caps} {p : Page}

theorem Single.unique (h : Single p) (i j : ℕ) (hi : p.Feeds i) (hj : p.Feeds j) : i = j :=
  Option.some.inj ((h.current i hi).symm.trans (h.current j hj))

theorem feeds_set {state : ReadyState} (hstate : state = .closing ∨ state = .closed) {id i : ℕ}
    {p q : Page} (hq : q.sockets = p.sockets.set id state) (h : q.Feeds i) :
    i ≠ id ∧ p.Feeds i := by
  unfold Feeds readyState at h ⊢
  rw [hq, List.getD_eq_getElem?_getD, List.getElem?_set] at h
  split_ifs at h with hsame hin
  · rcases hstate with rfl | rfl <;> simp at h
  · simp at h
  · exact ⟨Ne.symm hsame, by simpa only [List.getD_eq_getElem?_getD] using h⟩

theorem feeds_append {i : ℕ} {p q : Page} (hq : q.sockets = p.sockets ++ [.connecting])
    (h : q.Feeds i) : i = p.sockets.length ∨ p.Feeds i := by
  unfold Feeds readyState at h ⊢
  rw [hq] at h
  rcases Nat.lt_trichotomy i p.sockets.length with hlt | heq | hgt
  · rw [List.getD_append _ _ _ _ hlt] at h
    exact .inr h
  · exact .inl heq
  · rw [List.getD_eq_default _ _ (by simp; omega)] at h
    simp at h

theorem Single.of_same {q : Page} (h : Single p) (hsockets : q.sockets = p.sockets)
    (hsocket : q.socket = p.socket) (hstopped : q.stopped = true → p.stopped = true) :
    Single q := by
  refine ⟨fun id hid => ?_, fun hq => hsocket.trans (h.stopped (hstopped hq))⟩
  unfold Feeds readyState at hid
  rw [hsockets] at hid
  exact hsocket.trans (h.current id hid)

@[simp] theorem stopped_connect : p.connect.stopped = p.stopped := by
  unfold connect
  split_ifs <;> rfl

@[simp] theorem stopped_requestWakeLock : (p.requestWakeLock caps).stopped = p.stopped := by
  unfold requestWakeLock listen
  split_ifs
  · rfl
  · exact stopped_connect

theorem single_connect (h : Single p) (hgo : p.stopped = false) : Single p.connect := by
  unfold connect
  split_ifs with hsocket
  · exact h
  · refine ⟨fun id hid => ?_, fun hstop => by simp [hgo] at hstop⟩
    rcases feeds_append rfl hid with hnew | hold
    · exact congrArg some hnew.symm
    · exact absurd (by simp [h.current id hold]) hsocket

theorem single_requestWakeLock (h : Single p) (hgo : p.stopped = false) :
    Single (p.requestWakeLock caps) := by
  unfold requestWakeLock
  split_ifs
  · exact h.of_same rfl rfl id
  · exact single_connect (h.of_same rfl rfl id) hgo

theorem single_startListening (caps : Caps) (h : Single p) (hgo : p.stopped = false)
    (running : Bool) :
    Single (p.startListening caps running) ∧ (p.startListening caps running).stopped = false := by
  unfold startListening
  split_ifs
  · exact ⟨h, hgo⟩
  · exact ⟨single_requestWakeLock h hgo, stopped_requestWakeLock.trans hgo⟩
  · exact ⟨h.of_same rfl rfl id, hgo⟩

theorem closeSocket_feeds (id : ℕ) : (p.closeSocket id).sockets.length = p.sockets.length ∧
    ∀ i, (p.closeSocket id).Feeds i → i ≠ id ∧ p.Feeds i := by
  unfold closeSocket
  split_ifs with hclosed
  · refine ⟨rfl, fun i hi => ⟨?_, hi⟩⟩
    rintro rfl
    rcases hi with hi | hi <;> exact absurd (hi.symm.trans hclosed) (by decide)
  · exact ⟨List.length_set, fun i hi => feeds_set (.inl rfl) rfl hi⟩

theorem single_stopListening (h : ∀ id, p.Feeds id → p.socket = some id) :
    Single p.stopListening ∧ p.stopListening.sockets.length = p.sockets.length := by
  obtain ⟨q, hq⟩ : ∃ q : Page, q = { p with playing := false } := ⟨_, rfl⟩
  have hcurrent : ∀ id, q.Feeds id → q.socket = some id := by
    rw [hq]
    exact h
  have hstop : p.stopListening = match q.socket with
      | none => q
      | some id => { q.closeSocket id with socket := none } := by
    rw [hq]
    rfl
  have hlength : q.sockets.length = p.sockets.length := by rw [hq]
  rw [hstop, ← hlength]
  rcases hsocket : q.socket with _ | id
  · refine ⟨⟨fun i hi => hcurrent i hi, fun _ => hsocket⟩, rfl⟩
  · obtain ⟨hcount, hfeeds⟩ := closeSocket_feeds (p := q) id
    refine ⟨⟨fun i hi => ?_, fun _ => rfl⟩, hcount⟩
    obtain ⟨hne, hi⟩ := hfeeds i hi
    have hsame := hcurrent i hi
    rw [hsocket] at hsame
    exact absurd (Option.some.inj hsame).symm hne

theorem single_closed (h : Single p) {id : ℕ} (hcurrent : ∀ current ∈ p.socket, current = id) :
    Single ({ p with sockets := p.sockets.set id .closed } : Page).onclose := by
  have hnone : ∀ i, ¬ ({ p with sockets := p.sockets.set id .closed } : Page).Feeds i := by
    intro i hi
    obtain ⟨hne, hold⟩ := feeds_set (.inr rfl) rfl hi
    exact hne (hcurrent i (h.current i hold))
  unfold onclose scheduleReconnect
  split_ifs
  · exact ⟨fun i hi => absurd hi (hnone i), fun _ => rfl⟩
  · exact ⟨fun i hi => absurd hi (hnone i), fun _ => rfl⟩

theorem onclose_length : p.onclose.sockets = p.sockets := by
  unfold onclose scheduleReconnect
  split_ifs <;> rfl

theorem single_opened (h : Single p) (id : ℕ) (hconnecting : p.readyState id = .connecting) :
    Single { p with sockets := p.sockets.set id .opened, reconnectDelay := 500 } := by
  refine ⟨fun i hi => ?_, h.stopped⟩
  show p.socket = some i
  by_cases hsame : i = id
  · rw [hsame]
    exact h.current id (.inl hconnecting)
  · apply h.current i
    unfold Feeds readyState at hi ⊢
    rw [List.getD_eq_getElem?_getD, List.getElem?_set_ne (Ne.symm hsame)] at hi
    simpa only [List.getD_eq_getElem?_getD] using hi

theorem single_settle (h : Single p) (call : ℕ)
    (htimely : p.reaches caps call = true → p.stopped = false) :
    Single (p.settle caps call) ∧
      ((p.settle caps call).stopped = true →
        (p.settle caps call).sockets.length = p.sockets.length) := by
  unfold settle
  unfold reaches at htimely
  rcases hcall : p.starting[call]? with _ | await
  · exact ⟨h, fun _ => rfl⟩
  · have hdropped : Single { p with starting := p.starting.eraseIdx call } := h.of_same rfl rfl id
    rw [hcall] at htimely
    cases await with
    | wakeLock =>
      have hgo := htimely rfl
      refine ⟨single_connect (hdropped.of_same rfl rfl id) hgo, fun hstop => ?_⟩
      rw [listen, stopped_connect] at hstop
      exact absurd (hgo.symm.trans hstop) (by decide)
    | resume =>
      rcases hlock : caps.wakeLock with _ | _
      · have hgo := htimely (by simp [hlock])
        refine ⟨single_requestWakeLock hdropped hgo, fun hstop => ?_⟩
        rw [stopped_requestWakeLock] at hstop
        exact absurd (hgo.symm.trans hstop) (by decide)
      · simp only [requestWakeLock, hlock, if_true]
        exact ⟨hdropped.of_same rfl rfl id, fun _ => trivial⟩

theorem single_step (h : Single p) (ev : PageEvent) (htimely : p.Timely caps ev) :
    Single (p.step caps ev) ∧ ((p.step caps ev).stopped = true →
      (p.step caps ev).sockets.length = p.sockets.length) := by
  cases ev with
  | click running =>
    simp only [step]
    split_ifs
    · obtain ⟨hsingle, hlength⟩ := single_stopListening (p := { p with stopped := true }) h.current
      exact ⟨hsingle, fun _ => hlength⟩
    · obtain ⟨hsingle, hgo⟩ := single_startListening caps
        (h.of_same (q := { p with stopped := false }) rfl rfl (by simp)) rfl running
      exact ⟨hsingle, fun hstop => absurd (hgo.symm.trans hstop) (by decide)⟩
  | settle call => exact single_settle h call htimely
  | opened id =>
    simp only [step]
    split_ifs with hconnecting
    · exact ⟨single_opened h id hconnecting, fun _ => List.length_set⟩
    · exact ⟨h, fun _ => rfl⟩
  | errored id => exact ⟨h, fun _ => rfl⟩
  | closed id =>
    simp only [step]
    split_ifs with hclosed
    · exact ⟨h, fun _ => rfl⟩
    · refine ⟨single_closed h (htimely hclosed), fun _ => ?_⟩
      rw [onclose_length]
      exact List.length_set
  | reconnect =>
    simp only [step]
    split_ifs with htimer
    · have hgo := htimely htimer
      refine ⟨single_connect (h.of_same rfl rfl id) hgo, fun hstop => ?_⟩
      rw [reconnect, stopped_connect] at hstop
      exact absurd (hgo.symm.trans hstop) (by decide)
    · exact ⟨h, fun _ => rfl⟩

/-- In every run in which no close event finds another socket current and nothing started before
a STOP gets to `connect` after it, at most one socket feeds the player and none is created after
a STOP. -/
theorem disciplined_run (caps : Caps) (es : List PageEvent)
    (h : Runs.Along (step caps) (Timely caps) {} es) :
    Runs.Along (step caps) (Disciplined caps) {} es := by
  have hnew : Single {} := ⟨fun id hid => by simp [Feeds, readyState] at hid, by simp⟩
  refine Runs.along_of_invariant (fun p ev hp htimely => ?_) hnew h
  obtain ⟨hsingle, hlength⟩ := single_step hp ev htimely
  exact ⟨hsingle, hsingle.unique, hlength⟩

theorem disciplined_reconnect : Runs.Along (step {}) (Disciplined {}) {}
    [.click true, .opened 0, .errored 0, .closed 0, .reconnect, .opened 1, .click true, .closed 1,
      .click true, .opened 2] :=
  disciplined_run {} _ (by decide)

/-- The timer that the close event has set fires after STOP and a new socket is created; and the
close event of the old socket makes the page forget the new one, so that the timer creates a
second one beside it. -/
theorem stop_does_not_last :
    ¬ Runs.Along (step {}) (Disciplined {}) {}
      [.click true, .opened 0, .closed 0, .click true, .reconnect] ∧
    ¬ Runs.Along (step {}) (Disciplined {}) {}
      [.click true, .opened 0, .click true, .click true, .opened 1, .closed 0, .reconnect] := by
  constructor
  · rintro ⟨-, -, -, -, ⟨-, hnone⟩, -⟩
    exact absurd (hnone rfl) (by decide)
  · rintro ⟨-, -, -, -, -, -, ⟨hunique, -⟩, -⟩
    exact absurd (hunique 1 2 (.inr rfl) (.inl rfl)) (by decide)

end Page
end Ppm.Receiver

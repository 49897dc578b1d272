import PhonePostMix.Http.HttpMessage
import PhonePostMix.Library.Runs
import PhonePostMix.Server.SendQueue
import PhonePostMix.WebSocket.FrameParser

/-! One accepted connection, as its thread runs it. A step of the machine goes from one
call of the socket to the next; what the socket, the clock and the exit flag answer is the
step's input, and between two steps other threads may enqueue frames. -/

namespace Ppm.Server
open Http WebSocket

structure Asset where
  data : List UInt8
  mimeType : List UInt8
  deriving DecidableEq, Repr

structure Owner where
  assetProvider : Option (List UInt8 → Except Exception (Option Asset))
  upgradeAuthorizer : Option (List UInt8 → Bool)
  makeAcceptKey : List UInt8 → List UInt8
  queueLimitBytes : ℕ := 2097152

def socketChunkBytes : ℕ := 2048
def maxRequestHeadBytes : ℕ := 16384
def writeDeadlineMs : UInt32 := 5000

structure WriteAll where
  data : List UInt8
  sent : ℕ := 0
  deadline : UInt32
  deriving DecidableEq, Repr

/-- What the environment answers in one step. An empty read stands for a result of zero or
less, and `written` is cut to the number of bytes offered. -/
structure Answers where
  shouldExit : Bool := false
  counter : UInt32 := 0
  ready : ℤ := 1
  read : List UInt8 := []
  written : ℤ := 0
  deriving DecidableEq, Repr

inductive WriteAll.Pass where
  | returned (ok : Bool)
  | again (accepted : List UInt8) (w : WriteAll)
  deriving DecidableEq, Repr

def WriteAll.request (w : WriteAll) : ℤ := (BitVec.ofNat 32 (w.data.length - w.sent)).toInt

def WriteAll.written (w : WriteAll) (a : Answers) : ℤ :=
  -- the result of `socket->write`, which accepts no more than it is offered
  min a.written w.request

def WriteAll.pass (w : WriteAll) (a : Answers) : WriteAll.Pass :=
  if ¬ w.sent < w.data.length then .returned true
  else if a.shouldExit then .returned false
  else if a.counter > w.deadline then .returned false
  else if a.ready < 0 then .returned false
  else if a.ready = 0 then .again [] w
  else if w.written a ≤ 0 then .returned false
  else
    .again ((w.data.drop w.sent).take (w.written a).toNat)
      { w with sent := w.sent + (w.written a).toNat }

inductive AfterWrite where
  -- the head of a 403 or 404, whose body follows whatever became of the head
  | denialHead (body : List UInt8)
  -- the head of a 200, whose asset follows only a head sent whole
  | assetHead (data : List UInt8)
  -- the last write of a static response
  | body
  | upgradeHead
  | frame
  deriving DecidableEq, Repr

inductive Phase where
  -- the loop of `handleHttp`
  | readingHead
  -- `writeAll` before it has taken its deadline from the clock
  | entering (data : List UInt8) (next : AfterWrite)
  | writing (w : WriteAll) (next : AfterWrite)
  -- the condition of the loop in `run`
  | looping
  -- the loop of `drainQueue`
  | draining
  -- `pumpIncoming` up to the push
  | pumping
  -- the loop over `nextFrame` in `pumpIncoming`
  | dispatching
  | finishing
  | finished
  | threw (e : Exception)
  deriving DecidableEq, Repr

inductive ListenerCall where
  | connected
  | disconnected
  | textMessage (message : List UInt8)
  deriving DecidableEq, Repr

/-- `head` is the local of `handleHttp`; `response`, `wire`, `popped` and `calls` record the
accepted upgrade, the bytes written, the frames taken from the queue and the listener's calls. -/
structure Connection where
  phase : Phase := .readingHead
  head : List UInt8 := []
  upgraded : Bool := false
  finished : Bool := false
  parser : FrameParser := { maxPayloadSize := 1048576 }
  sendQueue : SendQueue := {}
  response : Option (List UInt8) := none
  wire : List UInt8 := []
  popped : List Outgoing := []
  calls : List ListenerCall := []
  deriving DecidableEq, Repr

namespace Connection

def callWriteAll (c : Connection) (data : List UInt8) (next : AfterWrite) : Connection :=
  { c with phase := .entering data next }

@[simp] theorem callWriteAll_phase (c : Connection) (data : List UInt8) (next : AfterWrite) :
    (c.callWriteAll data next).phase = .entering data next := rfl

def denialHead (statusCode : ℕ) (reasonPhrase body : List UInt8) : List UInt8 :=
  makeResponseHead statusCode reasonPhrase (ascii "text/plain; charset=utf-8") body.length
    [ascii "Connection: close"]

def performUpgrade (c : Connection) (owner : Owner) (request : Request) : Connection :=
  let accept := owner.makeAcceptKey (request.header (ascii "sec-websocket-key"))
  let response := makeResponseHead 101 (ascii "Switching Protocols") [] (-1)
    [ascii "Upgrade: websocket", ascii "Connection: Upgrade",
     ascii "Sec-WebSocket-Accept: " ++ accept]
  { c with response := some response }.callWriteAll response .upgradeHead

def serveAsset (c : Connection) (owner : Owner) (request : Request) : Connection :=
  let asset : Except Exception (Option Asset) :=
    match owner.assetProvider with
    | none => .ok none
    | some provider => provider request.path
  match asset with
  | .error e => { c with phase := .threw e }
  | .ok none =>
    let body := ascii "Not found"
    c.callWriteAll (denialHead 404 (ascii "Not Found") body) (.denialHead body)
  | .ok (some asset) =>
    let head := makeResponseHead 200 (ascii "OK") asset.mimeType asset.data.length
      [ascii "Connection: close", ascii "Cache-Control: no-store"]
    c.callWriteAll head (.assetHead asset.data)

def handleRequest (c : Connection) (owner : Owner) : Connection :=
  match parseRequest c.head with
  | .error e => { c with phase := .threw e }
  | .ok none => { c with phase := .finishing }
  | .ok (some request) =>
    match request.isWebSocketUpgrade with
    | .error e => { c with phase := .threw e }
    | .ok true =>
      if owner.upgradeAuthorizer.all (fun authorize => authorize request.target) then
        c.performUpgrade owner request
      else
        let body := ascii "Forbidden"
        c.callWriteAll (denialHead 403 (ascii "Forbidden") body) (.denialHead body)
    | .ok false => c.serveAsset owner request

theorem handleRequest_cases (owner : Owner) (c : Connection) :
    (∃ e, c.handleRequest owner = { c with phase := .threw e }) ∨
      c.handleRequest owner = { c with phase := .finishing } ∨
      (∃ head body, c.handleRequest owner = c.callWriteAll head (.denialHead body)) ∨
      (∃ head data, c.handleRequest owner = c.callWriteAll head (.assetHead data)) ∨
      ∃ request, c.handleRequest owner = c.performUpgrade owner request := by
  unfold handleRequest
  split
  · exact .inl ⟨_, rfl⟩
  · exact .inr (.inl rfl)
  · split
    · exact .inl ⟨_, rfl⟩
    · split_ifs
      · exact .inr (.inr (.inr (.inr ⟨_, rfl⟩)))
      · exact .inr (.inr (.inl ⟨_, _, rfl⟩))
    · unfold serveAsset
      dsimp only
      split
      · exact .inl ⟨_, rfl⟩
      · exact .inr (.inr (.inl ⟨_, _, rfl⟩))
      · exact .inr (.inr (.inr (.inl ⟨_, _, rfl⟩)))

theorem handleRequest_ne_readingHead (owner : Owner) (c : Connection) :
    (c.handleRequest owner).phase ≠ .readingHead := by
  rcases handleRequest_cases owner c with ⟨e, he⟩ | he | ⟨head, body, he⟩ | ⟨head, data, he⟩ |
    ⟨request, he⟩
  all_goals simp [he, performUpgrade]

def readHead (owner : Owner) (c : Connection) (a : Answers) : Connection :=
  -- told to exit, the loop ends and what has arrived so far is parsed
  if a.shouldExit then c.handleRequest owner
  else if a.ready < 0 then { c with phase := .finishing }
  else if a.ready = 0 then c
  else
    match a.read.take socketChunkBytes with
    | [] => { c with phase := .finishing }
    | chunk =>
      let c := { c with head := c.head ++ chunk }
      if (find headEndMark c.head).isSome then c.handleRequest owner
      else if c.head.length > maxRequestHeadBytes then { c with phase := .finishing }
      else c

def afterWrite (c : Connection) (next : AfterWrite) (ok : Bool) : Connection :=
  match next, ok with
  -- a denial does not look at what became of its head
  | .denialHead body, _ => c.callWriteAll body .body
  | .assetHead data, true => c.callWriteAll data .body
  | .assetHead _, false => { c with phase := .finishing }
  | .body, _ => { c with phase := .finishing }
  | .upgradeHead, true =>
    { c with upgraded := true, calls := c.calls ++ [.connected], phase := .looping }
  | .upgradeHead, false => { c with phase := .finishing }
  | .frame, true => { c with phase := .draining }
  | .frame, false => { c with phase := .finishing }

def write (c : Connection) (w : WriteAll) (next : AfterWrite) (a : Answers) : Connection :=
  match w.pass a with
  | .returned ok => c.afterWrite next ok
  | .again accepted w => { c with wire := c.wire ++ accepted, phase := .writing w next }

def enqueue (owner : Owner) (c : Connection) (out : Outgoing) : Connection :=
  if c.upgraded then { c with sendQueue := (c.sendQueue.enqueue owner.queueLimitBytes out).1 }
  else c

def drain (c : Connection) : Connection :=
  match c.sendQueue.pop with
  | none => { c with phase := .pumping }
  | some (next, rest) =>
    { c with sendQueue := rest, popped := c.popped ++ [next] }.callWriteAll next.frame .frame

def pump (c : Connection) (a : Answers) : Connection :=
  if a.ready < 0 then { c with phase := .finishing }
  else if a.ready = 0 then { c with phase := .dispatching }
  else
    match a.read.take socketChunkBytes with
    | [] => { c with phase := .finishing }
    | chunk => { c with parser := c.parser.push chunk, phase := .dispatching }

def dispatch (owner : Owner) (c : Connection) (frame : Frame) : Connection :=
  if frame.opcode = .close then { c with phase := .finishing }
  else if frame.opcode = .ping then
    c.enqueue owner { frame := writeFrame [] .pong frame.payload, droppable := false }
  else if frame.opcode = .text then { c with calls := c.calls ++ [.textMessage frame.payload] }
  else c

def nextMessage (owner : Owner) (c : Connection) : Connection :=
  match c.parser.nextFrame with
  | (.error e, parser) => { c with parser, phase := .threw e }
  | (.ok (some frame), parser) => { c with parser }.dispatch owner frame
  | (.ok none, parser) =>
    { c with parser, phase := if parser.hasError then .finishing else .looping }

def finish (c : Connection) : Connection :=
  { c with
    upgraded := false
    calls := if c.upgraded then c.calls ++ [.disconnected] else c.calls
    finished := true
    phase := .finished }

def threadStep (owner : Owner) (c : Connection) (a : Answers) : Connection :=
  match c.phase with
  | .readingHead => c.readHead owner a
  | .entering data next =>
    { c with phase := .writing { data, deadline := a.counter + writeDeadlineMs } next }
  | .writing w next => c.write w next a
  | .looping => { c with phase := if a.shouldExit then .finishing else .draining }
  | .draining => c.drain
  | .pumping => c.pump a
  | .dispatching => c.nextMessage owner
  | .finishing => c.finish
  | .finished => c
  | .threw _ => c

end Connection

inductive ConnectionEvent where
  | thread (a : Answers)
  | enqueue (out : Outgoing)

namespace Connection

def step (owner : Owner) (c : Connection) : ConnectionEvent → Connection
  | .thread a => c.threadStep owner a
  | .enqueue out => c.enqueue owner out

def run (owner : Owner) (c : Connection) (es : List ConnectionEvent) : Connection :=
  Runs.run (step owner) c es

end Connection
end Ppm.Server

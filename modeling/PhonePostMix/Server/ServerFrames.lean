import PhonePostMix.Listen.Connect
import PhonePostMix.Server.Handover

/-! The frames that a connection enqueues: the broadcasts, and a pong for every ping in the bytes
that its parser is fed. -/

namespace Ppm.Server
open DropOldest Listen Streaming WebSocket

/-- What the standard lets a server send: a final and unmasked frame without extensions, with the
shortest length field, and of a control frame no more than 125 bytes. -/
def Legal (frame : List UInt8) : Prop := ∃ b0 b1 extended payload,
  frame = b0 :: b1 :: extended ++ payload ∧ b0 &&& 0xf0 = 0x80 ∧ b1 &&& 0x80 = 0 ∧
    LengthField payload.length (b1 :: extended) ∧
    (∀ field, LengthField payload.length field → (b1 :: extended).length ≤ field.length) ∧
    (b0 &&& 0x08 ≠ 0 → payload.length ≤ 125 ∧ extended = [])

section Legal
variable {opcode : Opcode} {payload : List UInt8}

theorem firstByte (c : UInt8) : c < 16 →
    (0x80 ||| c) &&& 0xf0 = 0x80 ∧ (0x80 ||| c) &&& 0x08 = c &&& 0x08 := by
  obtain ⟨c⟩ := c
  revert c
  decide +kernel

theorem legal_writeFrame (hop : opcode.code < 16) (hsize : payload.length < sizeModulus)
    (hcontrol : opcode.isControl = true → payload.length ≤ 125) :
    Legal (writeFrame [] opcode payload) := by
  obtain ⟨hfinal, hkind⟩ := firstByte opcode.code hop
  obtain ⟨b1, extended, hheader, hmask, hfield, hshortest, -⟩ := frameHeader_field opcode hsize
  refine ⟨_, b1, extended, payload, ?_, hfinal, hmask, hfield, hshortest, fun hbit => ?_⟩
  · rw [writeFrame, hheader, List.nil_append]
  · rw [hkind] at hbit
    have hsmall := hcontrol (bne_iff_ne.mpr hbit)
    have hone := hshortest _ (.short hsmall)
    rw [List.length_cons, List.length_singleton] at hone
    exact ⟨hsmall, List.eq_nil_of_length_eq_zero (by omega)⟩

theorem length_frameHeader (opcode : Opcode) (n : ℕ) : 2 ≤ (frameHeader opcode n).length := by
  unfold frameHeader
  split_ifs <;> simp

theorem Legal.length_le (h : Legal (writeFrame [] opcode payload)) (hop : opcode.code < 16)
    (hcontrol : opcode.isControl = true) : payload.length ≤ 125 := by
  obtain ⟨b0, b1, extended, payload', hframe, -, -, -, -, hsmall⟩ := h
  rw [writeFrame, List.nil_append] at hframe
  have hfirst : b0 = 0x80 ||| opcode.code := (List.cons.inj hframe).1.symm
  have hbit : b0 &&& 0x08 ≠ 0 := by
    rw [hfirst, (firstByte opcode.code hop).2]
    exact bne_iff_ne.mp hcontrol
  obtain ⟨hle, rfl⟩ := hsmall hbit
  have hheader := length_frameHeader opcode payload.length
  have hlength := congrArg List.length hframe
  simp only [List.length_append, List.length_cons, List.length_nil] at hlength
  omega

end Legal

abbrev Sized := { bytes : List UInt8 // bytes.length < sizeModulus }

inductive Call where
  | broadcastBinary (data : Sized)
  | broadcastText (text : Sized)
  | thread (a : Answers)

def Call.event : Call → ConnectionEvent
  | broadcastBinary data => .enqueue { frame := writeFrame [] .binary data }
  | broadcastText text => .enqueue { frame := writeTextFrame [] text, droppable := false }
  | thread a => .thread a

def Connection.queued (c : Connection) : ConnectionEvent → List Outgoing
  | .enqueue out => if c.upgraded then [out] else []
  | .thread _ => c.pongQueued

structure Outbox where
  tap : Tap := {}
  enqueued : List Outgoing := []

namespace Outbox

def step (owner : Owner) (o : Outbox) (call : Call) : Outbox where
  tap := o.tap.step owner call.event
  enqueued := o.enqueued ++ o.tap.conn.queued call.event

def run (owner : Owner) (calls : List Call) : Outbox := Runs.run (step owner) {} calls

end Outbox

section Queue
variable {owner : Owner} {c : Connection} {enqueued : List Outgoing}

/-- The record is that of the queue: what was put into it has left it in order, is still there,
or was a broadcast of audio that was discarded. -/
def Recorded (c : Connection) (enqueued : List Outgoing) : Prop :=
  ∃ discarded, Delivery (·.droppable) enqueued c.popped c.sendQueue.queue discarded

theorem Recorded.of_eq {d : Connection} (h : Recorded c enqueued)
    (hqueue : d.sendQueue = c.sendQueue) (hpopped : d.popped = c.popped) :
    Recorded d enqueued := by
  obtain ⟨discarded, hdelivery⟩ := h
  refine ⟨discarded, ?_⟩
  rw [hqueue, hpopped]
  exact hdelivery

theorem recorded_enqueue (owner : Owner) (h : Recorded c enqueued) (out : Outgoing) :
    Recorded (c.enqueue owner out) (enqueued ++ if c.upgraded then [out] else []) := by
  unfold Connection.enqueue
  split_ifs
  · obtain ⟨discarded, hdelivery⟩ := h
    exact ⟨_, SendQueue.delivery_enqueue owner.queueLimitBytes out hdelivery⟩
  · rw [List.append_nil]
    exact h

theorem recorded_drain (h : Recorded c enqueued) : Recorded c.drain enqueued := by
  unfold Connection.drain
  cases hpop : c.sendQueue.pop with
  | none => exact h.of_eq rfl rfl
  | some popped =>
    obtain ⟨next, rest⟩ := popped
    obtain ⟨discarded, hdelivery⟩ := h
    exact ⟨discarded, SendQueue.delivery_pop hpop hdelivery⟩

theorem queue_handleRequest (owner : Owner) (c : Connection) :
    (c.handleRequest owner).sendQueue = c.sendQueue ∧
      (c.handleRequest owner).popped = c.popped := by
  rcases Connection.handleRequest_cases owner c with ⟨e, he⟩ | he | ⟨head, body, he⟩ |
    ⟨head, data, he⟩ | ⟨request, he⟩
  all_goals simp [he, Connection.performUpgrade, Connection.callWriteAll]

theorem recorded_readHead (owner : Owner) (h : Recorded c enqueued) (a : Answers) :
    Recorded (c.readHead owner a) enqueued := by
  unfold Connection.readHead
  split_ifs
  · exact h.of_eq (queue_handleRequest owner c).1 (queue_handleRequest owner c).2
  · exact h.of_eq rfl rfl
  · exact h
  · split
    · exact h.of_eq rfl rfl
    · dsimp only
      split_ifs
      · exact h.of_eq (queue_handleRequest owner _).1 (queue_handleRequest owner _).2
      · exact h.of_eq rfl rfl
      · exact h.of_eq rfl rfl

theorem recorded_write (h : Recorded c enqueued) (w : WriteAll) (next : AfterWrite)
    (a : Answers) : Recorded (c.write w next a) enqueued := by
  unfold Connection.write
  cases w.pass a with
  | again accepted w' => exact h.of_eq rfl rfl
  | returned ok => cases next <;> cases ok <;> exact h.of_eq rfl rfl

theorem recorded_pump (h : Recorded c enqueued) (a : Answers) : Recorded (c.pump a) enqueued := by
  unfold Connection.pump
  split_ifs
  · exact h.of_eq rfl rfl
  · exact h.of_eq rfl rfl
  · split <;> exact h.of_eq rfl rfl

theorem recorded_nextMessage (owner : Owner) (h : Recorded c enqueued)
    (hphase : c.phase = .dispatching) :
    Recorded (c.nextMessage owner) (enqueued ++ c.pongQueued) := by
  unfold Connection.pongQueued
  rw [hphase]
  dsimp only
  rcases hnext : c.parser.nextFrame with ⟨_ | _ | frame, parser⟩ <;>
    simp only [Connection.nextMessage, hnext, FrameParser.delivered]
  case error e =>
    have hnone : pongs (Option.toList none) = [] := rfl
    rw [hnone, ite_self, List.append_nil]
    exact h.of_eq rfl rfl
  case ok.none =>
    have hnone : pongs (Option.toList none) = [] := rfl
    rw [hnone, ite_self, List.append_nil]
    exact h.of_eq rfl rfl
  case ok.some =>
    unfold Connection.dispatch
    by_cases hping : frame.opcode = .ping
    · have hclose : frame.opcode ≠ .close := by
        rw [hping]
        decide
      have hpong : pongs (some frame).toList = [pongFor frame] := by simp [pongs, hping]
      rw [if_neg hclose, if_pos hping, hpong]
      exact recorded_enqueue owner (h.of_eq (d := { c with parser }) rfl rfl) (pongFor frame)
    · have hpong : pongs (some frame).toList = [] := by simp [pongs, hping]
      rw [if_neg hping, hpong, ite_self, List.append_nil]
      split_ifs <;> exact h.of_eq rfl rfl

theorem pongQueued_quiet (hphase : c.phase ≠ .dispatching) : c.pongQueued = [] := by
  unfold Connection.pongQueued
  split
  · exact absurd ‹_› hphase
  · rfl

theorem recorded_threadStep (owner : Owner) (h : Recorded c enqueued)
    (hquiet : c.phase ≠ .dispatching) (a : Answers) :
    Recorded (c.threadStep owner a) enqueued := by
  unfold Connection.threadStep
  cases hphase : c.phase with
  | readingHead => exact recorded_readHead owner h a
  | entering data next => exact h.of_eq rfl rfl
  | writing w next => exact recorded_write h w next a
  | looping => exact h.of_eq rfl rfl
  | draining => exact recorded_drain h
  | pumping => exact recorded_pump h a
  | dispatching => exact absurd hphase hquiet
  | finishing => exact h.of_eq rfl rfl
  | finished => exact h
  | threw e => exact h

theorem recorded_step (owner : Owner) (h : Recorded c enqueued) (e : ConnectionEvent) :
    Recorded (c.step owner e) (enqueued ++ c.queued e) := by
  cases e with
  | enqueue out => exact recorded_enqueue owner h out
  | thread a =>
    show Recorded (c.threadStep owner a) (enqueued ++ c.pongQueued)
    by_cases hphase : c.phase = .dispatching
    · unfold Connection.threadStep
      rw [hphase]
      exact recorded_nextMessage owner h hphase
    · rw [pongQueued_quiet hphase, List.append_nil]
      exact recorded_threadStep owner h hphase a

end Queue

def isPong (out : Outgoing) : Bool := out.frame.head? = some 0x8a

theorem isPong_pongFor (f : Frame) : isPong (pongFor f) = true := rfl

theorem filter_isPong_pongs (frames : List Frame) :
    (pongs frames).filter isPong = pongs frames := by
  refine List.filter_eq_self.mpr fun out hout => ?_
  obtain ⟨f, -, rfl⟩ := List.mem_map.mp hout
  exact isPong_pongFor f

theorem broadcast_legal {call : Call} {out : Outgoing} (h : call.event = .enqueue out) :
    Legal out.frame ∧ isPong out = false := by
  cases call with
  | broadcastBinary data =>
    obtain rfl := ConnectionEvent.enqueue.inj h
    exact ⟨legal_writeFrame (by decide) data.2 fun h => absurd h (by decide), rfl⟩
  | broadcastText text =>
    obtain rfl := ConnectionEvent.enqueue.inj h
    exact ⟨legal_writeFrame (by decide) text.2 fun h => absurd h (by decide), rfl⟩
  | thread a => cases h

namespace Outbox

structure Sound (o : Outbox) : Prop where
  tap : o.tap.Sound
  recorded : Recorded o.tap.conn o.enqueued
  answered : o.enqueued.filter isPong = o.tap.pongs
  others : ∀ out ∈ o.enqueued, isPong out = false → Legal out.frame

theorem sound_new : Sound {} := ⟨Tap.sound_new, ⟨0, .empty _⟩, rfl, nofun⟩

theorem sound_step (owner : Owner) {o : Outbox} (h : Sound o) (call : Call) :
    Sound (o.step owner call) := by
  have htap := Tap.sound_step owner h.tap call.event
  have hrecorded := recorded_step owner h.recorded call.event
  cases hevent : call.event with
  | enqueue out =>
    obtain ⟨hlegal, hpong⟩ := broadcast_legal hevent
    have hqueued : ∀ out' ∈ o.tap.conn.queued (.enqueue out), out' = out := by
      intro out' hout
      unfold Connection.queued at hout
      split_ifs at hout
      · exact List.mem_singleton.mp hout
      · cases hout
    have hnone : (o.tap.conn.queued (.enqueue out)).filter isPong = [] :=
      List.filter_eq_nil_iff.mpr fun out' hout => by simp [hqueued out' hout, hpong]
    rw [hevent] at htap hrecorded
    unfold step
    rw [hevent]
    refine ⟨htap, hrecorded, ?_, fun out' hout hnot => ?_⟩
    · dsimp only
      rw [List.filter_append, hnone, List.append_nil]
      exact h.answered
    · rcases List.mem_append.mp hout with hout | hout
      · exact h.others out' hout hnot
      · rw [hqueued out' hout]
        exact hlegal
  | thread a =>
    have hpongs : o.tap.conn.queued (.thread a) = o.tap.conn.pongQueued := rfl
    have hfilter : o.tap.conn.pongQueued.filter isPong = o.tap.conn.pongQueued := by
      unfold Connection.pongQueued
      split
      · split_ifs
        · exact filter_isPong_pongs _
        · rfl
      · rfl
    rw [hevent] at htap hrecorded
    unfold step
    rw [hevent]
    refine ⟨htap, hrecorded, ?_, fun out hout hnot => ?_⟩
    · dsimp only
      rw [hpongs, List.filter_append, hfilter, h.answered]
      rfl
    · rcases List.mem_append.mp hout with hout | hout
      · exact h.others out hout hnot
      · rw [hpongs, ← hfilter] at hout
        have hpong := (List.mem_filter.mp hout).2
        rw [hnot] at hpong
        cases hpong

theorem sound_run (owner : Owner) (calls : List Call) : Sound (run owner calls) :=
  Runs.invariant (I := Sound) (fun _ call h => sound_step owner h call) sound_new calls

/-- The parser was fed exactly what follows the head, and what the client is told and the pongs in
the record of the queue are settled by those bytes whenever the parser has been asked for all its
messages. -/
def HandedOver (o : Outbox) (headSize : ℕ) : Prop :=
  let rest := (received o.tap.reads).drop headSize
  pushed o.tap.ops = rest ∧ (o.tap.conn.phase ≠ .dispatching →
    textMessages o.tap.conn.calls = texts (heard rest) ∧
      o.enqueued.filter isPong = pongs (heard rest))

theorem run_tap (owner : Owner) (calls : List Call) :
    (run owner calls).tap = Tap.run owner (calls.map Call.event) := by
  induction calls using List.reverseRecOn with
  | nil => rfl
  | append_singleton calls call ih =>
    rw [List.map_append, run, Tap.run, Runs.run_append, Runs.run_append]
    exact congrArg (Tap.step owner · call.event) ih

/-- After an accepted upgrade the bytes behind the head reach the parser, and decide the texts
and the pongs, exactly if one of the reads ends with the head's blank line. -/
theorem handed_over_iff (owner : Owner) (calls : List Call) {response : List UInt8}
    (hresponse : (run owner calls).tap.conn.response = some response) :
    let o := run owner calls
    Recorded o.tap.conn o.enqueued ∧
      ∃ headSize, headLength (received o.tap.reads) = some headSize ∧
        (HandedOver o headSize ↔ EndsAt o.tap.reads headSize) := by
  intro o
  have h : Sound o := sound_run owner calls
  obtain ⟨headSize, hhead, hfed⟩ :=
    Tap.fed_iff owner (calls.map Call.event) (run_tap owner calls ▸ hresponse)
  rw [← run_tap] at hhead hfed
  refine ⟨h.recorded, headSize, hhead, fun hover => hfed.mp hover.1, fun hends => ?_⟩
  have hpushed : pushed o.tap.ops = (received o.tap.reads).drop headSize := hfed.mpr hends
  refine ⟨hpushed, fun hphase => ?_⟩
  rw [← hpushed, ← h.tap.messages_eq hphase, h.answered]
  exact ⟨h.tap.texts, h.tap.pongs⟩

def exchange (reads : List (List UInt8)) : List Call :=
  (reads.head?.toList.map fun read => .thread { read }) ++
    [.thread {}, .thread { written := 4096 }, .thread {}] ++
    reads.tail.flatMap fun read =>
      [.thread {}, .thread {}, .thread { read }, .thread {}, .thread {}, .thread {}]

def pingFrame : List UInt8 := [0x89, 0x80, 0, 0, 0, 0]

theorem handed_over_two_reads :
    HandedOver (run Connection.emptyServer
        (exchange [Tap.upgradeRequest, Tap.textFrame ++ pingFrame]))
      Tap.upgradeRequest.length := by
  have hsome : (run Connection.emptyServer (exchange
      [Tap.upgradeRequest, Tap.textFrame ++ pingFrame])).tap.conn.response.isSome = true := by
    decide +kernel
  obtain ⟨-, headSize, hhead, hiff⟩ := handed_over_iff _ _ (Option.some_get hsome).symm
  have hsize : headLength (received (run Connection.emptyServer
      (exchange [Tap.upgradeRequest, Tap.textFrame ++ pingFrame])).tap.reads) =
        some Tap.upgradeRequest.length := by
    decide +kernel
  obtain rfl := Option.some.inj (hhead.symm.trans hsize)
  exact hiff.mpr ⟨_, List.take_prefix 1 _, by decide +kernel⟩

/-- Frames that arrive in the read that ends the head are never parsed: no text is delivered and no
pong queued. -/
theorem frames_lost_with_head :
    let frames := Tap.textFrame ++ pingFrame
    let one := run Connection.emptyServer (exchange [Tap.upgradeRequest ++ frames])
    let two := run Connection.emptyServer (exchange [Tap.upgradeRequest, frames])
    received one.tap.reads = received two.tap.reads ∧
      headLength (received one.tap.reads) = some Tap.upgradeRequest.length ∧
      (received one.tap.reads).drop Tap.upgradeRequest.length = frames ∧
      one.tap.conn.upgraded = true ∧ pushed one.tap.ops = [] ∧
      textMessages one.tap.conn.calls = [] ∧ one.enqueued.map (·.frame) = [] ∧
      two.tap.conn.upgraded = true ∧ pushed two.tap.ops = frames ∧
      textMessages two.tap.conn.calls = [[0x68, 0x69]] ∧
      two.enqueued.map (·.frame) = [[0x8a, 0]] := by
  decide +kernel

/-- Every ping so far is answered, in order and with its own payload, and every frame is legal. -/
structure Conforming (o : Outbox) : Prop where
  answered : o.enqueued.filter isPong = pongs o.tap.messages
  legal : ∀ out ∈ o.enqueued, Legal out.frame

/-- The pings that a connection answers are those in the bytes behind the head, up to a close or
an error. Each has its pong, and what is enqueued is legal exactly if no ping carries more than a
control frame may. -/
theorem conforming_iff (owner : Owner) (calls : List Call) :
    let o := run owner calls
    Recorded o.tap.conn o.enqueued ∧
      (o.tap.conn.phase ≠ .dispatching → o.tap.messages = heard (pushed o.tap.ops)) ∧
      (Conforming o ↔ ∀ f ∈ o.tap.messages, f.opcode = .ping → f.payload.length ≤ 125) := by
  intro o
  have h : Sound o := sound_run owner calls
  have hanswered : o.enqueued.filter isPong = pongs o.tap.messages := h.answered.trans h.tap.pongs
  refine ⟨h.recorded, h.tap.messages_eq, ?_⟩
  constructor
  · intro hconforming f hf hping
    have hpong : pongFor f ∈ pongs o.tap.messages :=
      List.mem_map_of_mem (List.mem_filter.mpr ⟨hf, decide_eq_true hping⟩)
    rw [← hanswered] at hpong
    have hlegal := hconforming.legal _ (List.mem_filter.mp hpong).1
    exact hlegal.length_le (by decide) (by decide)
  · intro hsmall
    refine ⟨hanswered, fun out hout => ?_⟩
    cases hpong : isPong out with
    | false => exact h.others out hout hpong
    | true =>
      have hmem : out ∈ pongs o.tap.messages := hanswered ▸ List.mem_filter.mpr ⟨hout, hpong⟩
      obtain ⟨f, hf, rfl⟩ := List.mem_map.mp hmem
      obtain ⟨hf, hping⟩ := List.mem_filter.mp hf
      have hle := hsmall f hf (of_decide_eq_true hping)
      exact legal_writeFrame (by decide) (hle.trans_lt (by decide)) fun _ => hle

def longPayload : List UInt8 := List.replicate 126 0x70

def pinged : List Call := [.thread { read := Tap.upgradeRequest }, .thread {},
  .thread { written := 4096 }, .thread {}, .thread {}, .thread {},
  .thread { read := [0x89, 0xfe, 0, 126, 0, 0, 0, 0] ++ longPayload }, .thread {}, .thread {}]

/-- The answer to a long ping is a control frame with a header of four bytes. -/
theorem long_ping_answered :
    (run Connection.emptyServer pinged).enqueued.map (·.frame) =
        [[0x8a, 126, 0, 126] ++ longPayload] ∧
      ¬ Conforming (run Connection.emptyServer pinged) := by
  have hframes : (run Connection.emptyServer pinged).enqueued.map (·.frame) =
      [[0x8a, 126, 0, 126] ++ longPayload] := by decide +kernel
  have hwritten : [0x8a, 126, 0, 126] ++ longPayload = writeFrame [] .pong longPayload := by
    decide +kernel
  refine ⟨hframes, fun h => ?_⟩
  have hmem : writeFrame [] .pong longPayload ∈
      (run Connection.emptyServer pinged).enqueued.map (·.frame) := by
    rw [hframes, hwritten]
    exact List.mem_singleton_self _
  obtain ⟨out, hout, hframe⟩ := List.mem_map.mp hmem
  have hlegal := h.legal out hout
  rw [hframe] at hlegal
  have hle := hlegal.length_le (by decide) (by decide)
  rw [longPayload, List.length_replicate] at hle
  omega

end Outbox
end Ppm.Server

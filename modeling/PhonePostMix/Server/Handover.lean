import PhonePostMix.Server.Lifecycle
import PhonePostMix.Server.ListenerCalls
import PhonePostMix.Server.RequestHead
import PhonePostMix.Server.Wire

/-! What a client sends behind its upgrade request: the bytes read with the end of the head stay
in the head, and the parser gets those of later reads. -/

namespace Ppm.Server
open Http WebSocket Streaming

def untilClose : List Frame → List Frame
  -- the messages the loop over `nextFrame` comes to: it ends with the first close
  | [] => []
  | frame :: rest => if frame.opcode = .close then [frame] else frame :: untilClose rest

def heard (bytes : List UInt8) : List Frame :=
  untilClose ((FrameParser.new 1048576).push bytes).drain.frames

def texts (frames : List Frame) : List (List UInt8) :=
  (frames.filter (·.opcode = .text)).map (·.payload)

def pongFor (frame : Frame) : Outgoing where
  frame := writeFrame [] .pong frame.payload
  droppable := false

def pongs (frames : List Frame) : List Outgoing := (frames.filter (·.opcode = .ping)).map pongFor

def textMessages (calls : List ListenerCall) : List (List UInt8) :=
  calls.filterMap fun
    | .textMessage message => some message
    | _ => none

section UntilClose
variable {frames rest : List Frame}

theorem untilClose_append (h : ∀ f ∈ frames, f.opcode ≠ .close) (rest : List Frame) :
    untilClose (frames ++ rest) = frames ++ untilClose rest := by
  induction frames with
  | nil => rfl
  | cons f frames ih =>
    obtain ⟨hf, hframes⟩ := List.forall_mem_cons.mp h
    rw [List.cons_append, untilClose, if_neg hf, ih hframes, List.cons_append]

theorem untilClose_concat {f : Frame} (h : ∀ f ∈ frames, f.opcode ≠ .close)
    (hf : f.opcode = .close) (rest : List Frame) :
    untilClose ((frames ++ [f]) ++ rest) = frames ++ [f] := by
  rw [List.append_assoc, untilClose_append h]
  exact congrArg (frames ++ ·) (if_pos hf)

end UntilClose

namespace Connection

def taken (c : Connection) (a : Answers) : List Answers :=
  let read : Answers := { read := a.read.take socketChunkBytes }
  match c.phase with
  | .readingHead => if a.shouldExit ∨ a.ready ≤ 0 then [] else [read]
  | .pumping => if a.ready ≤ 0 then [] else [read]
  | _ => []

def parserCalls (c : Connection) (a : Answers) : List (Op UInt8) :=
  match c.phase with
  | .pumping =>
    if a.ready ≤ 0 ∨ a.read.take socketChunkBytes = [] then []
    else [.push (a.read.take socketChunkBytes)]
  | .dispatching => [.next]
  | _ => []

def pongQueued (c : Connection) : List Outgoing :=
  match c.phase with
  | .dispatching =>
    if c.upgraded then pongs (FrameParser.delivered c.parser.nextFrame.1).toList else []
  | _ => []

end Connection

/-- A connection with a record of its reads, of the calls to its parser and of its pongs. -/
structure Tap where
  conn : Connection := {}
  reads : List Answers := []
  ops : List (Op UInt8) := []
  pongs : List Outgoing := []

namespace Tap

def step (owner : Owner) (t : Tap) : ConnectionEvent → Tap
  | .enqueue out => { t with conn := t.conn.enqueue owner out }
  | .thread a =>
    { conn := t.conn.threadStep owner a
      reads := t.reads ++ t.conn.taken a
      ops := t.ops ++ t.conn.parserCalls a
      pongs := t.pongs ++ t.conn.pongQueued }

def run (owner : Owner) (es : List ConnectionEvent) : Tap := Runs.run (step owner) {} es

theorem run_conn (owner : Owner) (es : List ConnectionEvent) :
    (run owner es).conn = Connection.run owner {} es := by
  induction es using List.reverseRecOn with
  | nil => rfl
  | append_singleton es e ih =>
    rw [run, Connection.run, Runs.run_append, Runs.run_append]
    show (step owner (run owner es) e).conn = (Connection.run owner {} es).step owner e
    rw [← ih]
    cases e with
    | thread a => rfl
    | enqueue out => rfl

def messages (t : Tap) : List Frame := ((FrameParser.new 1048576).run t.ops).1

structure Handed (t : Tap) : Prop where
  split : received t.reads = t.conn.head ++ pushed t.ops
  ends : EndsAt t.reads t.conn.head.length
  first : ∃ n, headLength t.conn.head = some n ∧
    ∀ e, EndsAt t.reads e → n ≤ e → t.conn.head.length ≤ e

def going (c : Connection) : Prop := c.phase ≠ .finishing ∧ c.phase ≠ .finished

structure Sound (t : Tap) : Prop where
  calling : t.conn.Calling
  wire : t.conn.WireSound
  parser : ((FrameParser.new 1048576).run t.ops).2 = t.conn.parser
  reading : t.conn.phase = .readingHead →
    t.ops = [] ∧ t.conn.head = received t.reads ∧ headLength t.conn.head = none
  handed : ∀ response, t.conn.response = some response → Handed t
  texts : textMessages t.conn.calls = texts t.messages
  pongs : t.pongs = Server.pongs t.messages
  unclosed : going t.conn → ∀ f ∈ t.messages, f.opcode ≠ .close
  settled : t.conn.phase ≠ .dispatching →
    untilClose (t.messages ++ t.conn.parser.drain.frames) = t.messages

theorem sound_new : Sound {} where
  calling := Connection.calling_new
  wire := Connection.wireSound_new
  parser := rfl
  reading _ := ⟨rfl, rfl, by decide⟩
  handed response h := by simp at h
  texts := rfl
  pongs := rfl
  unclosed _ := by simp [messages, FrameParser.run]
  settled _ := by
    have hnext : (FrameParser.new 1048576).nextFrame = (.ok none, .new 1048576) := by
      rw [FrameParser.nextFrame_live rfl]
      rfl
    show untilClose (FrameParser.new 1048576).drain.frames = []
    rw [(FrameParser.new_follows 1048576).drained hnext]
    rfl

variable {owner : Owner} {t : Tap} {d : Connection}

theorem Sound.quiet (h : Sound t) (hcalling : d.Calling) (hwire : d.WireSound)
    (hphase : t.conn.phase ≠ .dispatching ∨ d.phase = .dispatching)
    (hreading : d.phase = .readingHead → t.conn.phase = .readingHead)
    (hgoing : going d → going t.conn) (hhead : d.head = t.conn.head)
    (hparser : d.parser = t.conn.parser) (hresponse : d.response = t.conn.response)
    (htexts : textMessages d.calls = textMessages t.conn.calls) :
    Sound { t with conn := d } where
  calling := hcalling
  wire := hwire
  parser := h.parser.trans hparser.symm
  reading hphase := by
    rw [hhead]
    exact h.reading (hreading hphase)
  handed response hr := by
    obtain ⟨hsplit, hends, hfirst⟩ := h.handed response (hresponse ▸ hr)
    rw [← hhead] at hsplit hends hfirst
    exact ⟨hsplit, hends, hfirst⟩
  texts := htexts.trans h.texts
  pongs := h.pongs
  unclosed hd := h.unclosed (hgoing hd)
  settled hd := by
    rw [hparser]
    exact h.settled (hphase.resolve_right hd)

theorem step_quiet (owner : Owner) {a : Answers} (hreading : t.conn.phase ≠ .readingHead)
    (hpumping : t.conn.phase ≠ .pumping) (hdispatching : t.conn.phase ≠ .dispatching) :
    t.step owner (.thread a) = { t with conn := t.conn.threadStep owner a } := by
  have htaken : t.conn.taken a = [] := by
    unfold Connection.taken
    split <;> simp_all
  have hcalls : t.conn.parserCalls a = [] := by
    unfold Connection.parserCalls
    split <;> simp_all
  have hpong : t.conn.pongQueued = [] := by
    unfold Connection.pongQueued
    split <;> simp_all
  rw [step, htaken, hcalls, hpong, List.append_nil, List.append_nil, List.append_nil]

theorem sound_enqueue (owner : Owner) (h : Sound t) (out : Outgoing) :
    Sound (t.step owner (.enqueue out)) := by
  have hsame : (t.conn.enqueue owner out).phase = t.conn.phase ∧
      (t.conn.enqueue owner out).head = t.conn.head ∧
      (t.conn.enqueue owner out).parser = t.conn.parser ∧
      (t.conn.enqueue owner out).response = t.conn.response := by
    unfold Connection.enqueue
    split_ifs
    · exact ⟨rfl, rfl, rfl, rfl⟩
    · exact ⟨rfl, rfl, rfl, rfl⟩
  obtain ⟨hphase, hhead, hparser, hresponse⟩ := hsame
  refine h.quiet (Connection.calling_enqueue owner h.calling out)
    (Connection.wireSound_enqueue owner out h.wire) ?_ (hphase ▸ id) (by simp [going, hphase]) hhead
    hparser hresponse (by rw [Connection.calls_enqueue])
  by_cases hd : t.conn.phase = .dispatching
  · exact .inr (hphase.trans hd)
  · exact .inl hd

theorem Sound.head (h : Sound t) (hphase : t.conn.phase = .readingHead) (reads : List Answers)
    (hcalling : d.Calling) (hwire : d.WireSound)
    (hreading : d.phase = .readingHead → d.head = received reads ∧ headLength d.head = none)
    (hhanded : ∀ response, d.response = some response → Handed { t with conn := d, reads })
    (hparser : d.parser = t.conn.parser) (hcalls : d.calls = t.conn.calls) :
    Sound { t with conn := d, reads } where
  calling := hcalling
  wire := hwire
  parser := h.parser.trans hparser.symm
  reading hphase' := ⟨(h.reading hphase).1, hreading hphase'⟩
  handed := hhanded
  texts := (congrArg textMessages hcalls).trans h.texts
  pongs := h.pongs
  unclosed _ := h.unclosed (by simp [going, hphase])
  settled _ := by
    rw [hparser]
    exact h.settled (by simp [hphase])

theorem handed_found {a : Answers} {n : ℕ} (hops : t.ops = [])
    (hhead : t.conn.head = received t.reads) (hmark : headLength t.conn.head = none)
    (hd : d.head = t.conn.head ++ a.received) (hfound : headLength d.head = some n) :
    Handed { t with conn := d, reads := t.reads ++ [a] } := by
  have hall : d.head = received (t.reads ++ [a]) := by
    rw [hd, hhead, received_concat]
  refine ⟨?_, ?_, n, hfound, fun e he hle => ?_⟩
  · show received (t.reads ++ [a]) = d.head ++ pushed t.ops
    rw [hops, ← hall]
    exact (List.append_nil _).symm
  · show EndsAt (t.reads ++ [a]) d.head.length
    rw [hall]
    exact endsAt_self _
  · rcases endsAt_concat he with hearlier | rfl
    · -- the head read so far would have had the blank line
      have hshort : n ≤ t.conn.head.length := by
        rw [hhead]
        exact hle.trans (endsAt_le hearlier)
      rw [hd] at hfound
      rw [headLength_of_earlier hfound hshort] at hmark
      cases hmark
    · show d.head.length ≤ _
      rw [hall]

theorem parser_handleRequest (owner : Owner) (c : Connection) :
    (c.handleRequest owner).parser = c.parser := by
  rcases Connection.handleRequest_cases owner c with ⟨e, he⟩ | he | ⟨head, body, he⟩ |
    ⟨head, data, he⟩ | ⟨request, he⟩
  all_goals simp [he, Connection.performUpgrade, Connection.callWriteAll]

theorem parser_readHead (owner : Owner) (c : Connection) (a : Answers) :
    (c.readHead owner a).parser = c.parser := by
  unfold Connection.readHead
  split_ifs
  · exact parser_handleRequest owner c
  · rfl
  · rfl
  · split
    · rfl
    · dsimp only
      split_ifs
      · exact parser_handleRequest owner _
      · rfl
      · rfl

theorem head_readHead (owner : Owner) {c : Connection} (a : Answers)
    (hphase : c.phase = .readingHead) :
    (c.readHead owner a).head = c.head ++ received (c.taken a) := by
  have hread : ∀ bytes, received [({ read := bytes } : Answers)] = bytes :=
    fun bytes => List.append_nil bytes
  unfold Connection.readHead Connection.taken
  rw [hphase]
  dsimp only
  by_cases hexit : a.shouldExit = true
  · rw [if_pos hexit, if_pos (.inl hexit), Connection.handleRequest_head]
    exact (List.append_nil _).symm
  by_cases herror : a.ready < 0
  · rw [if_neg hexit, if_pos herror, if_pos (.inr herror.le)]
    exact (List.append_nil _).symm
  by_cases hidle : a.ready = 0
  · rw [if_neg hexit, if_neg herror, if_pos hidle, if_pos (.inr hidle.le)]
    exact (List.append_nil _).symm
  rw [if_neg hexit, if_neg herror, if_neg hidle, if_neg (not_or.mpr ⟨hexit, by omega⟩), hread]
  cases a.read.take socketChunkBytes with
  | nil => exact (List.append_nil _).symm
  | cons b bytes =>
    dsimp only
    split_ifs
    · exact Connection.handleRequest_head owner _
    · rfl
    · rfl

theorem readHead_cases (owner : Owner) {c : Connection} (a : Answers)
    (hphase : c.phase = .readingHead) (hmark : headLength c.head = none) :
    ((c.readHead owner a).phase = .finishing ∧ (c.readHead owner a).response = c.response) ∨
      (c.readHead owner a = c ∧ c.taken a = []) ∨
      ∃ chunk : Answers, c.taken a = [chunk] ∧
        ((headLength (c.head ++ chunk.received) = none ∧
            c.readHead owner a = { c with head := c.head ++ chunk.received }) ∨
          ∃ n, headLength (c.head ++ chunk.received) = some n ∧
            c.readHead owner a =
              { c with head := c.head ++ chunk.received }.handleRequest owner) := by
  have hclose : c.handleRequest owner = { c with phase := .finishing } := by
    unfold Connection.handleRequest
    rw [parseRequest_of_no_mark (find_of_headLength hmark)]
  unfold Connection.readHead Connection.taken
  rw [hphase]
  dsimp only
  by_cases hexit : a.shouldExit = true
  · rw [if_pos hexit, hclose]
    exact .inl ⟨rfl, rfl⟩
  rw [if_neg hexit]
  by_cases herror : a.ready < 0
  · rw [if_pos herror]
    exact .inl ⟨rfl, rfl⟩
  rw [if_neg herror]
  by_cases hidle : a.ready = 0
  · rw [if_pos hidle, if_pos (.inr hidle.le)]
    exact .inr (.inl ⟨rfl, rfl⟩)
  rw [if_neg hidle, if_neg (not_or.mpr ⟨hexit, by omega⟩)]
  have hchunk : ({ read := a.read.take socketChunkBytes } : Answers).received =
      a.read.take socketChunkBytes := rfl
  generalize a.read.take socketChunkBytes = bytes at hchunk
  cases bytes with
  | nil => exact .inl ⟨rfl, rfl⟩
  | cons b bytes =>
    dsimp only
    split_ifs with hfound hlong
    · obtain ⟨headEnd, hfind⟩ := Option.isSome_iff_exists.mp hfound
      refine .inr (.inr ⟨_, rfl, .inr ⟨headEnd + headEndMark.length, ?_, rfl⟩⟩)
      rw [hchunk, headLength, hfind]
      rfl
    · exact .inl ⟨rfl, rfl⟩
    · refine .inr (.inr ⟨_, rfl, .inl ⟨?_, rfl⟩⟩)
      rw [hchunk, headLength, Option.not_isSome_iff_eq_none.mp hfound]
      rfl

theorem sound_readHead (owner : Owner) (a : Answers) (h : Sound t)
    (hphase : t.conn.phase = .readingHead) : Sound (t.step owner (.thread a)) := by
  obtain ⟨hops, hhead, hmark⟩ := h.reading hphase
  have hnone : t.conn.response = none := (h.wire.fresh hphase).1
  have hstep : t.step owner (.thread a) =
      { t with conn := t.conn.readHead owner a, reads := t.reads ++ t.conn.taken a } := by
    simp [step, Connection.threadStep, Connection.parserCalls, Connection.pongQueued, hphase]
  have hsound := h.head hphase (t.reads ++ t.conn.taken a)
    (Connection.calling_readHead owner h.calling hphase a)
    (Connection.wireSound_readHead owner a h.wire hphase)
  rw [hstep]
  refine hsound ?_ ?_ (parser_readHead owner t.conn a) (Connection.calls_readHead owner t.conn a)
  · intro hreading
    rcases readHead_cases owner a hphase hmark with ⟨hend, -⟩ | ⟨hsame, htaken⟩ |
      ⟨chunk, htaken, ⟨hmark', hmore⟩ | ⟨n, -, hfound⟩⟩
    · rw [hend] at hreading
      cases hreading
    · rw [hsame, htaken, List.append_nil]
      exact ⟨hhead, hmark⟩
    · rw [hmore, htaken, received_concat]
      exact ⟨congrArg (· ++ chunk.received) hhead, hmark'⟩
    · rw [hfound] at hreading
      exact absurd hreading (Connection.handleRequest_ne_readingHead owner _)
  · intro response hr
    rcases readHead_cases owner a hphase hmark with ⟨-, hend⟩ | ⟨hsame, -⟩ |
      ⟨chunk, htaken, ⟨-, hmore⟩ | ⟨n, hn, hfound⟩⟩
    · rw [hend, hnone] at hr
      cases hr
    · rw [hsame, hnone] at hr
      cases hr
    · rw [hmore] at hr
      rw [show ({ t.conn with head := t.conn.head ++ chunk.received } : Connection).response = none
        from hnone] at hr
      cases hr
    · have hd : (t.conn.readHead owner a).head = t.conn.head ++ chunk.received := by
        rw [hfound, Connection.handleRequest_head]
      rw [htaken]
      exact handed_found hops hhead hmark hd (hd ▸ hn)

theorem Sound.upgrading (h : Sound t) (hweb : t.conn.phase.side = .webSocket) : Handed t := by
  cases hresponse : t.conn.response with
  | none => exact absurd hweb (h.wire.static hresponse).1
  | some response => exact h.handed response hresponse

theorem Handed.read (h : Handed t) {a : Answers} {more : List (Op UInt8)}
    (hhead : d.head = t.conn.head) (hmore : pushed more = a.received) :
    Handed { t with conn := d, reads := t.reads ++ [a], ops := t.ops ++ more } := by
  obtain ⟨hsplit, hends, n, hn, hfirst⟩ := h
  have hall : received (t.reads ++ [a]) = t.conn.head ++ pushed (t.ops ++ more) := by
    rw [received_concat, hsplit, pushed_append, hmore, List.append_assoc]
  refine ⟨?_, ?_, n, hhead ▸ hn, fun e he hle => ?_⟩
  · show received (t.reads ++ [a]) = d.head ++ _
    rw [hhead, hall]
  · show EndsAt (t.reads ++ [a]) d.head.length
    rw [hhead]
    exact hends.append [a]
  · show d.head.length ≤ e
    rw [hhead]
    rcases endsAt_concat he with hearlier | rfl
    · exact hfirst e hearlier hle
    · rw [hall, List.length_append]
      exact Nat.le_add_right _ _

theorem Sound.read (h : Sound t) (hphase : t.conn.phase = .pumping) {a : Answers}
    {more : List (Op UInt8)} (hcalling : d.Calling) (hwire : d.WireSound)
    (hreading : d.phase ≠ .readingHead)
    (hd : d.phase = .dispatching ∨ d.parser = t.conn.parser) (hhead : d.head = t.conn.head)
    (hmore : pushed more = a.received) (hcalls : d.calls = t.conn.calls)
    (hrun : (FrameParser.new 1048576).run (t.ops ++ more) = (t.messages, d.parser)) :
    Sound { t with conn := d, reads := t.reads ++ [a], ops := t.ops ++ more } := by
  have hmessages : messages { t with conn := d, reads := t.reads ++ [a], ops := t.ops ++ more } =
      t.messages := by
    show ((FrameParser.new 1048576).run (t.ops ++ more)).1 = _
    rw [hrun]
  have hgoing : going t.conn := by simp [going, hphase]
  refine ⟨hcalling, hwire, congrArg Prod.snd hrun, fun h' => absurd h' hreading, ?_, ?_, ?_, ?_, ?_⟩
  · exact fun _ _ => (h.upgrading (by rw [hphase]; rfl)).read hhead hmore
  · rw [hmessages]
    exact (congrArg textMessages hcalls).trans h.texts
  · rw [hmessages]
    exact h.pongs
  · rw [hmessages]
    exact fun _ => h.unclosed hgoing
  · rw [hmessages]
    intro hnot
    show untilClose (t.messages ++ d.parser.drain.frames) = _
    rw [hd.resolve_left hnot]
    exact h.settled (by simp [hphase])

theorem sound_pump (owner : Owner) (a : Answers) (h : Sound t) (hphase : t.conn.phase = .pumping) :
    Sound (t.step owner (.thread a)) := by
  have hcalling := Connection.calling_pump h.calling hphase a
  have hwire := Connection.wireSound_pump a h.wire hphase
  have hstep : t.step owner (.thread a) = { t with
      conn := t.conn.pump a
      reads := t.reads ++ t.conn.taken a
      ops := t.ops ++ t.conn.parserCalls a } := by
    simp [step, Connection.threadStep, Connection.pongQueued, hphase]
  rw [hstep]
  unfold Connection.pump at hcalling hwire ⊢
  unfold Connection.taken Connection.parserCalls
  rw [hphase]
  dsimp only
  by_cases herror : a.ready < 0
  · rw [if_pos herror] at hcalling hwire ⊢
    rw [if_pos herror.le, if_pos (.inl herror.le), List.append_nil, List.append_nil]
    exact h.quiet hcalling hwire (.inl (by simp [hphase])) (by simp) (by simp [going]) rfl rfl rfl
      rfl
  rw [if_neg herror] at hcalling hwire ⊢
  by_cases hidle : a.ready = 0
  · rw [if_pos hidle] at hcalling hwire ⊢
    rw [if_pos hidle.le, if_pos (.inl hidle.le), List.append_nil, List.append_nil]
    exact h.quiet hcalling hwire (.inr rfl) (by simp) (by simp [going, hphase]) rfl rfl rfl rfl
  rw [if_neg hidle] at hcalling hwire ⊢
  have hready : ¬ a.ready ≤ 0 := by omega
  rw [if_neg hready]
  simp only [hready, false_or]
  have hrun : (FrameParser.new 1048576).run t.ops = (t.messages, t.conn.parser) :=
    Prod.ext rfl h.parser
  generalize a.read.take socketChunkBytes = bytes at hcalling hwire ⊢
  cases bytes with
  | nil =>
    refine h.read hphase hcalling hwire (by simp) (.inr rfl) rfl rfl rfl ?_
    rw [if_pos rfl, List.append_nil, hrun]
  | cons b bytes =>
    rw [if_neg (by simp)]
    refine h.read hphase hcalling hwire (by simp) (.inl rfl) rfl (List.append_nil _) rfl ?_
    rw [FrameParser.run_append, hrun]
    exact Prod.ext (List.append_nil _) rfl

theorem textMessages_append (calls calls' : List ListenerCall) :
    textMessages (calls ++ calls') = textMessages calls ++ textMessages calls' :=
  List.filterMap_append

theorem dispatch_facts (owner : Owner) (c : Connection) (frame : Frame) :
    (c.dispatch owner frame).parser = c.parser ∧ (c.dispatch owner frame).head = c.head ∧
      (c.dispatch owner frame).phase = (if frame.opcode = .close then .finishing else c.phase) ∧
      textMessages (c.dispatch owner frame).calls =
        textMessages c.calls ++ Server.texts [frame] := by
  have hdistinct : Opcode.close ≠ .text ∧ Opcode.ping ≠ .text := by decide
  unfold Connection.dispatch
  split_ifs with hclose hping htext
  · exact ⟨rfl, rfl, rfl, by simp [Server.texts, hclose, hdistinct.1]⟩
  · unfold Connection.enqueue
    split_ifs
    · exact ⟨rfl, rfl, rfl, by simp [Server.texts, hping, hdistinct.2]⟩
    · exact ⟨rfl, rfl, rfl, by simp [Server.texts, hping, hdistinct.2]⟩
  · refine ⟨rfl, rfl, rfl, ?_⟩
    rw [textMessages_append]
    simp [textMessages, Server.texts, htext]
  · exact ⟨rfl, rfl, rfl, by simp [Server.texts, htext]⟩

theorem Sound.next (h : Sound t) (hphase : t.conn.phase = .dispatching) (more : List Frame)
    (hcalling : d.Calling) (hwire : d.WireSound) (hreading : d.phase ≠ .readingHead)
    (hhead : d.head = t.conn.head)
    (htexts : textMessages d.calls = textMessages t.conn.calls ++ Server.texts more)
    (hrun : (FrameParser.new 1048576).run (t.ops ++ [.next]) = (t.messages ++ more, d.parser))
    (hunclosed : going d → ∀ f ∈ more, f.opcode ≠ .close)
    (hsettled : d.phase ≠ .dispatching →
      untilClose ((t.messages ++ more) ++ d.parser.drain.frames) = t.messages ++ more) :
    Sound { t with conn := d, ops := t.ops ++ [.next], pongs := t.pongs ++ Server.pongs more } := by
  have hmessages : ∀ t' : Tap, t'.ops = t.ops ++ [.next] → t'.messages = t.messages ++ more := by
    intro t' hops
    rw [messages, hops, hrun]
  have hgoing : going t.conn := by simp [going, hphase]
  refine ⟨hcalling, hwire, congrArg Prod.snd hrun, fun h' => absurd h' hreading, fun _ _ => ?_, ?_,
    ?_, ?_, ?_⟩
  · obtain ⟨hsplit, hends, hfirst⟩ := h.upgrading (by rw [hphase]; rfl)
    rw [← hhead] at hsplit hends hfirst
    refine ⟨?_, hends, hfirst⟩
    show received t.reads = d.head ++ pushed (t.ops ++ [.next])
    rw [hsplit, pushed_append]
    exact congrArg (d.head ++ ·) (List.append_nil _).symm
  · rw [hmessages _ rfl]
    show textMessages d.calls = _
    rw [htexts, h.texts]
    simp [Server.texts]
  · rw [hmessages _ rfl]
    show t.pongs ++ _ = _
    rw [h.pongs]
    simp [Server.pongs]
  · rw [hmessages _ rfl]
    intro hd f hf
    rcases List.mem_append.mp hf with hold | hnew
    · exact h.unclosed hgoing f hold
    · exact hunclosed hd f hnew
  · rw [hmessages _ rfl]
    exact hsettled

theorem sound_nextMessage (owner : Owner) (a : Answers) (h : Sound t)
    (hphase : t.conn.phase = .dispatching) : Sound (t.step owner (.thread a)) := by
  have hcalling := Connection.calling_nextMessage owner h.calling hphase
  have hwire := Connection.wireSound_nextMessage owner h.wire hphase
  have hunclosed := h.unclosed (by simp [going, hphase])
  have hflag : t.conn.upgraded = true := h.calling.flag true (by rw [hphase]; rfl)
  have hstep : t.step owner (.thread a) = { t with
      conn := t.conn.nextMessage owner
      ops := t.ops ++ [.next]
      pongs := t.pongs ++
        Server.pongs (FrameParser.delivered t.conn.parser.nextFrame.1).toList } := by
    simp [step, Connection.threadStep, Connection.taken, Connection.parserCalls,
      Connection.pongQueued, hphase, hflag]
  have hrun : (FrameParser.new 1048576).run (t.ops ++ [.next]) =
      (t.messages ++ (FrameParser.delivered t.conn.parser.nextFrame.1).toList,
        t.conn.parser.nextFrame.2) := by
    rw [FrameParser.run_append, h.parser]
    exact Prod.ext (congrArg (t.messages ++ ·) (List.append_nil _)) rfl
  have hfollows := ((FrameParser.new_follows 1048576).run t.ops).2.1
  rw [h.parser] at hfollows
  have hmax : t.conn.parser.maxPayloadSize ≤ maxVectorSize := by
    rw [h.calling.limit]
    decide
  obtain ⟨m, hok, -, -⟩ := FrameParser.nextFrame_ok hmax
  rw [hstep]
  rcases hnext : t.conn.parser.nextFrame with ⟨_ | _ | frame, parser⟩ <;>
    rw [hnext] at hok hrun <;> simp only [Connection.nextMessage, hnext] at hcalling hwire ⊢
  case error e => simp at hok
  case ok.none =>
    refine h.next hphase [] hcalling hwire ?_ rfl (List.append_nil _).symm hrun (by simp)
      fun _ => ?_
    · dsimp only
      split_ifs <;> simp
    · show untilClose ((t.messages ++ []) ++ parser.drain.frames) = _
      rw [hfollows.drained hnext, untilClose_append (by simpa using hunclosed)]
      exact List.append_nil _
  case ok.some =>
    obtain ⟨hparser, hhead, hphase', htexts⟩ := dispatch_facts owner { t.conn with parser } frame
    refine h.next hphase [frame] hcalling hwire ?_ hhead htexts ?_ ?_ ?_
    · rw [hphase']
      split_ifs <;> simp [hphase]
    · rw [hparser]
      exact hrun
    · rintro hgoing f hf hclose
      obtain rfl := List.mem_singleton.mp hf
      rw [if_pos hclose] at hphase'
      exact hgoing.1 hphase'
    · intro hnot
      by_cases hclose : frame.opcode = .close
      · exact untilClose_concat hunclosed hclose _
      · rw [if_neg hclose] at hphase'
        exact absurd (hphase'.trans hphase) hnot

theorem threadStep_facts (owner : Owner) (c : Connection) (a : Answers)
    (hreading : c.phase ≠ .readingHead) (hpumping : c.phase ≠ .pumping)
    (hdispatching : c.phase ≠ .dispatching) :
    (c.threadStep owner a).head = c.head ∧ (c.threadStep owner a).parser = c.parser ∧
      (c.threadStep owner a).response = c.response ∧
      (c.threadStep owner a).phase ≠ .readingHead ∧
      (going (c.threadStep owner a) → going c) ∧
      textMessages (c.threadStep owner a).calls = textMessages c.calls := by
  have hcalled : textMessages [.connected] = [] ∧ textMessages [.disconnected] = [] := ⟨rfl, rfl⟩
  unfold Connection.threadStep
  cases hphase : c.phase with
  | readingHead => exact absurd hphase hreading
  | pumping => exact absurd hphase hpumping
  | dispatching => exact absurd hphase hdispatching
  | entering data next => simp [going, hphase]
  | writing w next =>
    simp only [Connection.write]
    cases w.pass a with
    | again accepted w' => simp [going, hphase]
    | returned ok =>
      cases next <;> cases ok <;>
        simp [Connection.afterWrite, Connection.callWriteAll, going, hphase, textMessages_append,
          hcalled]
  | looping =>
    dsimp only
    split_ifs <;> simp [going, hphase]
  | draining =>
    simp only [Connection.drain]
    cases c.sendQueue.pop with
    | none => simp [going, hphase]
    | some popped => simp [Connection.callWriteAll, going, hphase]
  | finishing =>
    unfold Connection.finish
    dsimp only
    split_ifs <;> simp [going, textMessages_append, hcalled]
  | finished => simp [going, hphase]
  | threw e => simp [going, hphase]

theorem sound_step (owner : Owner) (h : Sound t) (e : ConnectionEvent) :
    Sound (t.step owner e) := by
  cases e with
  | enqueue out => exact sound_enqueue owner h out
  | thread a =>
    cases hphase : t.conn.phase with
    | readingHead => exact sound_readHead owner a h hphase
    | pumping => exact sound_pump owner a h hphase
    | dispatching => exact sound_nextMessage owner a h hphase
    | _ =>
      obtain ⟨hhead, hparser, hresponse, hreading, hgoing, htexts⟩ :=
        threadStep_facts owner t.conn a (by simp [hphase]) (by simp [hphase]) (by simp [hphase])
      rw [step_quiet owner (by simp [hphase]) (by simp [hphase]) (by simp [hphase])]
      exact h.quiet (Connection.calling_threadStep owner h.calling a)
        (Connection.wireSound_threadStep owner a h.wire) (.inl (by simp [hphase]))
        (fun h' => absurd h' hreading) hgoing hhead hparser hresponse htexts

theorem sound_run (owner : Owner) (es : List ConnectionEvent) : Sound (run owner es) :=
  Runs.invariant (I := Sound) (fun _ e h => sound_step owner h e) sound_new es

def Heading (t : Tap) : Prop :=
  t.conn.head = received t.reads ∨
    ∃ n, headLength t.conn.head = some n ∧ t.conn.head <+: received t.reads

theorem heading_step (owner : Owner) (h : Sound t) (hheading : Heading t) (e : ConnectionEvent) :
    Heading (t.step owner e) := by
  by_cases hreading : t.conn.phase = .readingHead
  · cases e with
    | enqueue out =>
      exact .inl ((Connection.enqueue_head owner t.conn out).trans (h.reading hreading).2.1)
    | thread a =>
      left
      show (t.conn.threadStep owner a).head = received (t.reads ++ t.conn.taken a)
      rw [received_append, ← (h.reading hreading).2.1, Connection.threadStep, hreading]
      exact head_readHead owner a hreading
  · have hhead : (t.step owner e).conn.head = t.conn.head := by
      cases e with
      | enqueue out => exact (Connection.keeps_step owner hreading (.enqueue out)).2.1
      | thread a => exact (Connection.keeps_step owner hreading (.thread a)).2.1
    unfold Heading
    rw [hhead]
    cases e with
    | enqueue out => exact hheading
    | thread a =>
      have hmore : received t.reads <+: received (t.reads ++ t.conn.taken a) :=
        received_mono (List.prefix_append ..)
      by_cases hpumping : t.conn.phase = .pumping
      · -- a read for the parser, behind the head
        obtain ⟨hsplit, -, n, hn, -⟩ := h.upgrading (by rw [hpumping]; rfl)
        exact .inr ⟨n, hn, (hsplit ▸ List.prefix_append ..).trans hmore⟩
      · have htaken : t.conn.taken a = [] := by
          unfold Connection.taken
          split
          · exact absurd ‹_› hreading
          · exact absurd ‹_› hpumping
          · rfl
        rw [step, htaken, List.append_nil]
        exact hheading

theorem parseRequest_reads (owner : Owner) (es : List ConnectionEvent) :
    parseRequest (received (run owner es).reads) =
      parseRequest (Connection.run owner {} es).head := by
  obtain ⟨-, hheading⟩ : Sound (run owner es) ∧ Heading (run owner es) :=
    Runs.invariant (I := fun t => Sound t ∧ Heading t)
      (fun t e h => ⟨sound_step owner h.1 e, heading_step owner h.1 h.2 e⟩)
      ⟨sound_new, .inl rfl⟩ es
  rw [← run_conn]
  rcases hheading with hall | ⟨n, hn, rest, hrest⟩
  · rw [hall]
  · rw [← hrest, parseRequest_of_headLength hn]

theorem Sound.messages_eq (h : Sound t) (hphase : t.conn.phase ≠ .dispatching) :
    t.messages = heard (pushed t.ops) := by
  have hframes := FrameParser.run_drain_frames 1048576 t.ops
  have hsettled := h.settled hphase
  rw [← h.parser, messages, hframes] at hsettled
  exact hsettled.symm

/-- After an accepted upgrade the parser is fed exactly what follows the head, if and only if one of
the reads ends with the head's blank line. -/
theorem fed_iff (owner : Owner) (es : List ConnectionEvent) {response : List UInt8}
    (hresponse : (run owner es).conn.response = some response) :
    ∃ headSize, headLength (received (run owner es).reads) = some headSize ∧
      (pushed (run owner es).ops = (received (run owner es).reads).drop headSize ↔
        EndsAt (run owner es).reads headSize) := by
  have h := sound_run owner es
  generalize run owner es = t at h hresponse ⊢
  obtain ⟨hsplit, hends, n, hn, hfirst⟩ := h.handed response hresponse
  have hle := headLength_le hn
  refine ⟨n, hsplit ▸ headLength_append hn _, ?_⟩
  constructor
  · intro hfed
    -- equal suffixes of what was received start at the same place
    have hlength := congrArg List.length hfed
    rw [hsplit, List.length_drop, List.length_append] at hlength
    have hsame : t.conn.head.length = n := by omega
    rw [← hsame]
    exact hends
  · intro hend
    have hsame : t.conn.head.length = n := Nat.le_antisymm (hfirst n hend (Nat.le_refl n)) hle
    rw [hsplit, ← hsame, List.drop_left]

def upgradeRequest : List UInt8 :=
  ascii "GET / HTTP/1.1\r\nUpgrade: websocket\r\nConnection: Upgrade\r\n" ++
    ascii "Sec-WebSocket-Key: k\r\n\r\n"

def textFrame : List UInt8 := [0x81, 0x82, 0, 0, 0, 0, 0x68, 0x69]

end Tap
end Ppm.Server

import PhonePostMix.Server.Connection

/-! What a connection has written after an accepted upgrade: the 101 head and the frames it
took from its queue, without a gap and cut off at most once, at the end. -/

namespace Ppm.Server
open WebSocket

inductive Side where
  | http
  | webSocket
  | ended
  deriving DecidableEq

@[simp] def AfterWrite.side : AfterWrite → Side
  | .denialHead _ | .assetHead _ | .body => .http
  | .upgradeHead | .frame => .webSocket

@[simp] def Phase.side : Phase → Side
  | .readingHead => .http
  | .entering _ next | .writing _ next => next.side
  | .looping | .draining | .pumping | .dispatching => .webSocket
  | .finishing | .finished | .threw _ => .ended

def Phase.unsent : Phase → List UInt8
  | .entering data _ => data
  | .writing w _ => w.data.drop w.sent
  | _ => []

theorem WriteAll.pass_again {w w' : WriteAll} {a : Answers} {accepted : List UInt8}
    (h : w.pass a = .again accepted w') :
    w'.data = w.data ∧ accepted ++ w'.data.drop w'.sent = w.data.drop w.sent := by
  unfold WriteAll.pass at h
  split_ifs at h
  · obtain ⟨rfl, rfl⟩ := Pass.again.inj h
    exact ⟨rfl, rfl⟩
  · obtain ⟨rfl, rfl⟩ := Pass.again.inj h
    refine ⟨rfl, ?_⟩
    show _ ++ w.data.drop (w.sent + _) = _
    rw [← List.drop_drop, List.take_append_drop]

theorem WriteAll.pass_returned_true {w : WriteAll} {a : Answers}
    (h : w.pass a = .returned true) : w.data.drop w.sent = [] := by
  by_cases hmore : w.sent < w.data.length
  · unfold WriteAll.pass at h
    rw [if_neg (not_not_intro hmore)] at h
    split_ifs at h <;> simp at h
  · exact List.drop_eq_nil_of_le (Nat.not_lt.mp hmore)

namespace Connection

/-- The bytes an upgraded client should see: the 101 head, then every frame popped. -/
def stream (c : Connection) (response : List UInt8) : List UInt8 :=
  response ++ (c.popped.map (·.frame)).flatten

structure WireSound (c : Connection) : Prop where
  fresh : c.phase = .readingHead → c.response = none ∧ c.wire = []
  static : c.response = none → c.phase.side ≠ .webSocket ∧ c.popped = []
  upgrade : ∀ r, c.response = some r → c.phase.side ≠ .http ∧ c.wire <+: c.stream r ∧
    (c.phase.side = .webSocket → c.wire ++ c.phase.unsent = c.stream r)

theorem wireSound_new : WireSound {} where
  fresh _ := ⟨rfl, rfl⟩
  static _ := ⟨by decide, rfl⟩
  upgrade r h := by simp at h

variable {c d : Connection}

theorem WireSound.of_eq (h : WireSound c) (hphase : d.phase = c.phase)
    (hresponse : d.response = c.response) (hwire : d.wire = c.wire)
    (hpopped : d.popped = c.popped) : WireSound d := by
  refine ⟨?_, ?_, ?_⟩
  · rw [hphase, hresponse, hwire]
    exact h.fresh
  · rw [hphase, hresponse, hpopped]
    exact h.static
  · have hstream : d.stream = c.stream := by
      funext r
      rw [stream, stream, hpopped]
    rw [hphase, hresponse, hwire, hstream]
    exact h.upgrade

theorem WireSound.silent (h : WireSound c) (hside : c.phase.side = .webSocket)
    (hside' : d.phase.side ≠ .http) (hunsent : d.phase.side = .webSocket →
      d.phase.unsent = c.phase.unsent)
    (hresponse : d.response = c.response) (hwire : d.wire = c.wire)
    (hpopped : d.popped = c.popped) : WireSound d := by
  have hsome : c.response ≠ none := fun hnone => (h.static hnone).1 hside
  refine ⟨?_, ?_, ?_⟩
  · intro hphase
    exact absurd (by rw [hphase]; rfl) hside'
  · intro hnone
    exact absurd (hresponse ▸ hnone) hsome
  · intro r hr
    obtain ⟨-, hpre, hall⟩ := h.upgrade r (hresponse ▸ hr)
    have hstream : d.stream r = c.stream r := by rw [stream, stream, hpopped]
    refine ⟨hside', by rw [hwire, hstream]; exact hpre, fun hweb => ?_⟩
    rw [hwire, hstream, hunsent hweb]
    exact hall hside

theorem WireSound.serve (h : WireSound c) (hnone : c.response = none)
    (hside' : d.phase.side ≠ .webSocket) (hphase : d.phase ≠ .readingHead)
    (hresponse : d.response = none) (hpopped : d.popped = c.popped) : WireSound d := by
  refine ⟨fun hreading => absurd hreading hphase, fun _ => ⟨hside', ?_⟩, fun r hr => ?_⟩
  · rw [hpopped]
    exact (h.static hnone).2
  · rw [hresponse] at hr
    exact absurd hr (by simp)

theorem wireSound_handleRequest (owner : Owner) (h : WireSound c)
    (hreading : c.phase = .readingHead) : WireSound (c.handleRequest owner) := by
  obtain ⟨hnone, hwire⟩ := h.fresh hreading
  have hpopped := (h.static hnone).2
  rcases handleRequest_cases owner c with ⟨e, he⟩ | he | ⟨head, body, he⟩ | ⟨head, data, he⟩ |
    ⟨request, he⟩
  · rw [he]
    exact h.serve hnone (by simp) (by simp) hnone rfl
  · rw [he]
    exact h.serve hnone (by simp) (by simp) hnone rfl
  · rw [he]
    exact h.serve hnone (by simp) (by simp) hnone rfl
  · rw [he]
    exact h.serve hnone (by simp) (by simp) hnone rfl
  · rw [he]
    refine ⟨by simp [performUpgrade], by simp [performUpgrade, callWriteAll], fun r hr => ?_⟩
    obtain rfl := Option.some.inj hr
    refine ⟨by simp [performUpgrade], ?_, ?_⟩
    · simp [performUpgrade, callWriteAll, hwire]
    · simp [performUpgrade, callWriteAll, hwire, hpopped, stream, Phase.unsent]

theorem wireSound_readHead (owner : Owner) (a : Answers) (h : WireSound c)
    (hreading : c.phase = .readingHead) : WireSound (c.readHead owner a) := by
  obtain ⟨hnone, hwire⟩ := h.fresh hreading
  have hend : WireSound { c with phase := .finishing } :=
    h.serve hnone (by simp) (by simp) hnone rfl
  have hmore : ∀ head, WireSound { c with head } := fun head =>
    ⟨fun _ => ⟨hnone, hwire⟩, h.static, h.upgrade⟩
  unfold readHead
  split_ifs
  · exact wireSound_handleRequest owner h hreading
  · exact hend
  · exact h
  · split
    · exact hend
    · dsimp only
      split_ifs
      · exact wireSound_handleRequest owner (hmore _) hreading
      · exact ⟨fun hphase => absurd hphase (by simp), hend.static, hend.upgrade⟩
      · exact hmore _

theorem wireSound_again {w w' : WriteAll} {next : AfterWrite} {a : Answers}
    {accepted : List UInt8} (h : WireSound c) (hphase : c.phase = .writing w next)
    (hpass : w.pass a = .again accepted w') :
    WireSound { c with wire := c.wire ++ accepted, phase := .writing w' next } := by
  have hside : c.phase.side = next.side := by rw [hphase]; rfl
  obtain ⟨hdata, hbytes⟩ := WriteAll.pass_again hpass
  refine ⟨fun hreading => by simp at hreading, fun hnone => ?_, fun r hr => ?_⟩
  · exact ⟨fun hweb => (h.static hnone).1 (hside.trans hweb), (h.static hnone).2⟩
  · obtain ⟨hhttp, hpre, hall⟩ := h.upgrade r hr
    have hweb : c.phase.side = .webSocket := by
      rw [hside] at hhttp ⊢
      cases next <;> simp_all
    have hfull := hall hweb
    rw [hphase] at hfull
    have hstream : (c.wire ++ accepted) ++ w'.data.drop w'.sent = c.stream r := by
      rw [List.append_assoc, hbytes]
      exact hfull
    exact ⟨fun hh => hhttp (hside.trans hh), ⟨_, hstream⟩, fun _ => hstream⟩

theorem wireSound_afterStatic {next : AfterWrite} (ok : Bool) (h : WireSound c)
    (hside : c.phase.side = next.side) (hnext : next.side = .http) :
    WireSound (c.afterWrite next ok) := by
  have hnone : c.response = none := by
    by_contra hsome
    obtain ⟨r, hr⟩ := Option.ne_none_iff_exists'.mp hsome
    exact (h.upgrade r hr).1 (hside.trans hnext)
  cases next with
  | upgradeHead => cases hnext
  | frame => cases hnext
  | denialHead body => exact h.serve hnone (by simp [afterWrite]) (by simp [afterWrite]) hnone rfl
  | assetHead data =>
    cases ok with
    | true => exact h.serve hnone (by simp [afterWrite]) (by simp [afterWrite]) hnone rfl
    | false => exact h.serve hnone (by simp [afterWrite]) (by simp [afterWrite]) hnone rfl
  | body => exact h.serve hnone (by simp [afterWrite]) (by simp [afterWrite]) hnone rfl

theorem wireSound_afterWebSocket {next : AfterWrite} {ok : Bool} (h : WireSound c)
    (hside : c.phase.side = next.side) (hnext : next.side = .webSocket)
    (hsent : ok = true → c.phase.unsent = []) : WireSound (c.afterWrite next ok) := by
  have hweb := hside.trans hnext
  cases ok with
  | true =>
    cases next with
    | denialHead body => cases hnext
    | assetHead data => cases hnext
    | body => cases hnext
    | upgradeHead =>
      exact h.silent (d := c.afterWrite _ true) hweb (by simp [afterWrite])
        (fun _ => (hsent rfl).symm) rfl rfl rfl
    | frame =>
      exact h.silent (d := c.afterWrite _ true) hweb (by simp [afterWrite])
        (fun _ => (hsent rfl).symm) rfl rfl rfl
  | false =>
    cases next with
    | denialHead body => cases hnext
    | assetHead data => cases hnext
    | body => cases hnext
    | upgradeHead =>
      exact h.silent (d := c.afterWrite _ false) hweb (by simp [afterWrite])
        (by simp [afterWrite]) rfl rfl rfl
    | frame =>
      exact h.silent (d := c.afterWrite _ false) hweb (by simp [afterWrite])
        (by simp [afterWrite]) rfl rfl rfl

theorem wireSound_write {w : WriteAll} {next : AfterWrite} (a : Answers) (h : WireSound c)
    (hphase : c.phase = .writing w next) : WireSound (c.write w next a) := by
  have hside : c.phase.side = next.side := by rw [hphase]; rfl
  unfold write
  cases hpass : w.pass a with
  | again accepted w' => exact wireSound_again h hphase hpass
  | returned ok =>
    cases hnext : next.side with
    | http => exact wireSound_afterStatic ok h hside hnext
    | webSocket =>
      have hsent : ok = true → c.phase.unsent = [] := by
        rintro rfl
        rw [hphase]
        exact WriteAll.pass_returned_true hpass
      exact wireSound_afterWebSocket h hside hnext hsent
    | ended => cases next <;> cases hnext

theorem wireSound_drain (h : WireSound c) (hphase : c.phase = .draining) :
    WireSound c.drain := by
  have hweb : c.phase.side = .webSocket := by rw [hphase]; rfl
  unfold drain
  rcases c.sendQueue.pop with _ | ⟨out, rest⟩
  · exact h.silent hweb (by simp) (fun _ => by rw [hphase]; rfl) rfl rfl rfl
  · -- the popped frame is what is unsent from here on
    refine ⟨fun hreading => by simp [callWriteAll] at hreading, fun hnone => ?_, fun r hr => ?_⟩
    · exact absurd hweb (h.static hnone).1
    · obtain ⟨-, -, hall⟩ := h.upgrade r hr
      have hwire : c.wire = c.stream r := by
        have hfull := hall hweb
        rw [hphase] at hfull
        simpa [Phase.unsent] using hfull
      have hstream : c.wire ++ out.frame = r ++ ((c.popped ++ [out]).map (·.frame)).flatten := by
        rw [hwire, stream]
        simp
      refine ⟨by simp [callWriteAll], ⟨out.frame, hstream⟩, ?_⟩
      exact fun _ => hstream

theorem wireSound_enqueue (owner : Owner) (out : Outgoing) (h : WireSound c) :
    WireSound (c.enqueue owner out) := by
  unfold enqueue
  split_ifs
  · exact h.of_eq rfl rfl rfl rfl
  · exact h

theorem wireSound_dispatch (owner : Owner) (frame : Frame) (h : WireSound c)
    (hweb : c.phase.side = .webSocket) : WireSound (c.dispatch owner frame) := by
  unfold dispatch
  split_ifs
  · exact h.silent hweb (by simp) (by simp) rfl rfl rfl
  · exact wireSound_enqueue owner _ h
  · exact h.of_eq rfl rfl rfl rfl
  · exact h

theorem wireSound_nextMessage (owner : Owner) (h : WireSound c) (hphase : c.phase = .dispatching) :
    WireSound (c.nextMessage owner) := by
  have hweb : c.phase.side = .webSocket := by rw [hphase]; rfl
  rcases hnext : c.parser.nextFrame with ⟨_ | _ | frame, parser⟩ <;> simp only [nextMessage, hnext]
  case error e => exact h.silent hweb (by simp) (by simp) rfl rfl rfl
  case ok.some =>
    exact wireSound_dispatch owner frame (h.of_eq (d := { c with parser }) rfl rfl rfl rfl) hweb
  case ok.none =>
    cases parser.hasError with
    | true => exact h.silent hweb (by simp) (fun _ => by rw [hphase]; rfl) rfl rfl rfl
    | false => exact h.silent hweb (by simp) (fun _ => by rw [hphase]; rfl) rfl rfl rfl

theorem wireSound_finish (h : WireSound c) : WireSound c.finish := by
  refine ⟨fun hreading => by simp [finish] at hreading, fun hnone => ?_, fun r hr => ?_⟩
  · exact ⟨by simp [finish], (h.static hnone).2⟩
  · obtain ⟨-, hpre, -⟩ := h.upgrade r hr
    exact ⟨by simp [finish], hpre, by simp [finish]⟩

theorem wireSound_entering {data : List UInt8} {next : AfterWrite} (h : WireSound c)
    (hphase : c.phase = .entering data next) (deadline : UInt32) :
    WireSound { c with phase := .writing { data, deadline } next } := by
  have hside : c.phase.side = next.side := by rw [hphase]; rfl
  refine ⟨fun hreading => by simp at hreading, fun hnone => ?_, fun r hr => ?_⟩
  · exact ⟨fun hweb => (h.static hnone).1 (hside.trans hweb), (h.static hnone).2⟩
  · obtain ⟨hhttp, hpre, hall⟩ := h.upgrade r hr
    refine ⟨fun hh => hhttp (hside.trans hh), hpre, fun hweb => ?_⟩
    have hfull := hall (hside.trans hweb)
    rw [hphase] at hfull
    exact hfull

theorem wireSound_pump (a : Answers) (h : WireSound c) (hphase : c.phase = .pumping) :
    WireSound (c.pump a) := by
  have hweb : c.phase.side = .webSocket := by rw [hphase]; rfl
  unfold pump
  split_ifs
  · exact h.silent hweb (by simp) (fun _ => by rw [hphase]; rfl) rfl rfl rfl
  · exact h.silent hweb (by simp) (fun _ => by rw [hphase]; rfl) rfl rfl rfl
  · split
    · exact h.silent hweb (by simp) (fun _ => by rw [hphase]; rfl) rfl rfl rfl
    · exact h.silent hweb (by simp) (fun _ => by rw [hphase]; rfl) rfl rfl rfl

theorem wireSound_threadStep (owner : Owner) (a : Answers) (h : WireSound c) :
    WireSound (c.threadStep owner a) := by
  unfold threadStep
  cases hphase : c.phase with
  | readingHead => exact wireSound_readHead owner a h hphase
  | entering data next => exact wireSound_entering h hphase _
  | writing w next => exact wireSound_write a h hphase
  | looping =>
    have hweb : c.phase.side = .webSocket := by rw [hphase]; rfl
    cases a.shouldExit with
    | true => exact h.silent hweb (by simp) (fun _ => by rw [hphase]; rfl) rfl rfl rfl
    | false => exact h.silent hweb (by simp) (fun _ => by rw [hphase]; rfl) rfl rfl rfl
  | draining => exact wireSound_drain h hphase
  | pumping => exact wireSound_pump a h hphase
  | dispatching => exact wireSound_nextMessage owner h hphase
  | finishing => exact wireSound_finish h
  | finished => exact h
  | threw e => exact h

theorem wireSound_run (owner : Owner) (es : List ConnectionEvent) :
    WireSound (run owner {} es) := by
  refine Runs.invariant (fun c e h => ?_) wireSound_new es
  cases e with
  | thread a => exact wireSound_threadStep owner a h
  | enqueue out => exact wireSound_enqueue owner out h

theorem ended_step (owner : Owner) (e : ConnectionEvent) (hended : c.phase.side = .ended) :
    (c.step owner e).phase.side = .ended ∧ (c.step owner e).wire = c.wire := by
  cases e with
  | enqueue out =>
    simp only [step, enqueue]
    split_ifs
    · exact ⟨hended, rfl⟩
    · exact ⟨hended, rfl⟩
  | thread a =>
    simp only [step, threadStep]
    cases hphase : c.phase with
    | finishing => exact ⟨rfl, rfl⟩
    | finished => exact ⟨by rw [hphase]; rfl, rfl⟩
    | threw e => exact ⟨by rw [hphase]; rfl, rfl⟩
    | readingHead => simp [hphase] at hended
    | entering data next => cases next <;> simp [hphase] at hended
    | writing w next => cases next <;> simp [hphase] at hended
    | looping => simp [hphase] at hended
    | draining => simp [hphase] at hended
    | pumping => simp [hphase] at hended
    | dispatching => simp [hphase] at hended

theorem ended_run (owner : Owner) (es : List ConnectionEvent) (hended : c.phase.side = .ended) :
    (run owner c es).wire = c.wire := by
  have hkeep : (run owner c es).phase.side = .ended ∧ (run owner c es).wire = c.wire :=
    Runs.invariant (I := fun d : Connection => d.phase.side = .ended ∧ d.wire = c.wire)
    (fun d e hd => ⟨(ended_step owner e hd.1).1, (ended_step owner e hd.1).2.trans hd.2⟩)
    ⟨hended, rfl⟩ es
  exact hkeep.2

/-- After an accepted upgrade the bytes on the wire are a prefix of the 101 head and the
popped frames, and a write that fails part-way is the last. -/
theorem no_torn_frames (owner : Owner) (es : List ConnectionEvent) :
    let c := run owner {} es
    (∀ response, c.response = some response →
      c.wire <+: response ++ (c.popped.map (·.frame)).flatten) ∧
    (∀ w next a, c.phase = .writing w next → next = .upgradeHead ∨ next = .frame →
      w.pass a = .returned false → ∀ es', (run owner c (.thread a :: es')).wire = c.wire) := by
  intro c
  refine ⟨fun response hr => ((wireSound_run owner es).upgrade response hr).2.1, ?_⟩
  intro w next a hphase hnext hfail es'
  have hstep : c.step owner (.thread a) = { c with phase := .finishing } := by
    simp only [step, threadStep, hphase, write, hfail]
    rcases hnext with rfl | rfl
    · rfl
    · rfl
  show (run owner (c.step owner (.thread a)) es').wire = c.wire
  rw [hstep]
  exact ended_run owner es' rfl

end Connection
end Ppm.Server

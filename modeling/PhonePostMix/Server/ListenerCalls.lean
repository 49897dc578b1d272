import PhonePostMix.Server.Connection
import PhonePostMix.WebSocket.ParserDecoder

/-! The calls a connection makes to the server's listener: one when it is upgraded, one for every
text message, and one when its thread ends. -/

namespace Ppm.Server
open Http WebSocket

def session (messages : List (List UInt8)) : List ListenerCall :=
  -- what a connection that has sent `messages` tells the listener in its life
  .connected :: (messages.map .textMessage ++ [.disconnected])

def InSession (calls : List ListenerCall) : Prop := ∃ messages, calls <+: session messages

theorem inSession_nil : InSession [] := ⟨[], List.nil_prefix⟩

theorem InSession.of_prefix {calls calls' : List ListenerCall} (h : InSession calls)
    (hpre : calls' <+: calls) : InSession calls' := by
  obtain ⟨messages, hmessages⟩ := h
  exact ⟨messages, hpre.trans hmessages⟩

theorem inSession_connected (messages : List (List UInt8)) :
    InSession (.connected :: messages.map .textMessage) :=
  ⟨messages, List.cons_prefix_cons.mpr ⟨rfl, List.prefix_append _ _⟩⟩

theorem InSession.next {calls : List ListenerCall} {call : ListenerCall}
    (h : InSession (calls ++ [call])) :
    (calls = [] ∧ call = .connected) ∨
      .connected ∈ calls ∧ .disconnected ∉ calls ∧ call ≠ .connected := by
  obtain ⟨messages, hpre⟩ := h
  cases calls with
  | nil =>
    left
    exact ⟨rfl, (List.cons_prefix_cons.mp hpre).1⟩
  | cons first rest =>
    obtain ⟨rfl, hrest⟩ := List.cons_prefix_cons.mp hpre
    -- whatever precedes the last call is a text message
    have hcases : rest <+: messages.map .textMessage ∧
        (call = .disconnected ∨ call ∈ messages.map .textMessage) := by
      rcases List.prefix_concat_iff.mp hrest with hall | htexts
      · obtain ⟨hsame, hcall⟩ := List.append_inj' hall rfl
        exact ⟨hsame ▸ List.prefix_refl _, .inl (List.singleton_inj.mp hcall)⟩
      · exact ⟨(List.prefix_append _ _).trans htexts, .inr (htexts.subset (by simp))⟩
    obtain ⟨htexts, hcall⟩ := hcases
    right
    refine ⟨List.mem_cons_self, fun hmem => ?_, ?_⟩
    · rcases List.mem_cons.mp hmem with h | h
      · cases h
      · simpa using htexts.subset h
    · rintro rfl
      simp at hcall

def Phase.serving : Phase → Option Bool
  | .readingHead => some false
  | .entering _ next | .writing _ next => some (next = .frame)
  | .looping | .draining | .pumping | .dispatching => some true
  | .finishing => none
  | .finished | .threw _ => some false

namespace Connection

structure Calling (c : Connection) : Prop where
  limit : c.parser.maxPayloadSize = 1048576
  flag : ∀ serving ∈ c.phase.serving, c.upgraded = serving
  closed : c.upgraded = false → c.phase ≠ .finished → c.calls = []
  opened : c.upgraded = true →
    ∃ messages : List (List UInt8), c.calls = .connected :: messages.map .textMessage
  finished : c.phase = .finished → c.calls = [] ∨ ∃ messages, c.calls = session messages

theorem calling_new : Calling {} where
  limit := rfl
  flag _ h := Option.mem_some.mp h
  closed _ _ := rfl
  opened h := nomatch h
  finished h := nomatch h

variable {c d : Connection}

theorem Calling.quiet (h : Calling c) (hgoing : c.phase ≠ .finished) (hgoing' : d.phase ≠ .finished)
    (hlimit : d.parser.maxPayloadSize = c.parser.maxPayloadSize) (hflag : d.upgraded = c.upgraded)
    (hcalls : d.calls = c.calls) (hphase : ∀ serving ∈ d.phase.serving, c.upgraded = serving) :
    Calling d where
  limit := hlimit.trans h.limit
  flag serving hserving := hflag.trans (hphase serving hserving)
  closed hclosed _ := hcalls.trans (h.closed (hflag ▸ hclosed) hgoing)
  opened hopened := by
    rw [hcalls]
    exact h.opened (hflag ▸ hopened)
  finished hfinished := absurd hfinished hgoing'

theorem calling_handleRequest (owner : Owner) (h : Calling c) (hphase : c.phase = .readingHead) :
    Calling (c.handleRequest owner) := by
  have hflag : c.upgraded = false := h.flag false (by rw [hphase]; rfl)
  have hgoing : c.phase ≠ .finished := by simp [hphase]
  rcases handleRequest_cases owner c with ⟨e, he⟩ | he | ⟨head, body, he⟩ | ⟨head, data, he⟩ |
    ⟨request, he⟩
  all_goals
    rw [he]
    exact h.quiet hgoing (by simp [performUpgrade]) rfl rfl rfl
      (by simp [performUpgrade, Phase.serving, hflag])

theorem calling_readHead (owner : Owner) (h : Calling c) (hphase : c.phase = .readingHead)
    (a : Answers) : Calling (c.readHead owner a) := by
  have hgoing : c.phase ≠ .finished := by simp [hphase]
  have hend : Calling { c with phase := .finishing } :=
    h.quiet hgoing (by simp) rfl rfl rfl (by simp [Phase.serving])
  have hmore : ∀ head, Calling { c with head } := fun head =>
    ⟨h.limit, h.flag, h.closed, h.opened, h.finished⟩
  unfold readHead
  split_ifs
  · exact calling_handleRequest owner h hphase
  · exact hend
  · exact h
  · split
    · exact hend
    · dsimp only
      split_ifs
      · exact calling_handleRequest owner (hmore _) hphase
      · exact (hmore _).quiet hgoing (by simp) rfl rfl rfl (by simp [Phase.serving])
      · exact hmore _

theorem calling_write (h : Calling c) {w : WriteAll} {next : AfterWrite}
    (hphase : c.phase = .writing w next) (a : Answers) : Calling (c.write w next a) := by
  have hgoing : c.phase ≠ .finished := by simp [hphase]
  have hflag : c.upgraded = decide (next = .frame) := h.flag _ (by rw [hphase]; rfl)
  unfold write
  cases w.pass a with
  | again accepted w' =>
    exact h.quiet hgoing (by simp) rfl rfl rfl (by simp [Phase.serving, hflag])
  | returned ok =>
    by_cases hupgrade : next = .upgradeHead ∧ ok = true
    · obtain ⟨rfl, rfl⟩ := hupgrade
      have hclosed : c.calls = [] := h.closed hflag hgoing
      refine ⟨h.limit, by simp [afterWrite, Phase.serving], by simp [afterWrite], fun _ => ⟨[], ?_⟩,
        by simp [afterWrite]⟩
      simp [afterWrite, hclosed]
    · have hsame : (c.afterWrite next ok).upgraded = c.upgraded ∧
          (c.afterWrite next ok).calls = c.calls ∧ (c.afterWrite next ok).parser = c.parser ∧
          (c.afterWrite next ok).phase ≠ .finished ∧
          ∀ serving ∈ (c.afterWrite next ok).phase.serving, c.upgraded = serving := by
        rw [hflag]
        cases next <;> cases ok <;> simp_all [afterWrite, callWriteAll, Phase.serving]
      obtain ⟨hup, hcalls, hparser, hend, hserving⟩ := hsame
      exact h.quiet hgoing hend (by rw [hparser]) hup hcalls hserving

theorem calling_drain (h : Calling c) (hphase : c.phase = .draining) : Calling c.drain := by
  have hgoing : c.phase ≠ .finished := by simp [hphase]
  have hflag : c.upgraded = true := h.flag true (by rw [hphase]; rfl)
  unfold drain
  cases c.sendQueue.pop with
  | none => exact h.quiet hgoing (by simp) rfl rfl rfl (by simp [Phase.serving, hflag])
  | some popped => exact h.quiet hgoing (by simp) rfl rfl rfl (by simp [Phase.serving, hflag])

theorem calling_pump (h : Calling c) (hphase : c.phase = .pumping) (a : Answers) :
    Calling (c.pump a) := by
  have hgoing : c.phase ≠ .finished := by simp [hphase]
  have hflag : c.upgraded = true := h.flag true (by rw [hphase]; rfl)
  have hend : Calling { c with phase := .finishing } :=
    h.quiet hgoing (by simp) rfl rfl rfl (by simp [Phase.serving])
  unfold pump
  split_ifs
  · exact hend
  · exact h.quiet hgoing (by simp) rfl rfl rfl (by simp [Phase.serving, hflag])
  · split
    · exact hend
    · exact h.quiet hgoing (by simp) (FrameParser.push_maxPayloadSize _ _) rfl rfl
        (by simp [Phase.serving, hflag])

theorem calling_enqueue (owner : Owner) (h : Calling c) (out : Outgoing) :
    Calling (c.enqueue owner out) := by
  unfold enqueue
  split_ifs
  · exact ⟨h.limit, h.flag, h.closed, h.opened, h.finished⟩
  · exact h

theorem calling_dispatch (owner : Owner) (h : Calling c) (hphase : c.phase = .dispatching)
    (frame : Frame) : Calling (c.dispatch owner frame) := by
  have hgoing : c.phase ≠ .finished := by simp [hphase]
  have hflag : c.upgraded = true := h.flag true (by rw [hphase]; rfl)
  unfold dispatch
  split_ifs
  · exact h.quiet hgoing (by simp) rfl rfl rfl (by simp [Phase.serving])
  · exact calling_enqueue owner h _
  · obtain ⟨messages, hcalls⟩ := h.opened hflag
    refine ⟨h.limit, h.flag, fun hclosed => ?_, fun _ => ⟨messages ++ [frame.payload], ?_⟩,
      fun hend => absurd hend hgoing⟩
    · rw [show c.upgraded = false from hclosed] at hflag
      cases hflag
    · simp [hcalls]
  · exact h

theorem calling_nextMessage (owner : Owner) (h : Calling c) (hphase : c.phase = .dispatching) :
    Calling (c.nextMessage owner) := by
  have hgoing : c.phase ≠ .finished := by simp [hphase]
  have hflag : c.upgraded = true := h.flag true (by rw [hphase]; rfl)
  have hmax : c.parser.maxPayloadSize ≤ maxVectorSize := by
    rw [h.limit]
    decide
  -- the parser of a connection never throws, its limit being far below that of a vector
  obtain ⟨m, hok, hlimit, -⟩ := FrameParser.nextFrame_ok hmax
  rcases hnext : c.parser.nextFrame with ⟨_ | _ | frame, parser⟩ <;>
    rw [hnext] at hok hlimit <;> simp only [nextMessage, hnext]
  case error e => simp at hok
  case ok.none =>
    refine h.quiet hgoing ?_ hlimit rfl rfl ?_
    · dsimp only
      split_ifs <;> simp
    · dsimp only
      split_ifs <;> simp [Phase.serving, hflag]
  case ok.some =>
    have hparsed : Calling { c with parser } :=
      ⟨hlimit.trans h.limit, h.flag, h.closed, h.opened, h.finished⟩
    exact calling_dispatch owner hparsed hphase frame

theorem calling_finish (h : Calling c) (hphase : c.phase = .finishing) : Calling c.finish := by
  have hgoing : c.phase ≠ .finished := by simp [hphase]
  refine ⟨h.limit, by simp [finish, Phase.serving], fun _ hopen => absurd rfl hopen,
    fun hopen => (nomatch hopen), fun _ => ?_⟩
  unfold finish
  cases hflag : c.upgraded with
  | false =>
    left
    simp [h.closed hflag hgoing]
  | true =>
    right
    obtain ⟨messages, hcalls⟩ := h.opened hflag
    exact ⟨messages, by simp [hcalls, session]⟩

theorem calling_threadStep (owner : Owner) (h : Calling c) (a : Answers) :
    Calling (c.threadStep owner a) := by
  unfold threadStep
  cases hphase : c.phase with
  | readingHead => exact calling_readHead owner h hphase a
  | entering data next =>
    exact h.quiet (by simp [hphase]) (by simp) rfl rfl rfl
      fun serving hserving => h.flag serving (by rwa [hphase])
  | writing w next => exact calling_write h hphase a
  | looping =>
    have hflag : c.upgraded = true := h.flag true (by rw [hphase]; rfl)
    cases a.shouldExit <;>
      exact h.quiet (by simp [hphase]) (by simp) rfl rfl rfl (by simp [Phase.serving, hflag])
  | draining => exact calling_drain h hphase
  | pumping => exact calling_pump h hphase a
  | dispatching => exact calling_nextMessage owner h hphase
  | finishing => exact calling_finish h hphase
  | finished => exact h
  | threw e => exact h

theorem upgraded_threadStep (owner : Owner) (h : c.Calling) (hupgraded : c.upgraded = true)
    (a : Answers) :
    (c.threadStep owner a).upgraded = true ∨ (c.threadStep owner a).phase = .finished := by
  have hserving : ∀ serving ∈ c.phase.serving, true = serving := hupgraded ▸ h.flag
  unfold threadStep
  cases hphase : c.phase with
  | readingHead | finished | threw e =>
    rw [hphase] at hserving
    cases hserving false rfl
  | entering data next | looping => exact .inl hupgraded
  | writing w next =>
    rw [hphase] at hserving
    obtain rfl : next = .frame := of_decide_eq_true (hserving _ rfl).symm
    left
    simp only [write]
    cases w.pass a with
    | again accepted w' => exact hupgraded
    | returned ok => cases ok <;> exact hupgraded
  | draining =>
    left
    simp only [drain]
    split <;> exact hupgraded
  | pumping =>
    left
    simp only [pump]
    split_ifs
    · exact hupgraded
    · exact hupgraded
    · split <;> exact hupgraded
  | dispatching =>
    left
    simp only [nextMessage]
    split
    · exact hupgraded
    · unfold dispatch enqueue
      split_ifs <;> exact hupgraded
    · exact hupgraded
  | finishing => exact .inr rfl

theorem calling_step (owner : Owner) (h : Calling c) (e : ConnectionEvent) :
    Calling (c.step owner e) := by
  cases e with
  | thread a => exact calling_threadStep owner h a
  | enqueue out => exact calling_enqueue owner h out

theorem Calling.inSession (h : Calling c) : InSession c.calls := by
  cases hflag : c.upgraded with
  | true =>
    obtain ⟨messages, hcalls⟩ := h.opened hflag
    exact hcalls ▸ inSession_connected messages
  | false =>
    by_cases hphase : c.phase = .finished
    · rcases h.finished hphase with hnil | ⟨messages, hall⟩
      · exact hnil ▸ inSession_nil
      · exact ⟨messages, hall ▸ List.prefix_refl _⟩
    · exact h.closed hflag hphase ▸ inSession_nil

def hasEnded (c : Connection) : Bool :=
  match c.phase with
  | .finished | .threw _ => true
  | _ => false

theorem hasEnded_iff : c.hasEnded = true ↔ c.phase = .finished ∨ ∃ e, c.phase = .threw e := by
  unfold hasEnded
  cases c.phase <;> simp

theorem Calling.disconnected (h : Calling c) (hended : c.hasEnded = true)
    (hcalls : .connected ∈ c.calls) : .disconnected ∈ c.calls := by
  rcases hasEnded_iff.mp hended with hphase | ⟨e, hphase⟩
  · rcases h.finished hphase with hnil | ⟨messages, hall⟩
    · rw [hnil] at hcalls
      cases hcalls
    · simp [hall, session]
  · have hflag : c.upgraded = false := h.flag false (by rw [hphase]; rfl)
    rw [h.closed hflag (by simp [hphase])] at hcalls
    cases hcalls

theorem hasEnded_step (owner : Owner) (hended : c.hasEnded = true) (e : ConnectionEvent) :
    (c.step owner e).hasEnded = true ∧ (c.step owner e).calls = c.calls := by
  cases e with
  | enqueue out =>
    simp only [step, enqueue]
    split_ifs
    · exact ⟨hended, rfl⟩
    · exact ⟨hended, rfl⟩
  | thread a =>
    have hsame : c.threadStep owner a = c := by
      rcases hasEnded_iff.mp hended with hphase | ⟨e, hphase⟩
      · simp [threadStep, hphase]
      · simp [threadStep, hphase]
    rw [step, hsame]
    exact ⟨hended, rfl⟩

theorem calls_handleRequest (owner : Owner) (c : Connection) :
    (c.handleRequest owner).calls = c.calls := by
  rcases handleRequest_cases owner c with ⟨e, he⟩ | he | ⟨head, body, he⟩ | ⟨head, data, he⟩ |
    ⟨request, he⟩
  all_goals simp [he, performUpgrade, callWriteAll]

theorem calls_readHead (owner : Owner) (c : Connection) (a : Answers) :
    (c.readHead owner a).calls = c.calls := by
  unfold readHead
  split_ifs
  · exact calls_handleRequest owner c
  · rfl
  · rfl
  · split
    · rfl
    · dsimp only
      split_ifs
      · exact calls_handleRequest owner _
      · rfl
      · rfl

theorem calls_write (c : Connection) (w : WriteAll) (next : AfterWrite) (a : Answers) :
    c.calls <+: (c.write w next a).calls := by
  unfold write
  cases w.pass a with
  | again accepted w' => exact List.prefix_refl _
  | returned ok => cases next <;> cases ok <;> simp [afterWrite, callWriteAll]

theorem calls_enqueue (owner : Owner) (c : Connection) (out : Outgoing) :
    (c.enqueue owner out).calls = c.calls := by
  unfold enqueue
  split_ifs <;> rfl

theorem calls_drain (c : Connection) : c.drain.calls = c.calls := by
  unfold drain
  split <;> rfl

theorem calls_pump (c : Connection) (a : Answers) : (c.pump a).calls = c.calls := by
  unfold pump
  split_ifs
  · rfl
  · rfl
  · split <;> rfl

theorem calls_nextMessage (owner : Owner) (c : Connection) :
    c.calls <+: (c.nextMessage owner).calls := by
  unfold nextMessage
  split
  · exact List.prefix_refl _
  · unfold dispatch
    split_ifs
    · exact List.prefix_refl _
    · rw [calls_enqueue]
    · exact List.prefix_append _ _
    · exact List.prefix_refl _
  · exact List.prefix_refl _

theorem calls_step (owner : Owner) (c : Connection) (e : ConnectionEvent) :
    c.calls <+: (c.step owner e).calls := by
  cases e with
  | enqueue out => exact (calls_enqueue owner c out) ▸ List.prefix_refl _
  | thread a =>
    simp only [step, threadStep]
    cases c.phase with
    | readingHead => exact (calls_readHead owner c a) ▸ List.prefix_refl _
    | writing w next => exact calls_write c w next a
    | draining => exact (calls_drain c) ▸ List.prefix_refl _
    | pumping => exact (calls_pump c a) ▸ List.prefix_refl _
    | dispatching => exact calls_nextMessage owner c
    | finishing =>
      simp only [finish]
      split_ifs
      · exact List.prefix_append _ _
      · exact List.prefix_refl _
    | entering data next => exact List.prefix_refl _
    | looping => exact List.prefix_refl _
    | finished => exact List.prefix_refl _
    | threw e => exact List.prefix_refl _

end Connection
end Ppm.Server

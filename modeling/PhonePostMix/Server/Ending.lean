import PhonePostMix.Server.Lifecycle
import PhonePostMix.Server.ListenerCalls
import PhonePostMix.Server.Wire

/-! How many steps a connection's thread still takes: once it is told to exit, once its peer is
gone, and, unless the request is upgraded, once the socket stops timing out. -/

namespace Ppm.Server
open Http WebSocket Engine

/-- The poll fails, or the peer takes and sends nothing more. -/
def Answers.Gone (a : Answers) : Prop :=
  a.ready < 0 ∨ a.ready ≠ 0 ∧ a.read = [] ∧ a.written ≤ 0

def Answers.Last (exiting : Bool) (a : Answers) : Prop :=
  if exiting then a.shouldExit = true else a.Gone

def AfterWrite.more : AfterWrite → ℕ
  | .denialHead text | .assetHead text => 2 + text.length
  | .body | .upgradeHead | .frame => 0

namespace ConnectionEvent

def ofThread : ConnectionEvent → Bool
  | .thread _ => true
  | .enqueue _ => false

def polled : ConnectionEvent → Bool
  | .thread a => a.ready ≠ 0
  | .enqueue _ => false

def Answered (P : Answers → Prop) : ConnectionEvent → Prop
  | .thread a => P a
  | .enqueue out => out.frame ≠ []

end ConnectionEvent

namespace Connection
variable {c c' : Connection} {resources : List Resource} {authorize : List UInt8 → Bool}
  {accept : List UInt8 → List UInt8} {limit : ℕ}

/-- From here on the thread reaches `finish` in a bounded number of steps so answered. -/
def Ends (owner : Owner) (c : Connection) (P : Answers → Prop) : Prop :=
  ∃ n, ∀ es : List ConnectionEvent, (∀ e ∈ es, e.Answered P) →
    n ≤ es.countP ConnectionEvent.ofThread → (run owner c es).finished = true

structure Serves (owner : Owner) (c : Connection) : Prop where
  calm : ∀ e, c.phase ≠ .threw e
  exits : c.Ends owner (·.shouldExit = true)
  gone : c.Ends owner Answers.Gone
  /-- The head is read in a bounded number of polls, or given up. -/
  reads : c.phase = .readingHead → ∃ n, ∀ es : List ConnectionEvent,
    n ≤ es.countP ConnectionEvent.polled → (run owner c es).phase ≠ .readingHead
  /-- A refused head and a static response end the thread; only an accepted upgrade keeps it. -/
  closes : c.phase ≠ .readingHead → ∃ n, ∀ es : List ConnectionEvent,
    n ≤ es.countP ConnectionEvent.polled → (run owner c es).finished = true ∨
      c.response.isSome = true ∧ (run owner c es).upgraded = true

/-- Only an upgraded connection begins to call its listener. -/
theorem calls_threadStep_static (owner : Owner) (hcalling : Calling c) (hsound : WireSound c)
    (hnone : c.response = none) (hcalls : c.calls = []) (a : Answers) :
    (c.threadStep owner a).calls = [] := by
  obtain ⟨hside, -⟩ := hsound.static hnone
  unfold threadStep
  cases hphase : c.phase with
  | readingHead => exact (calls_readHead owner c a).trans hcalls
  | entering data next => exact hcalls
  | writing w next =>
    rw [hphase] at hside
    simp only [write]
    cases w.pass a with
    | again accepted w' => exact hcalls
    | returned ok =>
      cases next with
      | denialHead body => exact hcalls
      | assetHead data => cases ok <;> exact hcalls
      | body => exact hcalls
      | upgradeHead => exact absurd rfl hside
      | frame => exact absurd rfl hside
  | finishing =>
    have hclosed : c.upgraded = false := by
      rw [Bool.eq_false_iff]
      intro hopen
      obtain ⟨messages, hmessages⟩ := hcalling.opened hopen
      rw [hcalls] at hmessages
      cases hmessages
    simp only [finish, hclosed]
    exact hcalls
  | finished => exact hcalls
  | threw e => exact hcalls
  | _ => exact absurd (hphase ▸ rfl) hside

theorem response_of_calls (owner : Owner) (es : List ConnectionEvent)
    (h : (run owner {} es).calls ≠ []) : (run owner {} es).response ≠ none := by
  have hrun : Calling (run owner {} es) ∧ WireSound (run owner {} es) ∧
      ((run owner {} es).response = none → (run owner {} es).calls = []) := by
    refine Runs.invariant
      (I := fun c => Calling c ∧ WireSound c ∧ (c.response = none → c.calls = [])) ?_
      ⟨calling_new, wireSound_new, fun _ => rfl⟩ es
    rintro c e ⟨hcalling, hsound, hcalls⟩
    cases e with
    | enqueue out =>
      refine ⟨calling_step owner hcalling _, wireSound_enqueue owner out hsound, fun hnone => ?_⟩
      have hresponse : (c.enqueue owner out).response = c.response := by
        unfold enqueue
        split_ifs <;> rfl
      exact (calls_enqueue owner c out).trans (hcalls (hresponse ▸ hnone))
    | thread a =>
      refine ⟨calling_step owner hcalling _, wireSound_threadStep owner a hsound, fun hnone => ?_⟩
      have hbefore : c.response = none := by
        by_cases hread : c.phase = .readingHead
        · exact (hsound.fresh hread).1
        · exact (keeps_threadStep owner hread a).2.2 ▸ hnone
      exact calls_threadStep_static owner hcalling hsound hbefore (hcalls hbefore) a
  exact fun hnone => h (hrun.2.2 hnone)

theorem response_of_upgraded (owner : Owner) (es : List ConnectionEvent)
    (h : (run owner {} es).upgraded = true) : (run owner {} es).response.isSome = true := by
  have hcalling : Calling (run owner {} es) :=
    Runs.invariant (I := Calling) (fun _ e hc => calling_step owner hc e) calling_new es
  obtain ⟨messages, hcalls⟩ := hcalling.opened h
  exact Option.isSome_iff_ne_none.mpr (response_of_calls owner es (by simp [hcalls]))

def stepsLeft (exiting : Bool) (c : Connection) : ℕ :=
  -- a step leaves the rest of `run` to do; the queue counts for its empty frames, which are the
  -- ones written without asking the socket
  let idle := 3 * c.sendQueue.queue.countP (·.frame = [])
  let unread := c.parser.unread.length
  let pump := if exiting then 4 + unread + socketChunkBytes else 3
  let loop := if exiting then 2 else 5 + idle
  match c.phase with
  | .finished | .threw _ => 0
  | .finishing => 1
  | .looping => loop
  | .dispatching => loop + 1 + unread
  | .pumping => pump
  | .draining => pump + 1 + idle
  | .writing w .frame => if w.sent < w.data.length then 2 else pump + 2 + idle
  | .entering data .frame => if 0 < data.length then 3 else pump + 3 + idle
  | .writing _ .body => 2
  | .entering _ .body => 3
  | .writing _ .upgradeHead => loop + 1
  | .entering _ .upgradeHead => loop + 2
  | .writing _ _ => 4
  | .entering _ _ => 5
  | .readingHead => loop + 6

theorem pass_last {exiting : Bool} {w : WriteAll} {a : Answers} (ha : Answers.Last exiting a) :
    ∃ ok, w.pass a = .returned ok ∧ (w.sent < w.data.length → ok = false) := by
  by_cases hmore : w.sent < w.data.length
  · refine ⟨false, ?_, fun _ => rfl⟩
    unfold WriteAll.pass
    rw [if_neg (not_not_intro hmore)]
    cases exiting with
    | true =>
      have hexit : a.shouldExit = true := ha
      rw [if_pos hexit]
    | false =>
      have hgone : a.Gone := ha
      split_ifs with hexit hlate hfailed htimeout hnone
      · rfl
      · rfl
      · rfl
      · rcases hgone with hfails | ⟨hready, -, -⟩
        · exact absurd hfails hfailed
        · exact absurd htimeout hready
      · rfl
      · rcases hgone with hfails | ⟨-, -, hwritten⟩
        · exact absurd hfails hfailed
        · exact absurd ((min_le_left _ _).trans hwritten) hnone
  · exact ⟨true, by rw [WriteAll.pass, if_pos hmore], fun h => absurd h hmore⟩

theorem idle_enqueue (limit : ℕ) (q : SendQueue) {out : Outgoing} (hout : out.frame ≠ []) :
    (q.enqueue limit out).1.queue.countP (·.frame = []) ≤ q.queue.countP (·.frame = []) := by
  refine SendQueue.discard_rule
    (P := fun q' _ => q'.queue.countP (·.frame = []) ≤ q.queue.countP (·.frame = [])) ?_ _ 0 ?_
  · intro q q' n hpass hle
    obtain ⟨it, -, rfl, -⟩ := SendQueue.discardPass_eq_some hpass
    exact (List.Sublist.countP_le List.eraseP_sublist).trans hle
  · simp [hout]

theorem stepsLeft_enqueue (exiting : Bool) (owner : Owner) (c : Connection) {out : Outgoing}
    (hout : out.frame ≠ []) : (c.enqueue owner out).stepsLeft exiting ≤ c.stepsLeft exiting := by
  unfold enqueue
  split_ifs
  · have hidle := idle_enqueue owner.queueLimitBytes c.sendQueue hout
    simp only [stepsLeft]
    split <;> grind
  · exact Nat.le_refl _

variable {exiting : Bool}

theorem handleRequest_stepsLeft (owner : Owner) (c : Connection) :
    (c.handleRequest owner).stepsLeft exiting ≤
      ({ c with phase := .looping } : Connection).stepsLeft exiting + 5 := by
  rcases handleRequest_cases owner c with ⟨e, he⟩ | he | ⟨head, body, he⟩ | ⟨head, data, he⟩ |
    ⟨request, he⟩
  all_goals
    rw [he]
    cases exiting <;> simp [stepsLeft, performUpgrade, callWriteAll]

theorem stepsLeft_readHead (owner : Owner) (hphase : c.phase = .readingHead) {a : Answers}
    (ha : Answers.Last exiting a) :
    (c.readHead owner a).stepsLeft exiting ≤ c.stepsLeft exiting - 1 := by
  have hrequest : (c.handleRequest owner).stepsLeft exiting ≤ _ := handleRequest_stepsLeft owner c
  unfold readHead
  split_ifs with hexit hfailed htimeout
  · refine hrequest.trans ?_
    simp [stepsLeft, hphase]
  · simp [stepsLeft, hphase]
  · cases exiting with
    | true => exact absurd ha hexit
    | false =>
      rcases ha with hfails | ⟨hready, -⟩
      · exact absurd hfails hfailed
      · exact absurd htimeout hready
  · cases exiting with
    | true => exact absurd ha hexit
    | false =>
      rcases ha with hfails | ⟨-, hnone, -⟩
      · exact absurd hfails hfailed
      · simp [hnone, stepsLeft, hphase]

theorem stepsLeft_write {w : WriteAll} {next : AfterWrite} (hphase : c.phase = .writing w next)
    {a : Answers} (ha : Answers.Last exiting a) :
    (c.write w next a).stepsLeft exiting ≤ c.stepsLeft exiting - 1 := by
  -- `writeAll` returns at once, so no write is repeated
  obtain ⟨ok, hok, hmore⟩ := pass_last (w := w) ha
  simp only [write, hok]
  cases next with
  | frame =>
    cases ok with
    | true =>
      have hdone : ¬ w.sent < w.data.length := fun h => by simpa using hmore h
      simp only [stepsLeft, afterWrite, hphase, if_neg hdone]
      omega
    | false =>
      simp only [stepsLeft, afterWrite, hphase]
      cases exiting <;> simp only [Bool.false_eq_true, if_true, if_false] <;> split_ifs <;> omega
  | upgradeHead =>
    cases ok <;> cases exiting <;> simp [stepsLeft, afterWrite, hphase]
    omega
  | _ => cases ok <;> simp [stepsLeft, afterWrite, hphase]

theorem stepsLeft_drain (hphase : c.phase = .draining) :
    c.drain.stepsLeft exiting ≤ c.stepsLeft exiting - 1 := by
  unfold drain
  cases hpop : c.sendQueue.pop with
  | none => simp [stepsLeft, hphase]
  | some popped =>
    have hqueue := (SendQueue.pop_eq_some hpop).1
    simp only [stepsLeft, callWriteAll, hphase, hqueue, List.countP_cons]
    by_cases hempty : popped.1.frame = []
    · simp [hempty]
      omega
    · have hlength := List.length_pos_of_ne_nil hempty
      cases exiting <;> simp [hempty, hlength]
      all_goals omega

theorem stepsLeft_pump (hphase : c.phase = .pumping) {a : Answers}
    (ha : Answers.Last exiting a) : (c.pump a).stepsLeft exiting ≤ c.stepsLeft exiting - 1 := by
  have hpush := FrameParser.push_unread_length c.parser (a.read.take socketChunkBytes)
  have hchunk : (a.read.take socketChunkBytes).length ≤ socketChunkBytes :=
    List.length_take_le _ _
  cases exiting with
  | true =>
    unfold pump
    split_ifs
    · simp [stepsLeft, hphase]
      omega
    · simp [stepsLeft, hphase]
      omega
    · split
      · simp [stepsLeft, hphase]
        omega
      · simp only [stepsLeft, hphase, if_true]
        omega
  | false =>
    unfold pump
    rcases ha with hfails | ⟨hready, hnone, -⟩
    · simp [hfails, stepsLeft, hphase]
    · by_cases hfails : a.ready < 0
      · simp [hfails, stepsLeft, hphase]
      · simp [hfails, hready, hnone, stepsLeft, hphase]

theorem stepsLeft_nextMessage (owner : Owner) (hphase : c.phase = .dispatching)
    (hmax : c.parser.maxPayloadSize ≤ maxVectorSize) :
    (c.nextMessage owner).stepsLeft exiting ≤ c.stepsLeft exiting - 1 := by
  obtain ⟨m, hok, -, hunread⟩ := FrameParser.nextFrame_ok hmax
  rcases hnext : c.parser.nextFrame with ⟨_ | _ | frame, parser⟩ <;> simp only [nextMessage, hnext]
  case error e => simp [stepsLeft]
  case ok.none =>
    cases parser.hasError <;> cases exiting <;> simp [stepsLeft, hphase] <;> omega
  case ok.some =>
    -- a delivered message has taken at least one byte off the input
    have hshort := FrameParser.nextFrame_message_unread hnext
    have hloops : ({ c with parser } : Connection).stepsLeft exiting ≤ c.stepsLeft exiting - 1 := by
      cases exiting <;> simp [stepsLeft, hphase] <;> omega
    unfold dispatch
    split_ifs
    · cases exiting <;> simp [stepsLeft, hphase] <;> omega
    · exact (stepsLeft_enqueue exiting owner _ (by simp [writeFrame, frameHeader])).trans hloops
    · exact hloops
    · exact hloops

theorem stepsLeft_threadStep (owner : Owner) (c : Connection) {a : Answers}
    (ha : Answers.Last exiting a) (hmax : c.parser.maxPayloadSize ≤ maxVectorSize) :
    (c.threadStep owner a).stepsLeft exiting ≤ c.stepsLeft exiting - 1 := by
  unfold threadStep
  cases hphase : c.phase with
  | readingHead => exact stepsLeft_readHead owner hphase ha
  | entering data next =>
    cases next <;> cases exiting <;> simp [stepsLeft, hphase] <;> split_ifs <;> omega
  | writing w next => exact stepsLeft_write hphase ha
  | looping =>
    cases exiting with
    | true =>
      have hexit : a.shouldExit = true := ha
      simp [stepsLeft, hphase, hexit]
    | false =>
      cases a.shouldExit <;> simp [stepsLeft, hphase]
      omega
  | draining => exact stepsLeft_drain hphase
  | pumping => exact stepsLeft_pump hphase ha
  | dispatching => exact stepsLeft_nextMessage owner hphase hmax
  | finishing => simp [stepsLeft, finish]
  | finished => simp [stepsLeft, hphase]
  | threw e => simp [stepsLeft, hphase]

theorem stepsLeft_zero (h : c.stepsLeft exiting = 0) :
    c.phase = .finished ∨ ∃ e, c.phase = .threw e := by
  cases hphase : c.phase with
  | finished => exact .inl rfl
  | threw e => exact .inr ⟨e, rfl⟩
  | entering data next => cases next <;> grind [stepsLeft]
  | writing w next => cases next <;> grind [stepsLeft]
  | _ => cases exiting <;> simp [stepsLeft, hphase] at h

theorem limit_ok (h : Raises c) : c.parser.maxPayloadSize ≤ maxVectorSize := by
  rw [h.limit]
  decide

theorem head_step {owner : Owner} {e : ConnectionEvent}
    (he : e.Answered (Answers.Last exiting)) : (c.step owner e).head = c.head := by
  by_cases hreading : c.phase = .readingHead
  · cases e with
    | enqueue out => exact enqueue_head owner c out
    | thread a =>
      simp only [step, threadStep, hreading, readHead]
      split_ifs with hexit hfailed htimeout
      · exact handleRequest_head owner c
      · rfl
      · rfl
      · cases exiting with
        | true => exact absurd he hexit
        | false =>
          rcases he with hfails | ⟨-, hnone, -⟩
          · exact absurd hfails hfailed
          · simp [hnone]
  · exact (keeps_step owner hreading e).2.1

theorem ends_of_last {owner : Owner} (howner : owner = engineOwner resources authorize accept limit)
    (h : Raises c) (hnot : ¬ QueryOnly c.head) (exiting : Bool) :
    c.Ends owner (Answers.Last exiting) := by
  subst howner
  refine ⟨c.stepsLeft exiting, fun es hes hlong => ?_⟩
  have hrun := Runs.measure_run (step (engineOwner resources authorize accept limit))
    ConnectionEvent.ofThread (I := fun c => Raises c ∧ ¬ QueryOnly c.head)
    (m := stepsLeft exiting) ?_ ⟨h, hnot⟩ hes
  · obtain ⟨⟨hraises, hcalm⟩, hleft⟩ := hrun
    rcases stepsLeft_zero (Nat.le_zero.mp (hleft.trans (by omega))) with hphase | hthrew
    · exact hraises.finished.mpr hphase
    · exact absurd (hraises.threw.mp hthrew) hcalm
  · rintro c e ⟨hraises, hcalm⟩ he
    refine ⟨⟨raises_step hraises e, (head_step he).symm ▸ hcalm⟩, ?_⟩
    cases e with
    | thread a => exact stepsLeft_threadStep _ c he (limit_ok hraises)
    | enqueue out => exact stepsLeft_enqueue exiting _ c he

def pollsLeft (c : Connection) : ℕ :=
  -- how many more polls that do not time out the thread needs, with the head read, to finish or
  -- to be upgraded
  if c.upgraded then 0
  else
    match c.phase with
    | .finishing => 1
    | .entering data next => 3 + data.length + next.more
    | .writing w next => 2 + (w.data.length - w.sent) + next.more
    | _ => 0

theorem pass_again_sent {w w' : WriteAll} {a : Answers} {accepted : List UInt8}
    (h : w.pass a = .again accepted w') :
    (a.ready = 0 ∧ w' = w) ∨
      w.sent < w.data.length ∧ w'.data = w.data ∧ w.sent < w'.sent := by
  unfold WriteAll.pass at h
  split_ifs at h with hdone hexit hlate hfailed htimeout hnone
  · exact .inl ⟨htimeout, (WriteAll.Pass.again.inj h).2.symm⟩
  · obtain ⟨-, rfl⟩ := WriteAll.Pass.again.inj h
    right
    refine ⟨by omega, rfl, ?_⟩
    show w.sent < w.sent + (w.written a).toNat
    omega

theorem pollsLeft_write (hclosed : c.upgraded = false) {w : WriteAll} {next : AfterWrite}
    (hphase : c.phase = .writing w next) (a : Answers) :
    (c.write w next a).pollsLeft ≤ c.pollsLeft - (decide (a.ready ≠ 0)).toNat := by
  have hhere : c.pollsLeft = 2 + (w.data.length - w.sent) + next.more := by
    simp [pollsLeft, hclosed, hphase]
  have hone : (decide (a.ready ≠ 0)).toNat ≤ 1 := Bool.toNat_le _
  rw [hhere]
  unfold write
  cases hpass : w.pass a with
  | returned ok =>
    generalize (decide (a.ready ≠ 0)).toNat = k at hone ⊢
    cases next <;> cases ok <;>
      simp [pollsLeft, afterWrite, callWriteAll, AfterWrite.more, hclosed] <;> omega
  | again accepted w' =>
    have hthere : ({ c with wire := c.wire ++ accepted, phase := .writing w' next } :
        Connection).pollsLeft = 2 + (w'.data.length - w'.sent) + next.more := by
      simp [pollsLeft, hclosed]
    simp only [hthere]
    rcases pass_again_sent hpass with ⟨htimeout, rfl⟩ | ⟨hmore, hdata, hsent⟩
    · simp [htimeout]
    · rw [hdata]
      omega

theorem pollsLeft_threadStep (owner : Owner) (h : Calling c) (hread : c.phase ≠ .readingHead)
    (a : Answers) :
    (c.threadStep owner a).pollsLeft ≤ c.pollsLeft - (decide (a.ready ≠ 0)).toNat := by
  have hone : (decide (a.ready ≠ 0)).toNat ≤ 1 := Bool.toNat_le _
  cases hupgraded : c.upgraded with
  | true =>
    rcases upgraded_threadStep owner h hupgraded a with hstays | hfinished
    · simp [pollsLeft, hstays]
    · simp [pollsLeft, hfinished]
  | false =>
    have hnot : c.phase.serving ≠ some true := fun hserving => by
      rw [h.flag true hserving] at hupgraded
      cases hupgraded
    unfold threadStep
    cases hphase : c.phase with
    | readingHead => exact absurd hphase hread
    | entering data next =>
      simp only [pollsLeft, hupgraded, hphase, Bool.false_eq_true, if_false]
      omega
    | writing w next => exact pollsLeft_write hupgraded hphase a
    | finishing => simp [pollsLeft, finish]
    | finished => simp [pollsLeft, hphase]
    | threw e => simp [pollsLeft, hphase]
    | _ => exact absurd (hphase ▸ rfl) hnot

theorem pollsLeft_step (owner : Owner) (h : Calling c) (hread : c.phase ≠ .readingHead)
    (e : ConnectionEvent) : (c.step owner e).pollsLeft ≤ c.pollsLeft - e.polled.toNat := by
  cases e with
  | thread a => exact pollsLeft_threadStep owner h hread a
  | enqueue out =>
    simp only [step, enqueue]
    split_ifs <;> exact Nat.le_refl _

theorem pollsLeft_zero (h : Calling c) (hread : c.phase ≠ .readingHead) (hzero : c.pollsLeft = 0) :
    c.upgraded = true ∨ c.phase = .finished ∨ ∃ e, c.phase = .threw e := by
  cases hupgraded : c.upgraded with
  | true => exact .inl rfl
  | false =>
    right
    have hnot : c.phase.serving ≠ some true := fun hserving => by
      rw [h.flag true hserving] at hupgraded
      cases hupgraded
    cases hphase : c.phase with
    | readingHead => exact absurd hphase hread
    | finished => exact .inl rfl
    | threw e => exact .inr ⟨e, rfl⟩
    | entering data next =>
      simp only [pollsLeft, hupgraded, hphase] at hzero
      simp at hzero
    | writing w next =>
      simp only [pollsLeft, hupgraded, hphase] at hzero
      simp at hzero
    | finishing => simp [pollsLeft, hupgraded, hphase] at hzero
    | _ => exact absurd (hphase ▸ rfl) hnot

def headLeft (c : Connection) : ℕ :=
  if c.phase = .readingHead then maxRequestHeadBytes + 1 - c.head.length else 0

theorem headLeft_threadStep (owner : Owner) (c : Connection) (a : Answers) :
    (c.threadStep owner a).headLeft ≤ c.headLeft - (decide (a.ready ≠ 0)).toNat := by
  by_cases hread : c.phase = .readingHead
  · have hrequest (d : Connection) : (d.handleRequest owner).headLeft = 0 :=
      if_neg (handleRequest_ne_readingHead owner d)
    simp only [threadStep, hread, readHead]
    split_ifs with hexit hfailed htimeout
    · rw [hrequest]
      exact Nat.zero_le _
    · exact Nat.zero_le _
    · simp [htimeout]
    · split
      · exact Nat.zero_le _
      · rename_i hchunk
        have hmore := List.length_pos_of_ne_nil hchunk
        split_ifs
        · rw [hrequest]
          exact Nat.zero_le _
        · exact Nat.zero_le _
        · simp only [headLeft, hread, if_true, List.length_append, ne_eq, htimeout,
            not_false_eq_true, decide_true, Bool.toNat_true]
          omega
  · have hzero : (c.threadStep owner a).headLeft = 0 :=
      if_neg (keeps_threadStep owner hread a).1
    rw [hzero]
    exact Nat.zero_le _

theorem headLeft_step (owner : Owner) (c : Connection) (e : ConnectionEvent) :
    (c.step owner e).headLeft ≤ c.headLeft - e.polled.toNat := by
  cases e with
  | thread a => exact headLeft_threadStep owner c a
  | enqueue out =>
    simp only [step, enqueue]
    split_ifs <;> exact Nat.le_refl _

section Engine
variable (resources : List Resource) (authorize : List UInt8 → Bool)
  (accept : List UInt8 → List UInt8) (limit : ℕ)

theorem reads_run (h : Raises c) (more : List ConnectionEvent)
    (hlong : c.headLeft ≤ more.countP ConnectionEvent.polled) :
    (run (engineOwner resources authorize accept limit) c more).phase ≠ .readingHead := by
  obtain ⟨hraises, hleft⟩ := Runs.measure_run (step (engineOwner resources authorize accept limit))
    ConnectionEvent.polled (A := fun _ => True) (I := Raises) (m := headLeft)
    (fun c e hc _ => ⟨raises_step hc e, headLeft_step _ c e⟩) h fun e (_ : e ∈ more) => trivial
  rw [Nat.sub_eq_zero_of_le hlong, Nat.le_zero] at hleft
  intro hreading
  have hshort := (hraises.reading hreading).2
  have hmore : maxRequestHeadBytes + 1 - (run _ c more).head.length = 0 :=
    (if_pos hreading).symm.trans hleft
  exact absurd hshort (by rw [run] at hmore; omega)

theorem closes_run (es more : List ConnectionEvent)
    (hnot : ¬ QueryOnly (run (engineOwner resources authorize accept limit) {} es).head)
    (hread : (run (engineOwner resources authorize accept limit) {} es).phase ≠ .readingHead)
    (hlong : (run (engineOwner resources authorize accept limit) {} es).pollsLeft ≤
      more.countP ConnectionEvent.polled) :
    (run (engineOwner resources authorize accept limit) {} (es ++ more)).finished = true ∨
      (run (engineOwner resources authorize accept limit) {} es).response.isSome = true ∧
        (run (engineOwner resources authorize accept limit) {} (es ++ more)).upgraded = true := by
  have hraises : Raises (run (engineOwner resources authorize accept limit) {} (es ++ more)) :=
    raises_run (es ++ more)
  generalize engineOwner resources authorize accept limit = owner at *
  have hcalling : Calling (run owner {} es) :=
    Runs.invariant (I := Calling) (fun _ e hc => calling_step owner hc e) calling_new es
  have hmore : run owner {} (es ++ more) = run owner (run owner {} es) more := Runs.run_append ..
  have hupgraded := response_of_upgraded owner (es ++ more)
  obtain ⟨⟨hend, hphase, hhead, hresponse⟩, hleft⟩ :=
    Runs.measure_run (step owner) ConnectionEvent.polled (A := fun _ => True)
      (I := fun c => Calling c ∧ Keeps (run owner {} es) c) (m := pollsLeft)
      (fun c e ⟨hc, hkeeps⟩ _ => by
        obtain ⟨hphase, hhead, hresponse⟩ := keeps_step owner hkeeps.1 e
        exact ⟨⟨calling_step owner hc e, hphase, hhead.trans hkeeps.2.1,
          hresponse.trans hkeeps.2.2⟩, pollsLeft_step owner hc hkeeps.1 e⟩)
      ⟨hcalling, hread, rfl, rfl⟩ fun e (_ : e ∈ more) => trivial
  have hzero := Nat.le_zero.mp (hleft.trans_eq (Nat.sub_eq_zero_of_le hlong))
  change Calling (run owner _ more) at hend
  rw [hmore] at hraises hupgraded ⊢
  rcases pollsLeft_zero hend hphase hzero with hopen | hfinished | hthrew
  · right
    exact ⟨hresponse ▸ hupgraded hopen, hopen⟩
  · left
    exact hraises.finished.mpr hfinished
  · rw [← hhead] at hnot
    exact absurd (hraises.threw.mp hthrew) hnot

end Engine

/-- When a connection's thread stays clear of exceptions, and when the asset lookup answers
as the protocol says. -/
theorem serves_iff (indexHtml appJs : List UInt8) (authorize : List UInt8 → Bool)
    (accept : List UInt8 → List UInt8) (limit : ℕ) :
    let resources := namedResources indexHtml appJs
    let owner := engineOwner resources authorize accept limit
    (∀ es, Serves owner (run owner {} es) ↔ ¬ QueryOnly (run owner {} es).head) ∧
    (∀ text r, parseRequest text = .ok (some r) →
      ((∃ asset, resolveAsset resources r.path = .ok asset ∧
          (asset.isSome ↔ NamesAsset resources r.path)) ↔
        r.target.head? ≠ some 0x3f ∧ ¬ MislaidSlash resources r.path)) := by
  intro resources owner
  refine ⟨fun es => ?_, fun text r hr => ?_⟩
  · have h : Raises (run owner {} es) := raises_run es
    constructor
    · intro hserves hquery
      obtain ⟨e, he⟩ := h.threw.mpr hquery
      exact hserves.calm e he
    · intro hnot
      refine ⟨fun e he => hnot (h.threw.mp ⟨e, he⟩), ends_of_last rfl h hnot true,
        ends_of_last rfl h hnot false, fun _ => ⟨_, reads_run _ _ _ _ h⟩, fun hread => ?_⟩
      refine ⟨(run owner {} es).pollsLeft, fun more hlong => ?_⟩
      have hmore : run owner {} (es ++ more) = run owner (run owner {} es) more :=
        Runs.run_append ..
      exact hmore ▸ closes_run _ _ _ _ es more hnot hread hlong
  · rw [resolveAsset_correct_iff, (resolveAsset_request resources hr).1]

/-- A request for `?x` ends the thread with an exception, and `isFinished` stays false. -/
theorem queryOnly_request_throws :
    let owner := engineOwner (namedResources [] []) (fun _ => false) id 0
    let c := run owner {} [.thread { read := ascii "GET ?x HTTP/1.1\r\n\r\n" }]
    c.phase = .threw .outOfRange ∧ c.finished = false ∧ ¬ Serves owner c := by
  intro owner c
  have hphase : c.phase = .threw .outOfRange := by decide +kernel
  have hfinished : c.finished = false := by decide +kernel
  exact ⟨hphase, hfinished, fun h => h.calm _ hphase⟩

end Connection
end Ppm.Server

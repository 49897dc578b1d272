import PhonePostMix.Engine.Assets
import PhonePostMix.WebSocket.ParserDecoder

/-! How a connection's thread ends: by `finish`, or by an exception that leaves `run`. -/

namespace Ppm.Server
open Http WebSocket Engine

def engineOwner (resources : List Resource) (authorizeUpgrade : List UInt8 → Bool)
    (makeAcceptKey : List UInt8 → List UInt8) (queueLimitBytes : ℕ) : Owner where
  assetProvider := some (resolveAsset resources)
  upgradeAuthorizer := some authorizeUpgrade
  makeAcceptKey := makeAcceptKey
  queueLimitBytes := queueLimitBytes

/-- A head that asks for an asset with a target that is all query. -/
def QueryOnly (head : List UInt8) : Prop :=
  ∃ r, parseRequest head = .ok (some r) ∧ r.isWebSocketUpgrade = .ok false ∧
    r.target.head? = some 0x3f

namespace Connection

structure Raises (c : Connection) : Prop where
  reading : c.phase = .readingHead →
    find headEndMark c.head = none ∧ c.head.length ≤ maxRequestHeadBytes
  threw : (∃ e, c.phase = .threw e) ↔ QueryOnly c.head
  limit : c.parser.maxPayloadSize = 1048576
  finished : c.finished = true ↔ c.phase = .finished

theorem not_queryOnly_of_find_none {head : List UInt8} (h : find headEndMark head = none) :
    ¬ QueryOnly head := by
  rintro ⟨r, hr, -⟩
  rw [parseRequest, h] at hr
  simp at hr

theorem raises_new : Raises {} where
  reading _ := ⟨rfl, Nat.zero_le _⟩
  threw := iff_of_false (by simp) (not_queryOnly_of_find_none rfl)
  limit := rfl
  finished := by simp

variable {c c' : Connection} {resources : List Resource} {authorize : List UInt8 → Bool}
  {accept : List UInt8 → List UInt8} {limit : ℕ}

theorem Raises.quiet (h : Raises c) (hlive : ∀ e, c.phase ≠ .threw e)
    (hphase : c'.phase ≠ .readingHead) (hlive' : ∀ e, c'.phase ≠ .threw e)
    (hhead : c'.head = c.head) (hlimit : c'.parser.maxPayloadSize = c.parser.maxPayloadSize)
    (hfinished : c'.finished = true ↔ c'.phase = .finished) : Raises c' where
  reading hreading := absurd hreading hphase
  threw := by
    have hnot : ¬ QueryOnly c.head := fun hq => by
      obtain ⟨e, he⟩ := h.threw.mpr hq
      exact hlive e he
    rw [hhead]
    exact iff_of_false (fun ⟨e, he⟩ => hlive' e he) hnot
  limit := hlimit.trans h.limit
  finished := hfinished

theorem Raises.going (h : Raises c) (hphase : c.phase ≠ .finished) : c.finished = false :=
  Bool.eq_false_iff.mpr (mt h.finished.mp hphase)

theorem resolveAsset_request (resources : List Resource) {text : List UInt8} {r : Request}
    (h : parseRequest text = .ok (some r)) :
    (r.path ≠ [] ↔ r.target.head? ≠ some 0x3f) ∧
      ((∃ asset, resolveAsset resources r.path = .ok asset) ∨
        resolveAsset resources r.path = .error .outOfRange ∧ r.path = []) := by
  rcases parseRequest_cases text with hnone | ⟨r', hr', htarget, hpath⟩
  · rw [h] at hnone
    simp at hnone
  obtain rfl : r = r' := Option.some.inj (Except.ok.inj (h.symm.trans hr'))
  obtain ⟨c, rest, hcons⟩ := List.exists_cons_of_ne_nil htarget
  have hempty : r.path ≠ [] ↔ r.target.head? ≠ some 0x3f := by
    rw [hpath, hcons]
    by_cases hc : c = 0x3f
    · simp [hc]
    · simp [hc]
  refine ⟨hempty, ?_⟩
  by_cases hnil : r.path = []
  · right
    exact ⟨by rw [hnil, resolveAsset_nil], hnil⟩
  · left
    obtain ⟨file, hfile⟩ := assetFile_ok hnil
    obtain ⟨asset, hok, -⟩ := resolveAsset_file resources r.path file hfile
    exact ⟨asset, hok⟩

theorem raises_handleRequest (hlimit : c.parser.maxPayloadSize = 1048576)
    (hfinished : c.finished = false) :
    Raises (c.handleRequest (engineOwner resources authorize accept limit)) := by
  -- the head decides between the outcomes below, each of which leaves the rest of `c` alone
  have hcalm : ∀ {d : Connection}, ¬ QueryOnly c.head → d.head = c.head →
      d.parser = c.parser → d.finished = c.finished → d.phase ≠ .readingHead →
      (∀ e, d.phase ≠ .threw e) → d.phase ≠ .finished → Raises d := by
    intro d hnot hhead hparser hfin hreading hlive hphase
    refine ⟨fun h => absurd h hreading, ?_, by rw [hparser, hlimit], ?_⟩
    · rw [hhead]
      exact iff_of_false (fun ⟨e, he⟩ => hlive e he) hnot
    · rw [hfin, hfinished]
      exact iff_of_false (by simp) hphase
  unfold handleRequest
  rcases parseRequest_cases c.head with hnone | ⟨r, hr, -, -⟩
  · rw [hnone]
    refine hcalm (fun ⟨r, hr, _⟩ => ?_) rfl rfl rfl (by simp) (by simp) (by simp)
    rw [hnone] at hr
    simp at hr
  rw [hr]
  dsimp only
  obtain ⟨upgrade, hupgrade⟩ := isWebSocketUpgrade_total r
  rw [hupgrade]
  have hunique : QueryOnly c.head ↔ upgrade = false ∧ r.target.head? = some 0x3f := by
    constructor
    · rintro ⟨r', hr', hup, htarget⟩
      obtain rfl : r = r' := Option.some.inj (Except.ok.inj (hr.symm.trans hr'))
      exact ⟨Except.ok.inj (hupgrade.symm.trans hup), htarget⟩
    · rintro ⟨rfl, htarget⟩
      exact ⟨r, hr, hupgrade, htarget⟩
  cases upgrade with
  | true =>
    have hnot : ¬ QueryOnly c.head := fun hq => absurd (hunique.mp hq).1 (by simp)
    dsimp only
    split_ifs
    · exact hcalm hnot rfl rfl rfl (by simp [performUpgrade])
        (by simp [performUpgrade]) (by simp [performUpgrade])
    · exact hcalm hnot rfl rfl rfl (by simp) (by simp) (by simp)
  | false =>
    obtain ⟨hempty, hresolve⟩ := resolveAsset_request resources hr
    simp only [serveAsset, engineOwner]
    rcases hresolve with ⟨asset, hok⟩ | ⟨herror, hnil⟩
    · have hnot : ¬ QueryOnly c.head := fun hq => by
        have hnil : r.path = [] := not_not.mp (mt hempty.mp (not_not_intro (hunique.mp hq).2))
        rw [hnil, resolveAsset_nil] at hok
        simp at hok
      rw [hok]
      cases asset with
      | none => exact hcalm hnot rfl rfl rfl (by simp) (by simp) (by simp)
      | some asset => exact hcalm hnot rfl rfl rfl (by simp) (by simp) (by simp)
    · have hquery : QueryOnly c.head :=
        hunique.mpr ⟨rfl, not_not.mp (mt hempty.mpr (not_not_intro hnil))⟩
      rw [herror]
      refine ⟨by simp, iff_of_true ⟨_, rfl⟩ hquery, hlimit, ?_⟩
      simp [hfinished]

theorem raises_readHead (h : Raises c) (hreading : c.phase = .readingHead) (a : Answers) :
    Raises (c.readHead (engineOwner resources authorize accept limit) a) := by
  have hfinished := h.going (by simp [hreading])
  have hnot := not_queryOnly_of_find_none (h.reading hreading).1
  have hend : Raises { c with phase := .finishing } :=
    ⟨by simp, iff_of_false (by simp) hnot, h.limit, by simp [hfinished]⟩
  unfold readHead
  split_ifs
  · exact raises_handleRequest h.limit hfinished
  · exact hend
  · exact h
  · split
    · exact hend
    · dsimp only
      split_ifs with hfound hlong
      · exact raises_handleRequest h.limit hfinished
      · have hmore := not_queryOnly_of_find_none (Option.not_isSome_iff_eq_none.mp hfound)
        exact ⟨by simp, iff_of_false (by simp) hmore, h.limit, by simp [hfinished]⟩
      · have hfind := Option.not_isSome_iff_eq_none.mp hfound
        refine ⟨fun _ => ⟨hfind, Nat.le_of_not_lt hlong⟩, iff_of_false ?_ (not_queryOnly_of_find_none hfind), h.limit,
          h.finished⟩
        rw [hreading]
        simp

theorem raises_write (h : Raises c) {w : WriteAll} {next : AfterWrite}
    (hphase : c.phase = .writing w next) (a : Answers) : Raises (c.write w next a) := by
  have hfinished := h.going (by simp [hphase])
  unfold write
  cases w.pass a with
  | again accepted w' =>
    exact h.quiet (by simp [hphase]) (by simp) (by simp) rfl rfl (by simp [hfinished])
  | returned ok =>
    cases next <;> cases ok <;>
      exact h.quiet (by simp [hphase]) (by simp [afterWrite]) (by simp [afterWrite]) rfl rfl
        (by simp [afterWrite, callWriteAll, hfinished])

theorem raises_drain (h : Raises c) (hphase : c.phase = .draining) : Raises c.drain := by
  have hfinished := h.going (by simp [hphase])
  unfold drain
  cases c.sendQueue.pop with
  | none => exact h.quiet (by simp [hphase]) (by simp) (by simp) rfl rfl (by simp [hfinished])
  | some popped =>
    exact h.quiet (by simp [hphase]) (by simp) (by simp) rfl rfl
      (by simp [callWriteAll, hfinished])

theorem raises_pump (h : Raises c) (hphase : c.phase = .pumping) (a : Answers) :
    Raises (c.pump a) := by
  have hfinished := h.going (by simp [hphase])
  have hstays : ∀ d : Connection, d.phase = .finishing ∨ d.phase = .dispatching →
      d.head = c.head → d.parser = c.parser → d.finished = c.finished → Raises d := by
    intro d hd hhead hparser hfin
    rcases hd with hd | hd <;>
      exact h.quiet (by simp [hphase]) (by simp [hd]) (by simp [hd]) hhead (by rw [hparser])
        (by simp [hfin, hfinished, hd])
  unfold pump
  split_ifs
  · exact hstays _ (.inl rfl) rfl rfl rfl
  · exact hstays _ (.inr rfl) rfl rfl rfl
  · split
    · exact hstays _ (.inl rfl) rfl rfl rfl
    · exact h.quiet (by simp [hphase]) (by simp) (by simp) rfl
        (FrameParser.push_maxPayloadSize _ _) (by simp [hfinished])

theorem raises_nextMessage (h : Raises c) (hphase : c.phase = .dispatching) (owner : Owner) :
    Raises (c.nextMessage owner) := by
  have hfinished := h.going (by simp [hphase])
  have hmax : c.parser.maxPayloadSize ≤ maxVectorSize := by
    rw [h.limit]
    decide
  obtain ⟨m, hok, hlimit, -⟩ := FrameParser.nextFrame_ok hmax
  rcases hnext : c.parser.nextFrame with ⟨_ | _ | frame, parser⟩ <;>
    rw [hnext] at hok hlimit <;> simp only [nextMessage, hnext]
  case error e => simp at hok
  case ok.none =>
    cases hasError : parser.hasError <;>
      exact h.quiet (by simp [hphase]) (by simp) (by simp) rfl hlimit (by simp [hfinished])
  case ok.some =>
    -- a close frame ends the loop, and every other message goes round it again
    have hloops : ∀ d : Connection, d.phase = c.phase → d.head = c.head → d.parser = parser →
        d.finished = c.finished → Raises d := by
      intro d hd hhead hparser hfin
      exact h.quiet (by simp [hphase]) (by simp [hd, hphase]) (by simp [hd, hphase]) hhead
        (hparser ▸ hlimit) (by simp [hfin, hfinished, hd, hphase])
    unfold dispatch
    split_ifs
    · exact h.quiet (by simp [hphase]) (by simp) (by simp) rfl hlimit (by simp [hfinished])
    · unfold enqueue
      split_ifs
      · exact hloops _ rfl rfl rfl rfl
      · exact hloops _ rfl rfl rfl rfl
    · exact hloops _ rfl rfl rfl rfl
    · exact hloops _ rfl rfl rfl rfl

theorem raises_threadStep (h : Raises c) (a : Answers) :
    Raises (c.threadStep (engineOwner resources authorize accept limit) a) := by
  unfold threadStep
  cases hphase : c.phase with
  | readingHead => exact raises_readHead h hphase a
  | entering data next =>
    have hfinished := h.going (by simp [hphase])
    exact h.quiet (by simp [hphase]) (by simp) (by simp) rfl rfl (by simp [hfinished])
  | writing w next => exact raises_write h hphase a
  | looping =>
    have hfinished := h.going (by simp [hphase])
    cases a.shouldExit <;>
      exact h.quiet (by simp [hphase]) (by simp) (by simp) rfl rfl (by simp [hfinished])
  | draining => exact raises_drain h hphase
  | pumping => exact raises_pump h hphase a
  | dispatching => exact raises_nextMessage h hphase _
  | finishing =>
    exact h.quiet (by simp [hphase]) (by simp [finish]) (by simp [finish]) rfl rfl
      (by simp [finish])
  | finished => exact h
  | threw e => exact h

theorem raises_step (h : Raises c) (e : ConnectionEvent) :
    Raises (c.step (engineOwner resources authorize accept limit) e) := by
  cases e with
  | thread a => exact raises_threadStep h a
  | enqueue out =>
    simp only [step, enqueue]
    split_ifs
    · exact ⟨h.reading, h.threw, h.limit, h.finished⟩
    · exact h

theorem raises_run (es : List ConnectionEvent) :
    Raises (run (engineOwner resources authorize accept limit) {} es) :=
  Runs.invariant (I := Raises) (fun _ e h => raises_step h e) raises_new es

theorem enqueue_head (owner : Owner) (c : Connection) (out : Outgoing) :
    (c.enqueue owner out).head = c.head := by
  unfold enqueue
  split_ifs <;> rfl

theorem handleRequest_head (owner : Owner) (c : Connection) :
    (c.handleRequest owner).head = c.head := by
  rcases handleRequest_cases owner c with ⟨e, he⟩ | he | ⟨head, body, he⟩ | ⟨head, data, he⟩ |
    ⟨request, he⟩
  · rw [he]
  · rw [he]
  · rw [he]
    rfl
  · rw [he]
    rfl
  · rw [he]
    rfl

theorem enqueue_phase (owner : Owner) (c : Connection) (out : Outgoing) :
    (c.enqueue owner out).phase = c.phase := by
  unfold enqueue
  split_ifs <;> rfl

theorem enqueue_response (owner : Owner) (c : Connection) (out : Outgoing) :
    (c.enqueue owner out).response = c.response := by
  unfold enqueue
  split_ifs <;> rfl

def Keeps (c d : Connection) : Prop :=
  d.phase ≠ .readingHead ∧ d.head = c.head ∧ d.response = c.response

theorem keeps_write (c : Connection) (w : WriteAll) (next : AfterWrite) (a : Answers) :
    Keeps c (c.write w next a) := by
  unfold write
  cases w.pass a with
  | again accepted w' => exact ⟨by simp, rfl, rfl⟩
  | returned ok => cases next <;> cases ok <;> exact ⟨by simp [afterWrite], rfl, rfl⟩

theorem keeps_drain (c : Connection) : Keeps c c.drain := by
  unfold drain
  split <;> exact ⟨by simp, rfl, rfl⟩

theorem keeps_pump (c : Connection) (a : Answers) : Keeps c (c.pump a) := by
  unfold pump
  split_ifs
  · exact ⟨by simp, rfl, rfl⟩
  · exact ⟨by simp, rfl, rfl⟩
  · split <;> exact ⟨by simp, rfl, rfl⟩

theorem keeps_nextMessage (owner : Owner) (hread : c.phase ≠ .readingHead) :
    Keeps c (c.nextMessage owner) := by
  unfold nextMessage
  split
  · exact ⟨by simp, rfl, rfl⟩
  · unfold dispatch
    split_ifs
    · exact ⟨by simp, rfl, rfl⟩
    · exact ⟨by rwa [enqueue_phase], enqueue_head owner _ _, enqueue_response owner _ _⟩
    · exact ⟨hread, rfl, rfl⟩
    · exact ⟨hread, rfl, rfl⟩
  · refine ⟨?_, rfl, rfl⟩
    dsimp only
    split_ifs <;> simp

theorem keeps_threadStep (owner : Owner) (hread : c.phase ≠ .readingHead) (a : Answers) :
    Keeps c (c.threadStep owner a) := by
  unfold threadStep
  cases hphase : c.phase with
  | readingHead => exact absurd hphase hread
  | entering data next => exact ⟨by simp, rfl, rfl⟩
  | writing w next => exact keeps_write c w next a
  | looping =>
    refine ⟨?_, rfl, rfl⟩
    dsimp only
    split_ifs <;> simp
  | draining => exact keeps_drain c
  | pumping => exact keeps_pump c a
  | dispatching => exact keeps_nextMessage owner hread
  | finishing => exact ⟨by simp [finish], rfl, rfl⟩
  | finished => exact ⟨hread, rfl, rfl⟩
  | threw e => exact ⟨hread, rfl, rfl⟩

theorem keeps_step (owner : Owner) (hread : c.phase ≠ .readingHead) (e : ConnectionEvent) :
    Keeps c (c.step owner e) := by
  cases e with
  | thread a => exact keeps_threadStep owner hread a
  | enqueue out =>
    exact ⟨(enqueue_phase owner c out).symm ▸ hread, enqueue_head owner c out,
      enqueue_response owner c out⟩

end Connection
end Ppm.Server

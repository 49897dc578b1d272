import PhonePostMix.Library.IncrementalDecoder
import PhonePostMix.WebSocket.FrameParser

/-! The frame parser refines an incremental decoder, so the way its input is cut
into `push` calls and interleaved with `nextFrame` calls does not matter. -/

namespace Ppm.WebSocket
open Streaming

inductive Fault where
  | error (message : String)
  | threw (e : Exception)

theorem readFrame_append_eq {max : Nat} {view : List UInt8} {v : Reading}
    (h : readFrame max view = v) (hv : v ≠ .needMore) (more : List UInt8) :
    readFrame max (view ++ more) = v := by
  rw [readFrame_append (h ▸ hv), h]

def attempt (max : Nat) (r : Reassembly) (view : List UInt8) :
    Attempt UInt8 Reassembly Frame Fault :=
  -- the parser without its buffer management
  match readFrame max view with
  | .needMore => .wait
  | .failed message => .fail (.error message)
  | .threw e => .fail (.threw e)
  | .frame f size =>
    match r.accept max f with
    | (.error message, _) => .fail (.error message)
    | (.ok message, r') => .take (view.drop size) r' message

theorem attempt_take {max : Nat} {r r' : Reassembly} {view rest : List UInt8} {m : Option Frame}
    (h : attempt max r view = .take rest r' m) :
    ∃ f size, readFrame max view = .frame f size ∧ r.accept max f = (.ok m, r') ∧
      rest = view.drop size := by
  unfold attempt at h
  split at h
  case h_1 => cases h
  case h_2 => cases h
  case h_3 => cases h
  case h_4 f size hread =>
    split at h
    · cases h
    case h_2 hacc =>
      obtain ⟨rfl, rfl, rfl⟩ := Attempt.take.inj h
      exact ⟨f, size, hread, hacc, rfl⟩

def frameDecoder (max : Nat) : Decoder UInt8 Reassembly Frame Fault where
  attempt := attempt max
  take_shorter h := by
    obtain ⟨f, size, hread, -, rfl⟩ := attempt_take h
    have := readFrame_size hread
    rw [List.length_drop]
    omega
  take_append h c := by
    obtain ⟨f, size, hread, hacc, rfl⟩ := attempt_take h
    have hsize := (readFrame_size hread).2
    simp only [attempt, readFrame_append_eq hread (by simp) c, hacc,
      List.drop_append_of_le_length hsize]
  fail_append h c := by
    unfold attempt at h
    split at h
    case h_1 => cases h
    case h_2 hread => rw [attempt, readFrame_append_eq hread (by simp)]; exact h
    case h_3 hread => rw [attempt, readFrame_append_eq hread (by simp)]; exact h
    case h_4 f size hread =>
      rw [attempt, readFrame_append_eq hread (by simp)]
      split at h
      case h_1 hacc => simp only [hacc]; exact h
      case h_2 => cases h

namespace FrameParser

def new (maxPayloadSize : Nat) : FrameParser := { maxPayloadSize }

def delivered : Except Exception (Option Frame) → Option Frame
  | .ok message => message
  | .error _ => none

def raised : Except Exception (Option Frame) → Option Exception
  | .ok _ => none
  | .error e => some e

def outcome : Position UInt8 Reassembly Fault → Option Exception × Bool
  | .live _ _ => (none, false)
  | .failed (.error _) => (none, true)
  | .failed (.threw e) => (some e, false)

def run : FrameParser → List (Op UInt8) → List Frame × FrameParser
  | p, [] => ([], p)
  | p, .push chunk :: ops => run (p.push chunk) ops
  | p, .next :: ops =>
    let n := p.nextFrame
    let r := run n.2 ops
    ((delivered n.1).toList ++ r.1, r.2)

def Follows (p : FrameParser) : Position UInt8 Reassembly Fault → Prop
  | .live r view => p.errored = false ∧ p.consumed ≤ p.incoming.length ∧
      p.reassembly = r ∧ p.unread = view
  | .failed (.error _) => p.errored = true
  | .failed (.threw e) => p.errored = false ∧ p.consumed ≤ p.incoming.length ∧
      readFrame p.maxPayloadSize p.unread = .threw e

theorem push_errored {p : FrameParser} (h : p.errored = true) (c : List UInt8) : p.push c = p := by
  rw [push, if_pos h]

theorem push_live {p : FrameParser} (h : p.errored = false) (hc : p.consumed ≤ p.incoming.length)
    (c : List UInt8) :
    (p.push c).errored = false ∧ (p.push c).consumed ≤ (p.push c).incoming.length ∧
      (p.push c).maxPayloadSize = p.maxPayloadSize ∧ (p.push c).reassembly = p.reassembly ∧
      (p.push c).unread = p.unread ++ c := by
  rw [push, if_neg (by simp [h])]
  split_ifs with hall hmany
  · -- all of the buffer has been parsed, so clearing it loses nothing
    have hdrop : p.incoming.drop p.consumed = [] := by rw [hall.2, List.drop_length]
    exact ⟨h, Nat.zero_le _, rfl, rfl, by simp [unread, hdrop]⟩
  · exact ⟨h, Nat.zero_le _, rfl, rfl, by simp [unread]⟩
  · refine ⟨h, ?_, rfl, rfl, ?_⟩
    · simp only [List.length_append]; omega
    · simp only [unread, List.drop_append_of_le_length hc]

theorem push_maxPayloadSize (p : FrameParser) (c : List UInt8) :
    (p.push c).maxPayloadSize = p.maxPayloadSize := by
  unfold push
  split_ifs <;> rfl

theorem push_unread_length (p : FrameParser) (c : List UInt8) :
    (p.push c).unread.length ≤ p.unread.length + c.length := by
  unfold push
  split_ifs
  · omega
  all_goals
    simp only [unread, List.length_drop, List.length_append, List.length_nil]
    omega

theorem Follows.push {p : FrameParser} {q : Position UInt8 Reassembly Fault}
    (h : p.Follows q) (c : List UInt8) : (p.push c).Follows (q.push c) := by
  match q, h with
  | .live r view, ⟨herr, hc, hr, hv⟩ =>
    obtain ⟨herr', hc', -, hr', hv'⟩ := push_live herr hc c
    exact ⟨herr', hc', hr'.trans hr, by rw [hv', hv]⟩
  | .failed (.error _), h => rw [push_errored h]; exact h
  | .failed (.threw e), ⟨herr, hc, hthrew⟩ =>
    obtain ⟨herr', hc', hmax, -, hv'⟩ := push_live herr hc c
    exact ⟨herr', hc', by rw [hmax, hv', readFrame_append_eq hthrew (by simp)]⟩

theorem nextFrame_errored {p : FrameParser} (h : p.errored = true) :
    p.nextFrame = (.ok none, p) := by
  rw [nextFrame, if_pos h]

theorem attempt_of_pass {p : FrameParser} (hc : p.consumed ≤ p.incoming.length) :
    match p.pass with
    | .needMore => attempt p.maxPayloadSize p.reassembly p.unread = .wait
    | .failed p' => ∃ message,
        attempt p.maxPayloadSize p.reassembly p.unread = .fail (.error message) ∧
          p'.errored = true ∧ p'.maxPayloadSize = p.maxPayloadSize
    | .threw e => attempt p.maxPayloadSize p.reassembly p.unread = .fail (.threw e) ∧
        readFrame p.maxPayloadSize p.unread = .threw e
    | .consumed _ p' message =>
        attempt p.maxPayloadSize p.reassembly p.unread =
          .take p'.unread p'.reassembly message ∧ p'.errored = p.errored ∧
          p'.consumed ≤ p'.incoming.length ∧ p'.maxPayloadSize = p.maxPayloadSize := by
  unfold pass attempt
  cases hread : readFrame p.maxPayloadSize p.unread with
  | needMore => rfl
  | failed message => exact ⟨message, rfl, rfl, rfl⟩
  | threw e => exact ⟨rfl, rfl⟩
  | frame f size =>
    have hsize := (readFrame_size hread).2
    have hlen : p.unread.length = p.incoming.length - p.consumed := List.length_drop
    dsimp only
    cases hacc : p.reassembly.accept p.maxPayloadSize f with
    | mk message r =>
      cases message with
      | error message => exact ⟨message, rfl, rfl, rfl⟩
      | ok message =>
        refine ⟨?_, rfl, ?_, rfl⟩
        · simp only [unread, List.drop_drop]
        · dsimp only; omega

theorem pass_ne_threw {p : FrameParser} (hmax : p.maxPayloadSize ≤ maxVectorSize)
    (e : Exception) : p.pass ≠ .threw e := by
  have hread : ∀ view, readFrame p.maxPayloadSize view ≠ .threw e := by
    intro view
    unfold readFrame
    split
    · split
      · simp
      · dsimp only
        split_ifs
        · simp
        · simp
        · simp
        · omega
        · simp
    · simp
  unfold pass
  cases hframe : readFrame p.maxPayloadSize p.unread with
  | needMore => simp
  | failed message => simp
  | threw e' => exact fun h => hread _ (hframe.trans (by rw [Pass.threw.inj h]))
  | frame f size =>
    dsimp only
    split <;> simp

theorem pass_failed_unread {p p' : FrameParser} (h : p.pass = .failed p') :
    p'.maxPayloadSize = p.maxPayloadSize ∧ p'.unread.length ≤ p.unread.length := by
  unfold pass at h
  cases hframe : readFrame p.maxPayloadSize p.unread with
  | needMore => simp [hframe] at h
  | failed message =>
    rw [hframe] at h
    obtain rfl := Pass.failed.inj h
    exact ⟨rfl, Nat.le_refl _⟩
  | threw e => simp [hframe] at h
  | frame f size =>
    rw [hframe] at h
    dsimp only at h
    split at h
    · obtain rfl := Pass.failed.inj h
      refine ⟨rfl, ?_⟩
      simp only [unread, fail, List.length_drop]
      omega
    · simp at h

theorem nextFrame_live {p : FrameParser} (h : p.errored = false) :
    p.nextFrame = match p.pass with
      | .needMore => (.ok none, p)
      | .failed p' => (.ok none, p')
      | .threw e => (.error e, p)
      | .consumed _ p' (some message) => (.ok (some message), p')
      | .consumed _ p' none => p'.nextFrame := by
  rw [nextFrame, if_neg (by simp [h])]
  split <;> simp_all only

theorem nextFrame_threw {p : FrameParser} {e : Exception} (h : p.errored = false)
    (hread : readFrame p.maxPayloadSize p.unread = .threw e) : p.nextFrame = (.error e, p) := by
  have hpass : p.pass = .threw e := by rw [pass, hread]
  rw [nextFrame_live h, hpass]

theorem nextFrame_ok {p : FrameParser} (hmax : p.maxPayloadSize ≤ maxVectorSize) :
    ∃ m, p.nextFrame.1 = .ok m ∧ p.nextFrame.2.maxPayloadSize = p.maxPayloadSize ∧
      p.nextFrame.2.unread.length ≤ p.unread.length := by
  induction p using nextFrame.induct with
  | case1 p herr =>
    rw [nextFrame_errored herr]
    exact ⟨none, rfl, rfl, Nat.le_refl _⟩
  | case2 p herr hpass =>
    rw [nextFrame_live (by simpa using herr), hpass]
    exact ⟨none, rfl, rfl, Nat.le_refl _⟩
  | case3 p herr p' hpass =>
    rw [nextFrame_live (by simpa using herr), hpass]
    obtain ⟨hlimit, hunread⟩ := pass_failed_unread hpass
    exact ⟨none, rfl, hlimit, hunread⟩
  | case4 p herr e hpass => exact absurd hpass (pass_ne_threw hmax e)
  | case5 p herr f p' message hpass =>
    rw [nextFrame_live (by simpa using herr), hpass]
    obtain ⟨size, r, -, -, rfl⟩ := pass_consumed hpass
    exact ⟨some message, rfl, rfl, Nat.le_of_lt (pass_consumed_unread hpass)⟩
  | case6 p herr f p' hpass ih =>
    have hshort := pass_consumed_unread hpass
    obtain ⟨size, r, -, -, rfl⟩ := pass_consumed hpass
    rw [nextFrame_live (by simpa using herr), hpass]
    obtain ⟨m, hok, hlimit, hunread⟩ := ih hmax
    exact ⟨m, hok, hlimit, Nat.le_trans hunread (Nat.le_of_lt hshort)⟩

theorem live_nextFrame {p : FrameParser} (herr : p.errored = false)
    (hc : p.consumed ≤ p.incoming.length) :
    delivered p.nextFrame.1 =
        ((frameDecoder p.maxPayloadSize).nextLive p.reassembly p.unread).1 ∧
      raised p.nextFrame.1 =
        (outcome ((frameDecoder p.maxPayloadSize).nextLive p.reassembly p.unread).2).1 ∧
      p.nextFrame.2.Follows ((frameDecoder p.maxPayloadSize).nextLive p.reassembly p.unread).2 ∧
      p.nextFrame.2.maxPayloadSize = p.maxPayloadSize := by
  have hatt := attempt_of_pass hc
  induction p using nextFrame.induct with
  | case1 p herr' => exact absurd herr' (by simp [herr])
  | case2 p _ hpass =>
    rw [hpass] at hatt
    rw [nextFrame_live herr, hpass, Decoder.nextLive_wait hatt]
    exact ⟨rfl, rfl, ⟨herr, hc, rfl, rfl⟩, rfl⟩
  | case3 p _ p' hpass =>
    rw [hpass] at hatt
    obtain ⟨message, hatt, herr', hmax⟩ := hatt
    rw [nextFrame_live herr, hpass, Decoder.nextLive_fail hatt]
    exact ⟨rfl, rfl, herr', hmax⟩
  | case4 p _ e hpass =>
    rw [hpass] at hatt
    rw [nextFrame_live herr, hpass, Decoder.nextLive_fail hatt.1]
    exact ⟨rfl, rfl, ⟨herr, hc, hatt.2⟩, rfl⟩
  | case5 p _ f p' message hpass =>
    rw [hpass] at hatt
    obtain ⟨hatt, herr', hc', hmax⟩ := hatt
    rw [nextFrame_live herr, hpass, Decoder.nextLive_item hatt]
    exact ⟨rfl, rfl, ⟨herr'.trans herr, hc', rfl, rfl⟩, hmax⟩
  | case6 p _ f p' hpass ih =>
    rw [hpass] at hatt
    obtain ⟨hatt, herr', hc', hmax⟩ := hatt
    rw [nextFrame_live herr, hpass, Decoder.nextLive_skip hatt]
    rw [← hmax]
    exact ih (herr'.trans herr) hc' (attempt_of_pass hc')

theorem Follows.nextFrame {p : FrameParser} {q : Position UInt8 Reassembly Fault}
    (h : p.Follows q) :
    delivered p.nextFrame.1 = ((frameDecoder p.maxPayloadSize).next q).1 ∧
      raised p.nextFrame.1 = (outcome ((frameDecoder p.maxPayloadSize).next q).2).1 ∧
      p.nextFrame.2.Follows ((frameDecoder p.maxPayloadSize).next q).2 ∧
      p.nextFrame.2.maxPayloadSize = p.maxPayloadSize := by
  match q, h with
  | .failed (.error _), h =>
    rw [nextFrame_errored h]
    exact ⟨rfl, rfl, h, rfl⟩
  | .failed (.threw e), h =>
    rw [nextFrame_threw h.1 h.2.2]
    exact ⟨rfl, rfl, h, rfl⟩
  | .live r view, ⟨herr, hc, hr, hv⟩ =>
    subst hr hv
    exact live_nextFrame herr hc

structure Drained where
  frames : List Frame
  thrown : Option Exception
  parser : FrameParser

theorem nextFrame_message_unread {p p' : FrameParser} {message : Frame}
    (h : p.nextFrame = (.ok (some message), p')) : p'.unread.length < p.unread.length := by
  induction p using nextFrame.induct with
  | case1 p herr => rw [nextFrame_errored herr] at h; cases h
  | case2 p herr hpass => rw [nextFrame_live (by simpa using herr), hpass] at h; cases h
  | case3 p herr p' hpass => rw [nextFrame_live (by simpa using herr), hpass] at h; cases h
  | case4 p herr e hpass => rw [nextFrame_live (by simpa using herr), hpass] at h; cases h
  | case5 p herr f p' message hpass =>
    rw [nextFrame_live (by simpa using herr), hpass] at h
    cases h
    exact pass_consumed_unread hpass
  | case6 p herr f p' hpass ih =>
    rw [nextFrame_live (by simpa using herr), hpass] at h
    exact Nat.lt_trans (ih h) (pass_consumed_unread hpass)

def drain (p : FrameParser) : Drained :=
  match _h : p.nextFrame with
  | (.ok (some message), p') =>
    let d := p'.drain
    { d with frames := message :: d.frames }
  | (.ok none, p') => ⟨[], none, p'⟩
  | (.error e, p') => ⟨[], some e, p'⟩
termination_by p.unread.length
decreasing_by exact nextFrame_message_unread ‹_›

theorem drain_message {p p' : FrameParser} {message : Frame}
    (h : p.nextFrame = (.ok (some message), p')) :
    p.drain = { p'.drain with frames := message :: p'.drain.frames } := by
  rw [drain]
  split <;> simp_all only [Prod.mk.injEq, Except.ok.injEq, Option.some.injEq, reduceCtorEq,
    false_and]

theorem drain_none {p p' : FrameParser} (h : p.nextFrame = (.ok none, p')) :
    p.drain = ⟨[], none, p'⟩ := by
  rw [drain]
  split <;> simp_all

theorem drain_threw {p p' : FrameParser} {e : Exception} (h : p.nextFrame = (.error e, p')) :
    p.drain = ⟨[], some e, p'⟩ := by
  rw [drain]
  split <;> simp_all

theorem Follows.outcome_hasError {p : FrameParser} {q : Position UInt8 Reassembly Fault}
    (h : p.Follows q) : p.hasError = (outcome q).2 := by
  match q, h with
  | .live r view, h => exact h.1
  | .failed (.error _), h => exact h
  | .failed (.threw e), h => exact h.1

theorem Follows.drain {p : FrameParser} {q : Position UInt8 Reassembly Fault} (h : p.Follows q) :
    p.drain.frames = ((frameDecoder p.maxPayloadSize).drain q).1 ∧
      (p.drain.thrown, p.drain.parser.hasError) =
        outcome ((frameDecoder p.maxPayloadSize).drain q).2 := by
  induction p using drain.induct generalizing q with
  | case1 p message p' hnext ih =>
    obtain ⟨hdel, -, hfol, hmax⟩ := h.nextFrame
    rw [hnext] at hdel hfol hmax
    have hdrain := Decoder.drain_push_next (D := frameDecoder p.maxPayloadSize) q []
    simp only [Position.push_nil, ← hdel] at hdrain
    have := ih hfol
    rw [hmax] at this
    rw [drain_message hnext, hdrain]
    exact ⟨congrArg (message :: ·) this.1, this.2⟩
  | case2 p p' hnext =>
    obtain ⟨hdel, hraised, hfol, -⟩ := h.nextFrame
    rw [hnext] at hdel hraised hfol
    rw [drain_none hnext, Decoder.drain_of_next_none hdel.symm]
    exact ⟨rfl, Prod.ext hraised hfol.outcome_hasError⟩
  | case3 p p' e hnext =>
    obtain ⟨hdel, hraised, hfol, -⟩ := h.nextFrame
    rw [hnext] at hdel hraised hfol
    rw [drain_threw hnext, Decoder.drain_of_next_none hdel.symm]
    exact ⟨rfl, Prod.ext hraised hfol.outcome_hasError⟩

theorem Follows.run {p : FrameParser} {q : Position UInt8 Reassembly Fault} (h : p.Follows q)
    (ops : List (Op UInt8)) :
    (p.run ops).1 = ((frameDecoder p.maxPayloadSize).run q ops).1 ∧
      (p.run ops).2.Follows ((frameDecoder p.maxPayloadSize).run q ops).2 ∧
      (p.run ops).2.maxPayloadSize = p.maxPayloadSize := by
  induction ops generalizing p q with
  | nil => exact ⟨rfl, h, rfl⟩
  | cons op ops ih =>
    cases op with
    | push chunk =>
      have := ih (h.push chunk)
      rwa [push_maxPayloadSize] at this
    | next =>
      obtain ⟨hdel, -, hfol, hmax⟩ := h.nextFrame
      have := ih hfol
      rw [hmax] at this
      exact ⟨congrArg₂ (·.toList ++ ·) hdel this.1, this.2⟩

theorem new_follows (max : Nat) : (new max).Follows (.live {} []) :=
  ⟨rfl, Nat.le_refl _, rfl, rfl⟩

theorem run_append (p : FrameParser) (a b : List (Op UInt8)) :
    p.run (a ++ b) = ((p.run a).1 ++ ((p.run a).2.run b).1, ((p.run a).2.run b).2) := by
  induction a generalizing p with
  | nil => rfl
  | cons op a ih =>
    cases op with
    | push chunk => exact ih (p.push chunk)
    | next => simp only [List.cons_append, run, ih, List.append_assoc]

theorem Follows.drained {p p' : FrameParser} {q : Position UInt8 Reassembly Fault}
    (h : p.Follows q) (hnext : p.nextFrame = (.ok none, p')) : p'.drain.frames = [] := by
  obtain ⟨hdelivered, -, hfollows, hmax⟩ := h.nextFrame
  rw [hnext] at hdelivered hfollows hmax
  have hsplit := Decoder.drain_push_next (D := frameDecoder p.maxPayloadSize) q []
  rw [Position.push_nil, Position.push_nil, Decoder.drain_of_next_none hdelivered.symm] at hsplit
  obtain ⟨hframes, -⟩ := hfollows.drain
  rw [hframes, hmax]
  exact (List.append_eq_nil_iff.mp (congrArg Prod.fst hsplit).symm).2

theorem run_drain_frames (max : Nat) (ops : List (Op UInt8)) :
    ((new max).run ops).1 ++ ((new max).run ops).2.drain.frames =
      ((new max).push (pushed ops)).drain.frames := by
  obtain ⟨hframes, hfollows, hmax⟩ := (new_follows max).run ops
  obtain ⟨hsplit, -⟩ := hfollows.drain
  obtain ⟨hwhole, -⟩ := ((new_follows max).push (pushed ops)).drain
  rw [hmax] at hsplit
  rw [push_maxPayloadSize] at hwhole
  rw [hframes, hsplit, hwhole]
  exact congrArg Prod.fst (Decoder.run_drain (D := frameDecoder max) (.live {} []) ops)

/-- However a stream is cut into pushes, and whenever frames are asked for in between, the
messages, the error flag and any exception are those of the stream pushed at once. -/
theorem split_independent (max : Nat) (ops : List (Op UInt8)) :
    let split := (new max).run ops
    let whole := ((new max).push (pushed ops)).drain
    split.1 ++ split.2.drain.frames = whole.frames ∧
      split.2.drain.parser.hasError = whole.parser.hasError ∧
      split.2.drain.thrown = whole.thrown := by
  obtain ⟨hframes, hfol, hmax⟩ := (new_follows max).run ops
  obtain ⟨hsplit, hsplitEnd⟩ := hfol.drain
  obtain ⟨hwhole, hwholeEnd⟩ := ((new_follows max).push (pushed ops)).drain
  have hrun := Decoder.run_drain (D := frameDecoder max) (.live {} []) ops
  rw [push_maxPayloadSize] at hwhole hwholeEnd
  rw [hmax] at hsplit hsplitEnd
  have hend := hsplitEnd.trans ((congrArg outcome (congrArg Prod.snd hrun)).trans hwholeEnd.symm)
  refine ⟨?_, congrArg Prod.snd hend, congrArg Prod.fst hend⟩
  rw [hframes, hsplit, hwhole]
  exact congrArg Prod.fst hrun

end FrameParser
end Ppm.WebSocket

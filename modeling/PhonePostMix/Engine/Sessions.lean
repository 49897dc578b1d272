import PhonePostMix.Engine.Pipeline

/-! Streaming sessions: which session a frame was pushed in, and which one it is sent in. -/

namespace Ppm.Engine
open Wire
variable {α : Type}

namespace StreamEngine

def outgoing (e : StreamEngine α) (clock : UInt32) : Packet α where
  info := e.packetInfo clock
  samples := e.scratch.take ((e.packetInfo clock).frames.toNat * (e.packetInfo clock).channels.toNat)
  copied := e.iteration.copied

def starts (e : StreamEngine α) (bound : Bool) : Bool :=
  !(e.serverRunning || !bound || e.stage.isSome)

theorem start_eq (e : StreamEngine α) (bound : Bool) :
    e.start bound =
      if e.starts bound then
        { e with
          serverRunning := true
          discontinuityPending := true
          shouldExit := false
          stage := some .enter }
      else e := by
  unfold start starts
  cases e.serverRunning || !bound || e.stage.isSome <;> rfl

structure Unprepared (e : StreamEngine α) : Prop where
  channels : e.ring.channels = 0
  unread : e.stage ≠ some .readRing
  copied : e.stage = some .sendPacket → e.iteration.copied = none

variable [Zero α] {e : StreamEngine α}

inductive Blank (e : StreamEngine α) : Prop where
  | prepared (h : e.Prepared)
  | released (channels : e.ring.channels = 0) (empty : e.ring.frames = [])
      (outside : ∀ s ∈ e.stage, s.sampled = false)

theorem unprepared_streamStep (h : e.Unprepared) (clock : UInt32) :
    (e.streamStep clock).Unprepared := by
  unfold streamStep
  rcases hstage : e.stage with _ | s
  · exact h
  cases s with
  | readRing => exact absurd hstage h.unread
  | getSettings =>
    dsimp only
    split_ifs <;> exact ⟨h.channels, by simp, by simp⟩
  | checkRing =>
    simp only [checkRing]
    split_ifs with hready
    · exact absurd hready.1 (by rw [h.channels]; exact Nat.lt_irrefl 0)
    · exact ⟨h.channels, by simp, by simp⟩
    · exact ⟨h.channels, by simp, fun _ => rfl⟩
  | _ =>
    exact ⟨h.channels, by simp [resizeScratch, sendPacket], by simp [resizeScratch, sendPacket]⟩

theorem streamStep_sendPacket (e : StreamEngine α) (clock : UInt32)
    (h : (e.streamStep clock).stage = some .sendPacket) :
    e.stage = some .checkRing ∨ e.stage = some .readRing := by
  unfold streamStep at h
  rcases hstage : e.stage with _ | s
  · simp [hstage] at h
  cases s with
  | checkRing => exact .inl rfl
  | readRing => exact .inr rfl
  | getSettings =>
    simp only [hstage] at h
    split_ifs at h
    cases h
  | _ => simp [hstage, resizeScratch, sendPacket] at h

theorem unprepared_step (h : e.Unprepared) (ev : EngineEvent α) (hev : ev.keepsRing = true) :
    (e.step ev).Unprepared := by
  cases ev with
  | stream clock => exact unprepared_streamStep h clock
  | pushAudio buffer =>
    simp only [step, pushAudio]
    split_ifs
    · exact ⟨(AudioRingBuffer.write_channels _ _).trans h.channels, h.unread, h.copied⟩
    · exact h
  | prepare | release => cases hev
  | setSettings settings =>
    simp only [step, setSettings]
    split_ifs <;> exact ⟨h.channels, h.unread, h.copied⟩
  | setHostPlaying isPlaying => exact ⟨h.channels, h.unread, h.copied⟩
  | start bound =>
    simp only [step, start]
    split_ifs
    · exact h
    · exact ⟨h.channels, by simp, by simp⟩
  | stop =>
    simp only [step, stop]
    split_ifs
    · exact ⟨h.channels, h.unread, h.copied⟩
    · exact h

end StreamEngine

/-- A packet, the session it was sent in, and its frames beside the session each was pushed in. -/
structure Sent (α : Type) where
  packet : Packet α
  session : ℕ
  frames : List (ℕ × List α)

/-- The engine and, as records, the number of sessions begun and the session of every frame in
the ring, in the scratch buffer and in the packets. -/
structure Sessions (α : Type) where
  engine : StreamEngine α
  session : ℕ := 0
  ringed : List (ℕ × List α) := []
  held : List (ℕ × List α) := []
  log : List (Sent α) := []

namespace Sessions

def of (e : StreamEngine α) : Sessions α where
  engine := e

variable [Zero α]

def stream (s : Sessions α) (clock : UInt32) : Sessions α :=
  let next := { s with engine := s.engine.streamStep clock }
  match s.engine.stage with
  | some .checkRing => { next with held := [] }
  | some .readRing =>
    let numRead := (s.engine.ring.read s.engine.iteration.frames.toNat).1
    { next with held := s.ringed.take numRead, ringed := s.ringed.drop numRead }
  | some .sendPacket =>
    { next with log := s.log ++ [⟨s.engine.outgoing clock, s.session, s.held⟩] }
  | _ => next

def step (s : Sessions α) (ev : EngineEvent α) : Sessions α :=
  let next := { s with engine := s.engine.step ev }
  match ev with
  | .stream clock => s.stream clock
  | .pushAudio buffer =>
    if s.engine.serverRunning then
      { next with ringed := s.ringed ++ (s.engine.ring.taken buffer).map (s.session, ·) }
    else next
  | .prepare _ _ _ | .release => { next with ringed := [] }
  | .start bound => if s.engine.starts bound then { next with session := s.session + 1 } else next
  | .setSettings _ | .setHostPlaying _ | .stop => next

def run (s : Sessions α) (es : List (EngineEvent α)) : Sessions α := Runs.run step s es

structure Accounted (start : StreamEngine α) (s : Sessions α) : Prop where
  engine : s.engine.Steady ∨ s.engine.Unprepared
  ringed : s.ringed.map Prod.snd = s.engine.ring.frames
  held : s.engine.stage = some .sendPacket → s.held.map Prod.snd = s.engine.held
  sent : s.engine.sent = start.sent ++ s.log.map Sent.packet
  frames : ∀ m ∈ s.log, m.frames.map Prod.snd = m.packet.frames

variable {e : StreamEngine α} {s : Sessions α}

theorem accounted_of (h : e.Blank) : Accounted e (of e) := by
  cases h with
  | prepared h =>
    exact ⟨.inl h.steady, h.empty.symm, fun _ => h.idle.symm, (List.append_nil _).symm,
      by simp [of]⟩
  | released hchannels hempty hout =>
    have hsend : e.stage ≠ some .sendPacket := fun hs => absurd (hout _ hs) (by decide)
    have hread : e.stage ≠ some .readRing := fun hs => absurd (hout _ hs) (by decide)
    exact ⟨.inr ⟨hchannels, hread, fun hs => absurd hs hsend⟩, hempty.symm,
      fun hs => absurd hs hsend, (List.append_nil _).symm, by simp [of]⟩

theorem engine_step (h : s.engine.Steady ∨ s.engine.Unprepared) (ev : EngineEvent α)
    (hev : ev.keepsRing = true) : (s.engine.step ev).Steady ∨ (s.engine.step ev).Unprepared :=
  h.imp (fun hs => StreamEngine.steady_step hs ev hev)
    fun hu => StreamEngine.unprepared_step hu ev hev

theorem accounted_stream {start : StreamEngine α} (h : Accounted start s) (clock : UInt32) :
    Accounted start (s.stream clock) := by
  have hengine := engine_step h.engine (.stream clock) rfl
  simp only [StreamEngine.step] at hengine
  by_cases hread : s.engine.stage = some .readRing
  · have hsteady : s.engine.Steady := h.engine.resolve_right fun hu => hu.unread hread
    have hstep : s.engine.streamStep clock = s.engine.readRing := by
      rw [StreamEngine.streamStep, hread]
    obtain ⟨hcount, -, -, hframes⟩ := hsteady.read hread
    rw [hstep] at hengine
    simp only [stream, hread, hstep, hcount]
    refine ⟨hengine, ?_, fun _ => ?_, h.sent, h.frames⟩
    · rw [List.map_drop, h.ringed]
      exact hframes.symm
    · rw [List.map_take, h.ringed, StreamEngine.held_readRing hsteady hread]
  by_cases hsend : s.engine.stage = some .sendPacket
  · have hstep : s.engine.streamStep clock = s.engine.sendPacket clock := by
      rw [StreamEngine.streamStep, hsend]
    rw [hstep] at hengine
    simp only [stream, hsend, hstep]
    refine ⟨hengine, h.ringed, ?_, ?_, ?_⟩
    · simp [StreamEngine.sendPacket]
    · rw [List.map_append, ← List.append_assoc, ← h.sent]
      rfl
    · intro m hm
      rcases List.mem_append.mp hm with hold | hnew
      · exact h.frames m hold
      · rw [List.mem_singleton.mp hnew]
        have hheld := h.held hsend
        rw [StreamEngine.held, if_pos hsend] at hheld
        exact hheld
  · obtain ⟨hring, hsent, -, hheld⟩ := StreamEngine.streamStep_quiet clock hread hsend
    have hquiet : Accounted start { s with engine := s.engine.streamStep clock, held := [] } :=
      ⟨hengine, h.ringed.trans (congrArg _ hring.symm), fun _ => hheld.symm, hsent.trans h.sent,
        h.frames⟩
    by_cases hcheck : s.engine.stage = some .checkRing
    · simpa only [stream, hcheck] using hquiet
    · have hstream : s.stream clock = { s with engine := s.engine.streamStep clock } := by
        unfold stream
        split <;> first | contradiction | rfl
      rw [hstream]
      refine ⟨hengine, hquiet.ringed, fun hnext => ?_, hquiet.sent, h.frames⟩
      rcases s.engine.streamStep_sendPacket clock hnext with hcheck' | hread'
      · exact absurd hcheck' hcheck
      · exact absurd hread' hread

theorem accounted_step {start : StreamEngine α} (h : Accounted start s) (ev : EngineEvent α)
    (hev : ev.keepsRing = true) : Accounted start (s.step ev) := by
  have hengine := engine_step h.engine ev hev
  cases ev with
  | stream clock => exact accounted_stream h clock
  | pushAudio buffer =>
    simp only [step, StreamEngine.step, StreamEngine.pushAudio] at hengine ⊢
    split_ifs at hengine ⊢
    · refine ⟨hengine, ?_, h.held, h.sent, h.frames⟩
      dsimp only
      rw [AudioRingBuffer.write_taken, List.map_append, List.map_map, h.ringed]
      congr 1
      exact List.map_id _
    · exact h
  | prepare | release => cases hev
  | setSettings settings =>
    simp only [step, StreamEngine.step, StreamEngine.setSettings] at hengine ⊢
    split_ifs at hengine ⊢ <;> exact ⟨hengine, h.ringed, h.held, h.sent, h.frames⟩
  | setHostPlaying isPlaying => exact ⟨hengine, h.ringed, h.held, h.sent, h.frames⟩
  | start bound =>
    simp only [step, StreamEngine.step, StreamEngine.start_eq] at hengine ⊢
    split_ifs at hengine ⊢
    · exact ⟨hengine, h.ringed, by simp, h.sent, h.frames⟩
    · exact h
  | stop =>
    simp only [step, StreamEngine.step, StreamEngine.stop] at hengine ⊢
    split_ifs at hengine ⊢
    · exact ⟨hengine, h.ringed, h.held, h.sent, h.frames⟩
    · exact h

def StartsEmpty (s : Sessions α) : EngineEvent α → Prop
  | .start bound => s.engine.starts bound = true → s.engine.ring.getNumReady = 0
  | _ => True

instance (s : Sessions α) (ev : EngineEvent α) : Decidable (s.StartsEmpty ev) :=
  match ev with
  | .start bound =>
    inferInstanceAs
      (Decidable (s.engine.starts bound = true → s.engine.ring.getNumReady = 0))
  | .stream _ | .pushAudio _ | .prepare .. | .release | .setSettings _ | .setHostPlaying _
  | .stop => .isTrue trivial

structure Own (s : Sessions α) : Prop where
  ringed : ∀ f ∈ s.ringed, f.1 = s.session
  held : s.engine.stage = some .sendPacket → ∀ f ∈ s.held, f.1 = s.session
  log : ∀ m ∈ s.log, ∀ f ∈ m.frames, f.1 = m.session

theorem own_stream (h : s.Own) (clock : UInt32) : (s.stream clock).Own := by
  unfold stream
  split
  case h_1 hcheck => exact ⟨h.ringed, fun _ f hf => (nomatch hf), h.log⟩
  case h_2 hread =>
    exact ⟨fun f hf => h.ringed f (List.mem_of_mem_drop hf),
      fun _ f hf => h.ringed f (List.mem_of_mem_take hf), h.log⟩
  case h_3 hsend =>
    refine ⟨h.ringed, fun _ => h.held hsend, fun m hm => ?_⟩
    rcases List.mem_append.mp hm with hold | hnew
    · exact h.log m hold
    · rw [List.mem_singleton.mp hnew]
      exact h.held hsend
  case h_4 hcheck hread _ =>
    refine ⟨h.ringed, fun hnext => ?_, h.log⟩
    rcases s.engine.streamStep_sendPacket clock hnext with hcheck' | hread'
    · exact absurd hcheck' hcheck
    · exact absurd hread' hread

theorem own_step {start : StreamEngine α} (ha : Accounted start s) (h : s.Own)
    (ev : EngineEvent α) (hev : ev.keepsRing = true) (hempty : s.StartsEmpty ev) :
    (s.step ev).Own := by
  cases ev with
  | stream clock => exact own_stream h clock
  | pushAudio buffer =>
    simp only [step, StreamEngine.step, StreamEngine.pushAudio]
    split_ifs
    · refine ⟨fun f hf => ?_, h.held, h.log⟩
      rcases List.mem_append.mp hf with hold | hnew
      · exact h.ringed f hold
      · obtain ⟨frame, -, rfl⟩ := List.mem_map.mp hnew
        rfl
    · exact h
  | prepare | release => cases hev
  | setSettings settings =>
    simp only [step, StreamEngine.step, StreamEngine.setSettings]
    split_ifs <;> exact ⟨h.ringed, h.held, h.log⟩
  | setHostPlaying isPlaying => exact ⟨h.ringed, h.held, h.log⟩
  | start bound =>
    simp only [step, StreamEngine.step, StreamEngine.start_eq]
    split_ifs with hstarts
    · -- the frames of the session before would be numbered wrongly now: there are none
      have hnone : s.ringed = [] := by
        have hready := hempty hstarts
        rw [AudioRingBuffer.getNumReady, ← AudioRingBuffer.length_frames, ← ha.ringed,
          List.length_map] at hready
        exact List.length_eq_zero_iff.mp hready
      exact ⟨by simp [hnone], by simp, h.log⟩
    · exact h
  | stop =>
    simp only [step, StreamEngine.step, StreamEngine.stop]
    split_ifs
    · exact ⟨h.ringed, h.held, h.log⟩
    · exact h

theorem step_engine (s : Sessions α) (ev : EngineEvent α) :
    (s.step ev).engine = s.engine.step ev := by
  cases ev with
  | stream clock =>
    simp only [step, stream]
    split <;> rfl
  | pushAudio buffer =>
    simp only [step]
    split_ifs <;> rfl
  | start bound =>
    simp only [step]
    split_ifs <;> rfl
  | _ => rfl

theorem run_engine (s : Sessions α) (es : List (EngineEvent α)) :
    (s.run es).engine = s.engine.run es := by
  induction es generalizing s with
  | nil => rfl
  | cons ev es ih =>
    show ((s.step ev).run es).engine = (s.engine.step ev).run es
    rw [ih, step_engine]

/-- In every run in which each session begins with an empty ring, every frame that a packet
carries was pushed in the session in which the packet is sent. -/
theorem frames_stay_in_session {e : StreamEngine α} (h : e.Blank) (es : List (EngineEvent α))
    (hkeeps : ∀ ev ∈ es, ev.keepsRing = true) (hempty : Runs.Along step StartsEmpty (of e) es) :
    let s := run (of e) es
    s.engine = e.run es ∧
      s.engine.sent = e.sent ++ s.log.map Sent.packet ∧
      s.ringed.map Prod.snd = s.engine.ring.frames ∧
      (∀ m ∈ s.log, m.frames.map Prod.snd = m.packet.frames) ∧
      ∀ m ∈ s.log, ∀ f ∈ m.frames, f.1 = m.session := by
  have hend : Accounted e (run (of e) es) ∧ (run (of e) es).Own := by
    refine Runs.invariant_along (I := fun s => Accounted e s ∧ s.Own) ?_
      ⟨accounted_of h, ⟨by simp [of], by simp [of], by simp [of]⟩⟩
      ((Runs.along_of_forall_mem _ hkeeps).and hempty)
    rintro s ev ⟨ha, ho⟩ ⟨hev, hstart⟩
    exact ⟨accounted_step ha ev hev, own_step ha ho ev hev hstart⟩
  obtain ⟨haccounted, hown⟩ := hend
  exact ⟨run_engine _ es, haccounted.sent, haccounted.ringed, haccounted.frames, hown.log⟩

def preparedMono : StreamEngine ℕ :=
  StreamEngine.run {} [.setSettings { framesPerPacket := 2 }, .prepare 48000 128 1]

theorem blank_preparedMono : preparedMono.Blank := .prepared (Pipeline.prepared_new _ _ _ _)

def twoSessions (n : ℕ) : List (EngineEvent ℕ) :=
  [.start true, .pushAudio (StreamEngine.ramp 1 n (by decide))] ++ List.replicate 10 (.stream 0) ++
    [.stop, .stream 0, .start true, .pushAudio (StreamEngine.ramp 1 2 (by decide))] ++
    List.replicate 10 (.stream 0)

theorem frames_stay_in_session_even :
    let s := run (of preparedMono) (twoSessions 2)
    s.log.map (fun m => (m.session, m.frames.map Prod.fst)) = [(1, [1, 1]), (2, [2, 2])] ∧
      ∀ m ∈ s.log, ∀ f ∈ m.frames, f.1 = m.session := by
  refine ⟨by decide +kernel, ?_⟩
  exact (frames_stay_in_session blank_preparedMono (twoSessions 2) (by decide)
    (by decide +kernel)).2.2.2.2

/-- The third frame is still in the ring at the stop, and opens the next session. -/
theorem leftover_crosses_stop :
    let s := run (of preparedMono) (twoSessions 3)
    (∀ m ∈ s.log, m.frames.map Prod.snd = m.packet.frames) ∧
      s.engine.sent = s.log.map Sent.packet ∧
      s.log.map (fun m => (m.session, m.frames)) =
        [(1, [(1, [1]), (1, [2])]), (2, [(1, [3]), (2, [1])])] ∧
      ¬ ∀ m ∈ s.log, ∀ f ∈ m.frames, f.1 = m.session :=
  ⟨by decide +kernel, by decide +kernel, by decide +kernel, by decide +kernel⟩

end Sessions
end Ppm.Engine

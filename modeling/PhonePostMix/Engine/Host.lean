import PhonePostMix.Engine.Pipeline

/-! The places that the frames of the packets have in the host's audio. The engine never looks at
a sample, so every host frame carries its place instead. -/

namespace Ppm.Engine
open Wire

def AudioBuffer.placed (first numChannels numSamples : ℕ) (h : 0 < numChannels) :
    AudioBuffer ℕ :=
  ⟨numChannels, numSamples, fun _ i => first + i, h⟩

/-- The engine, the number of frames the host has pushed and, as a record, the places of
those the ring accepted. -/
structure Host where
  pipeline : Pipeline ℕ
  pushed : ℕ := 0
  accepted : List ℕ := []

inductive HostEvent where
  | push (numChannels numSamples : ℕ) (h : 0 < numChannels)
  | setHostPlaying (isPlaying : Bool)
  | stream (clock : UInt32)

def place (frame : List ℕ) : ℕ := frame.headD 0

def Packet.places (p : Packet ℕ) : List ℕ := p.frames.map place

def transmitted (sent : List (Packet ℕ)) : List ℕ := (carried sent).map place

theorem place_replicate {channels : ℕ} (h : 0 < channels) (tag : ℕ) :
    place (List.replicate channels tag) = tag := by
  rw [place, List.headD_eq_head?_getD, List.head?_replicate, if_neg h.ne']
  rfl

theorem transmitted_append (sent later : List (Packet ℕ)) :
    transmitted (sent ++ later) = transmitted sent ++ transmitted later := by
  simp [transmitted, carried]

theorem transmitted_cons (p : Packet ℕ) (later : List (Packet ℕ)) :
    transmitted (p :: later) = p.places ++ transmitted later := by
  simp [transmitted, carried, Packet.places]

namespace Host

def engine (h : Host) : StreamEngine ℕ := h.pipeline.engine

def fits (h : Host) (numSamples : ℕ) : Bool := numSamples ≤ h.engine.ring.fifo.getFreeSpace

def event (h : Host) : HostEvent → PipelineEvent ℕ
  | .push numChannels numSamples hpos =>
    .pushAudio (.placed h.pushed numChannels numSamples hpos)
  | .setHostPlaying isPlaying => .setHostPlaying isPlaying
  | .stream clock => .stream clock

def step (h : Host) (ev : HostEvent) : Host where
  pipeline := h.pipeline.step (h.event ev)
  pushed :=
    match ev with
    | .push _ numSamples _ => h.pushed + numSamples
    | _ => h.pushed
  accepted :=
    match ev with
    | .push _ numSamples _ =>
      if h.fits numSamples then h.accepted ++ List.range' h.pushed numSamples else h.accepted
    | _ => h.accepted

def run (h : Host) (es : List HostEvent) : Host := Runs.run step h es

def started (settings : Settings) (sampleRate : ℚ) (maximumBlockSize numChannels : ℤ) : Host where
  pipeline := .of (StreamEngine.run {}
    [.setSettings settings, .prepare sampleRate maximumBlockSize numChannels, .start true])

def framesPerPacket (h : Host) : ℕ := (UInt16.ofInt h.engine.settings.framesPerPacket).toNat

@[simp] theorem engine_push (h : Host) (numChannels numSamples : ℕ) (hpos : 0 < numChannels) :
    (h.step (.push numChannels numSamples hpos)).engine =
      h.engine.pushAudio (.placed h.pushed numChannels numSamples hpos) := rfl

@[simp] theorem engine_setHostPlaying (h : Host) (isPlaying : Bool) :
    (h.step (.setHostPlaying isPlaying)).engine = { h.engine with hostPlaying := isPlaying } := rfl

@[simp] theorem engine_stream (h : Host) (clock : UInt32) :
    (h.step (.stream clock)).engine = h.engine.streamStep clock := rfl

theorem framesPerPacket_step (h : Host) (ev : HostEvent) :
    (h.step ev).framesPerPacket = h.framesPerPacket := by
  unfold framesPerPacket
  cases ev with
  | push numChannels numSamples hpos =>
    rw [engine_push, StreamEngine.pushAudio]
    split_ifs <;> rfl
  | setHostPlaying isPlaying => rfl
  | stream clock => rw [engine_stream, (h.engine.streamStep_active clock).1]

theorem engine_streams (h : Host) (n : ℕ) :
    (run h (List.replicate n (.stream 0))).engine = (fun e => e.streamStep 0)^[n] h.engine ∧
      (run h (List.replicate n (.stream 0))).pushed = h.pushed ∧
      (run h (List.replicate n (.stream 0))).accepted = h.accepted := by
  induction n generalizing h with
  | zero => exact ⟨rfl, rfl, rfl⟩
  | succ n ih => exact ih (h.step (.stream 0))

/-- What every run keeps of a started engine: each accepted frame is in a packet, on its way
into one, or in the ring. -/
structure Ledger (h : Host) : Prop where
  conserves : h.pipeline.Conserves
  fresh : h.pipeline.start.sent = []
  running : h.engine.serverRunning = true
  active : h.engine.stage = some .readChannels →
    h.engine.iteration.frames.toNat = h.framesPerPacket
  sampled : ∀ s ∈ h.engine.stage, s.sampled = true →
    h.engine.iteration.frames.toNat = h.framesPerPacket
  accepted : h.pipeline.accepted = h.accepted.map (List.replicate h.engine.ring.channels)

variable {h : Host}

theorem started_engine (settings : Settings) (sampleRate : ℚ)
    (maximumBlockSize numChannels : ℤ) :
    let e := (started settings sampleRate maximumBlockSize numChannels).engine
    e.Prepared ∧ e.serverRunning = true ∧ e.stage = some .enter ∧ e.shouldExit = false ∧
      e.sent = [] ∧ e.settings = settings ∧ e.discontinuityPending = true ∧
      e.ring.fifo.totalSize = (StreamEngine.ringCapacity sampleRate maximumBlockSize).toNat := by
  refine ⟨Pipeline.prepared_started settings sampleRate maximumBlockSize numChannels, ?_⟩
  simp only [started, Pipeline.of, engine, StreamEngine.run, Runs.run_cons, Runs.run_nil,
    StreamEngine.step, StreamEngine.setSettings]
  split_ifs <;> exact ⟨rfl, rfl, rfl, rfl, rfl, rfl, rfl⟩

theorem ledger_started (settings : Settings) (sampleRate : ℚ) (maximumBlockSize numChannels : ℤ) :
    Ledger (started settings sampleRate maximumBlockSize numChannels) := by
  obtain ⟨hprepared, hrunning, hstage, -, hsent, -⟩ :=
    started_engine settings sampleRate maximumBlockSize numChannels
  refine ⟨Pipeline.conserves_of hprepared, hsent, hrunning, ?_, ?_, rfl⟩
  all_goals rw [hstage]
  · simp
  · simp [Stage.sampled]

theorem frame_placed {first numChannels numSamples : ℕ} (hpos : 0 < numChannels) (channels : ℕ) :
    (AudioBuffer.placed first numChannels numSamples hpos).frame channels =
      fun i => List.replicate channels (first + i) := by
  funext i
  simp [AudioBuffer.frame, AudioBuffer.placed]

theorem taken_placed (hl : Ledger h) (numChannels numSamples : ℕ) (hpos : 0 < numChannels) :
    h.engine.ring.taken (.placed h.pushed numChannels numSamples hpos) =
      (if h.fits numSamples then List.range' h.pushed numSamples else []).map
        (List.replicate h.engine.ring.channels) := by
  have hprepared : h.engine.ring.channels ≠ 0 := hl.conserves.steady.prepared.ne'
  unfold AudioRingBuffer.taken
  by_cases hfit : h.fits numSamples = true
  · rw [if_pos hfit]
    rcases Nat.eq_zero_or_pos numSamples with rfl | hn
    · simp [AudioBuffer.frames, AudioBuffer.placed]
    · obtain ⟨haccepted, -⟩ := AudioRingBuffer.write_fits
        (.placed h.pushed numChannels numSamples hpos) hn.ne' hprepared (of_decide_eq_true hfit)
      rw [if_pos haccepted, AudioBuffer.frames, frame_placed, List.range'_eq_map_range,
        List.map_map]
      rfl
  · have hfull : h.engine.ring.fifo.getFreeSpace < numSamples := by
      simpa [fits] using hfit
    rw [if_neg hfit, if_neg, List.map_nil]
    rw [AudioRingBuffer.write_discarded _ (by simp [AudioBuffer.placed]; omega) (.inr hfull)]
    simp

theorem ledger_push (hl : Ledger h) (numChannels numSamples : ℕ) (hpos : 0 < numChannels) :
    Ledger (h.step (.push numChannels numSamples hpos)) := by
  have hchannels := AudioRingBuffer.write_channels h.engine.ring
    (.placed h.pushed numChannels numSamples hpos)
  have hpush : (h.step (.push numChannels numSamples hpos)).engine =
      { h.engine with ring := (h.engine.ring.write
          (.placed h.pushed numChannels numSamples hpos)).2 } := if_pos hl.running
  refine ⟨Pipeline.conserves_step hl.conserves _, hl.fresh, ?_, ?_, ?_, ?_⟩
  · rw [hpush]
    exact hl.running
  · rw [framesPerPacket, hpush]
    exact hl.active
  · rw [framesPerPacket, hpush]
    exact hl.sampled
  · have htaken := taken_placed hl numChannels numSamples hpos
    have haccepted : (h.step (.push numChannels numSamples hpos)).pipeline.accepted =
        h.pipeline.accepted ++
          h.engine.ring.taken (.placed h.pushed numChannels numSamples hpos) := if_pos hl.running
    rw [haccepted, htaken, hl.accepted, hpush]
    show _ = List.map (List.replicate (h.engine.ring.write _).2.channels) _
    rw [hchannels, ← List.map_append]
    congr 1
    simp only [step]
    split_ifs
    · rfl
    · exact List.append_nil _

theorem ledger_stream (hl : Ledger h) (clock : UInt32) : Ledger (h.step (.stream clock)) := by
  have hconserves := Pipeline.conserves_step hl.conserves (.stream clock)
  obtain ⟨-, hrunning, hactive, hsame⟩ := h.engine.streamStep_active clock
  have hsize := framesPerPacket_step h (.stream clock)
  refine ⟨hconserves, hl.fresh, hrunning.trans hl.running, ?_, ?_, ?_⟩
  · intro hstage
    rw [hsize, framesPerPacket, ← hactive hstage]
    rfl
  · intro s hs hsampled
    obtain ⟨hbefore, hunchanged⟩ := hsame s hs hsampled
    rw [hsize, engine_stream, Iteration.frames, hunchanged]
    rcases hbefore with hstage | ⟨s', hs', hsampled'⟩
    · exact hl.active hstage
    · exact hl.sampled s' hs' hsampled'
  · have hchannels : (h.engine.streamStep clock).ring.channels = h.engine.ring.channels :=
      hconserves.channels.trans hl.conserves.channels.symm
    show h.pipeline.accepted = h.accepted.map (List.replicate (h.engine.streamStep clock).ring.channels)
    rw [hchannels]
    exact hl.accepted

theorem ledger_step (hl : Ledger h) (ev : HostEvent) : Ledger (h.step ev) := by
  cases ev with
  | push numChannels numSamples hpos => exact ledger_push hl numChannels numSamples hpos
  | setHostPlaying isPlaying =>
    exact ⟨Pipeline.conserves_step hl.conserves _, hl.fresh, hl.running, hl.active, hl.sampled,
      hl.accepted⟩
  | stream clock => exact ledger_stream hl clock

theorem ledger_run (settings : Settings) (sampleRate : ℚ) (maximumBlockSize numChannels : ℤ)
    (es : List HostEvent) :
    Ledger (run (started settings sampleRate maximumBlockSize numChannels) es) :=
  Runs.invariant (I := Ledger) (fun _ ev hl => ledger_step hl ev)
    (ledger_started settings sampleRate maximumBlockSize numChannels) es

theorem Ledger.packets (hl : Ledger h) : h.pipeline.packets = h.engine.sent := by
  rw [Pipeline.packets, hl.fresh]
  rfl

theorem Ledger.places (hl : Ledger h) :
    transmitted h.engine.sent ++ h.engine.held.map place ++ h.engine.ring.frames.map place =
      h.accepted := by
  have hconserved := congrArg (List.map place) hl.conserves.conserved
  rw [hl.packets, hl.accepted, List.map_append, List.map_append, List.map_map] at hconserved
  refine hconserved.trans ((List.map_congr_left fun tag _ => ?_).trans (List.map_id _))
  exact place_replicate hl.conserves.steady.prepared tag

theorem places_sendPacket (e : StreamEngine ℕ) (clock : UInt32)
    (hstage : e.stage = some .sendPacket) :
    ∃ p, (e.sendPacket clock).sent = e.sent ++ [p] ∧ p.places = e.held.map place ∧
      p.info = e.packetInfo clock := by
  refine ⟨_, rfl, ?_, rfl⟩
  rw [StreamEngine.held, if_pos hstage]
  rfl

end Host
end Ppm.Engine

import PhonePostMix.Engine.Steady

/-! Whatever the host pushes, on its way through the ring into the packets while the settings
change. -/

namespace Ppm.Engine
open Wire
variable {α : Type}

def carried (packets : List (Packet α)) : List (List α) := packets.flatMap Packet.frames

/-- The packet declares the channels of the ring and holds as many samples as it declares,
zeros when none come from the ring. -/
structure Packet.Exact [Zero α] (channels : ℕ) (p : Packet α) : Prop where
  channels : p.info.channels.toNat = channels
  length : p.samples.length = p.info.frames.toNat * p.info.channels.toNat
  keepalive : p.copied = none → ∀ x ∈ p.samples, x = 0

/-- The engine, where it started from and, as a record, the frames the ring accepted. -/
structure Pipeline (α : Type) where
  engine : StreamEngine α
  start : StreamEngine α
  accepted : List (List α) := []

inductive PipelineEvent (α : Type) where
  | pushAudio (buffer : AudioBuffer α)
  | setSettings (settings : Settings)
  | setHostPlaying (isPlaying : Bool)
  | start (bound : Bool)
  | stream (clock : UInt32)

namespace PipelineEvent

def engine : PipelineEvent α → EngineEvent α
  | .pushAudio buffer => .pushAudio buffer
  | .setSettings settings => .setSettings settings
  | .setHostPlaying isPlaying => .setHostPlaying isPlaying
  | .start bound => .start bound
  | .stream clock => .stream clock

end PipelineEvent

namespace Pipeline
variable [Zero α]

def packets (p : Pipeline α) : List (Packet α) := p.engine.sent.drop p.start.sent.length

def step (p : Pipeline α) (ev : PipelineEvent α) : Pipeline α where
  engine := p.engine.step ev.engine
  start := p.start
  accepted :=
    match ev with
    | .pushAudio buffer =>
      if p.engine.serverRunning then p.accepted ++ p.engine.ring.taken buffer else p.accepted
    | _ => p.accepted

def run (p : Pipeline α) (es : List (PipelineEvent α)) : Pipeline α := Runs.run step p es

end Pipeline

namespace StreamEngine

variable {e : StreamEngine α} [Zero α]

def Silent (e : StreamEngine α) : Prop :=
  e.stage = some .sendPacket → e.iteration.copied = none →
    ∀ x ∈ e.scratch.take e.iteration.numSamples, x = 0

theorem silent_checkRing (e : StreamEngine α) (clock : UInt32) : (e.checkRing clock).Silent := by
  unfold checkRing
  dsimp only
  split_ifs
  · simp [Silent]
  · simp [Silent]
  · intro _ _ x hx
    have hzeros : x ∈ (List.replicate e.iteration.numSamples (0 : α) ++
        e.scratch.drop e.iteration.numSamples).take e.iteration.numSamples := hx
    rw [List.take_left' List.length_replicate] at hzeros
    exact List.eq_of_mem_replicate hzeros

theorem silent_readRing (h : Steady e) (hstage : e.stage = some .readRing) :
    e.readRing.Silent := by
  obtain ⟨hcount, -⟩ := h.read hstage
  intro _ hnone x hx
  -- nothing was read only because the packet is empty
  have hempty : e.iteration.frames.toNat = 0 := by
    by_contra hne
    simp only [readRing, hcount, if_neg hne] at hnone
    simp at hnone
  have hzero : e.readRing.iteration.numSamples = 0 := by
    show e.iteration.frames.toNat * _ = 0
    rw [hempty, Nat.zero_mul]
  rw [hzero] at hx
  simp at hx

theorem silent_streamStep (h : Steady e) (clock : UInt32) : (e.streamStep clock).Silent := by
  unfold streamStep
  rcases hstage : e.stage with _ | s
  · simp [Silent, hstage]
  cases s with
  | getSettings =>
    dsimp only
    split_ifs <;> simp [Silent]
  | checkRing => exact silent_checkRing e clock
  | readRing => exact silent_readRing h hstage
  | _ => simp [Silent, resizeScratch, sendPacket]

/-- A prepared, empty ring, no frame on its way into a packet, and a thread that has sampled no
other channel count than the ring's. -/
structure Prepared (e : StreamEngine α) : Prop where
  steady : Steady e
  silent : e.Silent
  empty : e.ring.frames = []
  idle : e.held = []

theorem prepared_prepare (h : Sampling e) (sampleRate : ℚ) (maximumBlockSize numChannels : ℤ)
    (hcount : ∀ s ∈ e.stage, s.sampled = true →
      e.iteration.sampledFrom = (jlimit 1 2 numChannels).toNat)
    (hread : e.stage ≠ some .readRing) (hsend : e.stage ≠ some .sendPacket) :
    Prepared (e.prepare sampleRate maximumBlockSize numChannels) := by
  have hprepared := sampling_prepare h sampleRate maximumBlockSize numChannels
  refine ⟨⟨hprepared.current, rfl, fun s hs hsampled => ?_, h.sized, h.described,
    fun hs => absurd hs hread⟩, fun hs => absurd hs hsend, ?_, held_of_ne hsend⟩
  · exact (h.sampled s hs hsampled).trans (hcount s hs hsampled)
  · apply List.length_eq_zero_iff.mp
    rw [AudioRingBuffer.length_frames]
    rfl

theorem sendPacket_sent (h : Steady e) (hsilent : e.Silent) (clock : UInt32)
    (hstage : e.stage = some .sendPacket) :
    ∃ p, (e.sendPacket clock).sent = e.sent ++ [p] ∧ p.frames = e.held ∧
      p.info.sequence = e.sequence ∧ p.Exact e.ring.channels := by
  obtain ⟨hchannels, hframes⟩ := h.described _ hstage rfl
  have hsize : e.iteration.info.frames.toNat * e.iteration.info.channels.toNat =
      e.iteration.numSamples := by
    rw [hchannels, hframes]
    rfl
  refine ⟨_, rfl, ?_, rfl, ?_, ?_, ?_⟩
  · rw [held, if_pos hstage]
    rfl
  · exact (congrArg UInt8.toNat hchannels).trans (h.sampled _ hstage rfl)
  · show (e.scratch.take (e.iteration.info.frames.toNat * e.iteration.info.channels.toNat)).length =
      e.iteration.info.frames.toNat * e.iteration.info.channels.toNat
    rw [List.length_take, hsize]
    exact Nat.min_eq_left (h.sized _ hstage rfl)
  · intro hnone x hx
    refine hsilent hstage hnone x ?_
    rw [← hsize]
    exact hx

end StreamEngine

namespace Packet

theorem Exact.frames [Zero α] {channels : ℕ} {p : Packet α} (h : p.Exact channels)
    (hcopied : p.copied ≠ none) :
    p.frames.length = p.info.frames.toNat ∧ ∀ f ∈ p.frames, f.length = channels := by
  rcases hc : p.copied with _ | c
  · exact absurd hc hcopied
  simp only [Packet.frames, hc, List.length_map, List.length_range, List.mem_map, List.mem_range,
    true_and]
  rintro f ⟨i, hi, rfl⟩
  have hnext : (i + 1) * p.info.channels.toNat ≤ p.info.frames.toNat * p.info.channels.toNat :=
    Nat.mul_le_mul_right _ hi
  rw [Nat.succ_mul] at hnext
  rw [List.length_take, List.length_drop, h.length, ← h.channels]
  omega

end Packet

namespace Pipeline
variable [Zero α]

/-- No frame is lost or repeated between the ring and the packets. -/
structure Conserves (p : Pipeline α) : Prop where
  steady : p.engine.Steady
  silent : p.engine.Silent
  channels : p.engine.ring.channels = p.start.ring.channels
  later : p.engine.sent = p.start.sent ++ p.packets
  exact : ∀ q ∈ p.packets, q.Exact p.start.ring.channels
  next : p.engine.sequence = p.start.sequence + UInt32.ofNat p.packets.length
  numbered : ∀ i (hi : i < p.packets.length),
    p.packets[i].info.sequence = p.start.sequence + UInt32.ofNat i
  conserved : carried p.packets ++ p.engine.held ++ p.engine.ring.frames = p.accepted

def of (e : StreamEngine α) : Pipeline α where
  engine := e
  start := e

theorem conserves_of {e : StreamEngine α} (h : e.Prepared) : Conserves (of e) := by
  have hnone : (of e).packets = [] := List.drop_length
  refine ⟨h.steady, h.silent, rfl, ?_, ?_, ?_, ?_, ?_⟩
  · rw [hnone, List.append_nil]
    rfl
  · simp [hnone]
  · rw [hnone]
    exact (UInt32.add_zero _).symm
  · simp [hnone]
  · rw [hnone]
    show [] ++ e.held ++ e.ring.frames = []
    rw [h.idle, h.empty]
    rfl

variable {p : Pipeline α}

theorem packets_append {e : StreamEngine α} (h : p.Conserves) {qs : List (Packet α)}
    (hsent : e.sent = p.engine.sent ++ qs) :
    ({ p with engine := e } : Pipeline α).packets = p.packets ++ qs := by
  have hlength : p.start.sent.length ≤ p.engine.sent.length := by
    rw [h.later, List.length_append]
    exact Nat.le_add_right _ _
  rw [packets, hsent, List.drop_append_of_le_length hlength]
  rfl

theorem conserves_unsent (h : p.Conserves) {e : StreamEngine α} {accepted : List (List α)}
    (hsteady : e.Steady) (hsilent : e.Silent) (hchannels : e.ring.channels = p.engine.ring.channels)
    (hsent : e.sent = p.engine.sent) (hsequence : e.sequence = p.engine.sequence)
    (hconserved : carried p.packets ++ e.held ++ e.ring.frames = accepted) :
    Conserves { p with engine := e, accepted := accepted } := by
  have hpackets : ({ p with engine := e, accepted := accepted } : Pipeline α).packets =
      p.packets := congrArg (List.drop p.start.sent.length) hsent
  refine ⟨hsteady, hsilent, hchannels.trans h.channels, ?_, ?_, ?_, ?_, ?_⟩
  · rw [hpackets]
    exact hsent.trans h.later
  · rw [hpackets]
    exact h.exact
  · rw [hpackets]
    exact hsequence.trans h.next
  · simp only [hpackets]
    exact h.numbered
  · rw [hpackets]
    exact hconserved

theorem conserves_readRing (h : p.Conserves) (hstage : p.engine.stage = some .readRing) :
    Conserves { p with engine := p.engine.readRing } := by
  obtain ⟨-, -, hchannels, hframes⟩ := h.steady.read hstage
  have hbefore : p.engine.held = [] := StreamEngine.held_of_ne (by simp [hstage])
  have hconserved := h.conserved
  rw [hbefore, List.append_nil] at hconserved
  refine conserves_unsent h (StreamEngine.steady_readRing h.steady hstage)
    (StreamEngine.silent_readRing h.steady hstage) hchannels rfl rfl ?_
  rw [StreamEngine.held_readRing h.steady hstage, List.append_assoc, ← hconserved]
  show _ ++ (_ ++ (p.engine.ring.read _).2.2.frames) = _
  rw [hframes, List.take_append_drop]

theorem conserves_sendPacket (h : p.Conserves) (clock : UInt32)
    (hstage : p.engine.stage = some .sendPacket) :
    Conserves { p with engine := p.engine.sendPacket clock } := by
  have hsteady := StreamEngine.steady_streamStep h.steady clock
  have hsilent := StreamEngine.silent_streamStep h.steady clock
  simp only [StreamEngine.streamStep, hstage] at hsteady hsilent
  obtain ⟨q, hsent, hframes, hsequence, hexact⟩ :=
    StreamEngine.sendPacket_sent h.steady h.silent clock hstage
  have hpackets := packets_append h hsent
  have hafter : (p.engine.sendPacket clock).held = [] :=
    StreamEngine.held_of_ne (by simp [StreamEngine.sendPacket])
  refine ⟨hsteady, hsilent, h.channels, ?_, ?_, ?_, ?_, ?_⟩
  · rw [hpackets, ← List.append_assoc, ← h.later]
    exact hsent
  · rw [hpackets]
    intro r hr
    rcases List.mem_append.mp hr with hold | hnew
    · exact h.exact r hold
    · rw [List.mem_singleton.mp hnew]
      exact h.channels ▸ hexact
  · rw [hpackets, List.length_append, List.length_singleton, UInt32.ofNat_add, ← UInt32.add_assoc,
      ← h.next]
    rfl
  · simp only [hpackets]
    intro i hi
    rw [List.length_append, List.length_singleton] at hi
    rcases Nat.lt_succ_iff_lt_or_eq.mp hi with hold | rfl
    · rw [List.getElem_append_left hold]
      exact h.numbered i hold
    · rw [List.getElem_concat_length rfl]
      exact hsequence.trans h.next
  · rw [hpackets, carried, List.flatMap_append, List.flatMap_singleton, hframes, hafter,
      List.append_nil]
    exact h.conserved

theorem conserves_stream (h : p.Conserves) (clock : UInt32) :
    Conserves { p with engine := p.engine.streamStep clock } := by
  by_cases hread : p.engine.stage = some .readRing
  · simp only [StreamEngine.streamStep, hread]
    exact conserves_readRing h hread
  by_cases hsend : p.engine.stage = some .sendPacket
  · simp only [StreamEngine.streamStep, hsend]
    exact conserves_sendPacket h clock hsend
  obtain ⟨hring, hsent, hsequence, hheld⟩ := StreamEngine.streamStep_quiet clock hread hsend
  have hconserved := h.conserved
  rw [StreamEngine.held_of_ne hsend] at hconserved
  exact conserves_unsent h (StreamEngine.steady_streamStep h.steady clock)
    (StreamEngine.silent_streamStep h.steady clock) (congrArg AudioRingBuffer.channels hring)
    hsent hsequence (by rw [hring, hheld, hconserved])

theorem conserves_pushAudio (h : p.Conserves) (buffer : AudioBuffer α) :
    Conserves (p.step (.pushAudio buffer)) := by
  have hsteady := StreamEngine.steady_pushAudio h.steady buffer
  simp only [step, PipelineEvent.engine, StreamEngine.step, StreamEngine.pushAudio] at hsteady ⊢
  split_ifs at hsteady ⊢
  · refine conserves_unsent h hsteady h.silent (AudioRingBuffer.write_channels _ _) rfl rfl ?_
    show carried p.packets ++ p.engine.held ++ (p.engine.ring.write buffer).2.frames = _
    rw [AudioRingBuffer.write_taken, ← List.append_assoc, h.conserved]
  · exact h

omit [Zero α] in
theorem keepsRing_engine (ev : PipelineEvent α) : ev.engine.keepsRing = true := by
  cases ev <;> rfl

theorem conserves_step (h : p.Conserves) (ev : PipelineEvent α) : Conserves (p.step ev) := by
  have hs := StreamEngine.steady_step h.steady ev.engine (keepsRing_engine ev)
  cases ev with
  | pushAudio buffer => exact conserves_pushAudio h buffer
  | stream clock => exact conserves_stream h clock
  | setSettings settings =>
    simp only [step, PipelineEvent.engine, StreamEngine.step, StreamEngine.setSettings] at hs ⊢
    split_ifs at hs ⊢ <;> exact conserves_unsent h hs h.silent rfl rfl rfl h.conserved
  | setHostPlaying isPlaying => exact conserves_unsent h hs h.silent rfl rfl rfl h.conserved
  | start bound =>
    simp only [step, PipelineEvent.engine, StreamEngine.step, StreamEngine.start] at hs ⊢
    split_ifs at hs ⊢ with hrunning
    · exact h
    · -- a thread that starts has left nothing behind
      have hidle : p.engine.stage = none := by
        rcases hstage : p.engine.stage with _ | s
        · rfl
        · simp [hstage] at hrunning
      have hconserved := h.conserved
      rw [StreamEngine.held_of_ne (by simp [hidle])] at hconserved
      refine conserves_unsent h hs (by simp [StreamEngine.Silent]) rfl rfl rfl ?_
      rw [StreamEngine.held_of_ne (by simp)]
      exact hconserved

/-- In sequence order the packets carry the first of the accepted frames, each as many whole
frames as it declares; the others are still in the ring, or in the scratch buffer while the
thread is about to send. A keepalive is all zeros and takes no frame. -/
theorem packets_conserve {e : StreamEngine α} (h : e.Prepared) (es : List (PipelineEvent α)) :
    let p := run (of e) es
    p.engine.sent = e.sent ++ p.packets ∧
      p.packets.map (fun q => q.info.sequence) =
        (List.range p.packets.length).map (fun i => e.sequence + UInt32.ofNat i) ∧
      carried p.packets ++ p.engine.held ++ p.engine.ring.frames = p.accepted ∧
      (p.engine.stage ≠ some .sendPacket →
        carried p.packets ++ p.engine.ring.frames = p.accepted) ∧
      ∀ q ∈ p.packets,
        (q.copied ≠ none → q.frames.length = q.info.frames.toNat ∧
          ∀ f ∈ q.frames, f.length = e.ring.channels) ∧
        (q.copied = none → q.frames = [] ∧ ∀ x ∈ q.samples, x = 0) := by
  have hend : Conserves (run (of e) es) :=
    Runs.invariant (I := Conserves) (fun _ ev hp => conserves_step hp ev) (conserves_of h) es
  have hkeeps : ∀ (p : Pipeline α) ev, p.start = e → (p.step ev).start = e := fun _ _ hp => hp
  have hstart : (run (of e) es).start = e := Runs.invariant hkeeps rfl es
  have hchannels : (run (of e) es).start.ring.channels = e.ring.channels := by rw [hstart]
  refine ⟨?_, ?_, hend.conserved, ?_, ?_⟩
  · have hlater := hend.later
    rw [hstart] at hlater
    exact hlater
  · apply List.ext_getElem (by simp)
    intro i hi _
    rw [List.length_map] at hi
    rw [List.getElem_map, List.getElem_map, List.getElem_range, hend.numbered i hi, hstart]
  · intro hstage
    rw [← hend.conserved, StreamEngine.held_of_ne hstage, List.append_nil]
  · intro q hq
    refine ⟨fun hcopied => hchannels ▸ (hend.exact q hq).frames hcopied, fun hnone => ⟨?_, ?_⟩⟩
    · simp only [Packet.frames, hnone]
    · exact (hend.exact q hq).keepalive hnone

def startedMono : StreamEngine ℕ :=
  StreamEngine.run {} [.setSettings { framesPerPacket := 2 }, .prepare 48000 128 1, .start true]

theorem prepared_start {e : StreamEngine α} (h : e.Prepared) (bound : Bool) :
    (e.start bound).Prepared := by
  have hsteady := StreamEngine.steady_step h.steady (.start bound) rfl
  simp only [StreamEngine.step, StreamEngine.start] at hsteady ⊢
  split_ifs at hsteady ⊢
  · exact h
  · exact ⟨hsteady, by simp [StreamEngine.Silent], h.empty, StreamEngine.held_of_ne (by simp)⟩

theorem prepared_new (settings : Settings) (sampleRate : ℚ) (maximumBlockSize numChannels : ℤ) :
    (StreamEngine.run ({} : StreamEngine α) [.setSettings settings,
      .prepare sampleRate maximumBlockSize numChannels]).Prepared := by
  have hsampling := StreamEngine.sampling_step (α := α) StreamEngine.sampling_new
    (.setSettings settings) (by simp [StreamEngine.ChannelsKept])
  have hidle : (({} : StreamEngine α).step (.setSettings settings)).stage = none := by
    simp only [StreamEngine.step, StreamEngine.setSettings]
    split_ifs <;> rfl
  refine StreamEngine.prepared_prepare hsampling _ _ _ (fun s hs => ?_) ?_ ?_
  · rw [hidle] at hs
    cases hs
  · rw [hidle]
    simp
  · rw [hidle]
    simp

theorem prepared_started (settings : Settings) (sampleRate : ℚ)
    (maximumBlockSize numChannels : ℤ) :
    (StreamEngine.run ({} : StreamEngine α) [.setSettings settings,
      .prepare sampleRate maximumBlockSize numChannels, .start true]).Prepared :=
  prepared_start (prepared_new settings sampleRate maximumBlockSize numChannels) true

theorem packets_conserve_mono :
    let p := run (of startedMono)
      ([.pushAudio (StreamEngine.ramp 1 3 (by decide))] ++ List.replicate 11 (.stream 0) ++
        [.setSettings { framesPerPacket := 7 }] ++ List.replicate 8 (.stream 0))
    carried p.packets = [[1], [2]] ∧ carried p.packets ++ p.engine.ring.frames = p.accepted :=
  ⟨by decide +kernel, (packets_conserve (prepared_started _ _ _ _) _).2.2.2.1 (by decide +kernel)⟩

end Pipeline
end Ppm.Engine

import PhonePostMix.Engine.Sessions
import PhonePostMix.Engine.Writers
import PhonePostMix.Plugin.State
import PhonePostMix.Wire.Samples

/-! The packets of a processor whose settings come out of a saved state. -/

namespace Ppm.Engine
open Wire

/-- Settings a packet can carry as they are. -/
structure Settings.Sound (s : Settings) : Prop where
  format : s.format.Known
  frames_pos : 1 ≤ s.framesPerPacket
  frames_lt : s.framesPerPacket < 2 ^ 16

instance (format : Format) : Decidable format.Known := inferInstanceAs (Decidable (_ ∨ _))

instance (s : Settings) : Decidable s.Sound :=
  decidable_of_iff (s.format.Known ∧ 1 ≤ s.framesPerPacket ∧ s.framesPerPacket < 2 ^ 16)
    ⟨fun ⟨h, h', h''⟩ => ⟨h, h', h''⟩, fun ⟨h, h', h''⟩ => ⟨h, h', h''⟩⟩

theorem Iteration.frames_eq {it : Iteration} (h : it.active.Sound) :
    (it.frames.toNat : ℤ) = it.active.framesPerPacket := by
  have hpos := h.frames_pos
  have hlt := h.frames_lt
  simp only [Iteration.frames, UInt16.ofInt, UInt16.toNat_ofNat']
  omega

namespace StreamEngine
variable {α : Type} [Zero α]

theorem step_iteration (e : StreamEngine α) {ev : EngineEvent α} (h : ∀ clock, ev ≠ .stream clock) :
    (e.step ev).iteration = e.iteration ∧ (e.step ev).scratch = e.scratch ∧
      (e.step ev).sent = e.sent ∧ ∀ s ∈ (e.step ev).stage, s ∈ e.stage ∨ s = .enter := by
  cases ev with
  | stream clock => exact absurd rfl (h clock)
  | pushAudio buffer =>
    simp only [step, pushAudio]
    split_ifs <;> exact ⟨rfl, rfl, rfl, fun _ => .inl⟩
  | setSettings settings =>
    simp only [step, setSettings]
    split_ifs <;> exact ⟨rfl, rfl, rfl, fun _ => .inl⟩
  | start bound =>
    simp only [step, start_eq]
    split_ifs
    · exact ⟨rfl, rfl, rfl, fun _ hs => .inr (Option.mem_some.mp hs).symm⟩
    · exact ⟨rfl, rfl, rfl, fun _ => .inl⟩
  | stop =>
    simp only [step, stop]
    split_ifs <;> exact ⟨rfl, rfl, rfl, fun _ => .inl⟩
  | _ => exact ⟨rfl, rfl, rfl, fun _ => .inl⟩

def ActiveMeets (P : Settings → Prop) (e : StreamEngine α) : Prop :=
  ∀ s ∈ e.stage, s.active = true → P e.iteration.active

omit [Zero α] in
theorem activeMeets_of {P : Settings → Prop} {e e' : StreamEngine α} (h : e.ActiveMeets P)
    (hiteration : e'.iteration = e.iteration) (hstage : ∀ s ∈ e'.stage, s ∈ e.stage ∨ s = .enter) :
    e'.ActiveMeets P := by
  intro s hs hactive
  rw [hiteration]
  rcases hstage s hs with hold | rfl
  · exact h s hold hactive
  · exact absurd hactive (by decide)

theorem activeMeets_streamStep {P : Settings → Prop} {e : StreamEngine α}
    (hsettings : P e.settings) (h : e.ActiveMeets P) (clock : UInt32) :
    (e.streamStep clock).ActiveMeets P := by
  unfold streamStep
  rcases hstage : e.stage with _ | s
  · exact h
  cases s with
  | getSettings =>
    dsimp only
    split_ifs
    · simp [ActiveMeets]
    · exact fun _ _ _ => hsettings
  | enter | sendPacket => simp [ActiveMeets, Stage.active, sendPacket]
  | checkRing =>
    simp only [checkRing]
    split_ifs <;> exact fun _ _ _ => h _ hstage rfl
  | _ => exact fun _ _ _ => h _ hstage rfl

def ActiveSound (e : StreamEngine α) : Prop :=
  ∀ s ∈ e.stage, s.active = true → e.iteration.active.Sound

end StreamEngine
end Ppm.Engine

namespace Ppm.Plugin
open Engine Wire

instance : Zero FloatSample := ⟨⟨0, 0⟩⟩

def resize (packet : List UInt8) (size : ℕ) : List UInt8 :=
  packet.take size ++ List.replicate (size - packet.length) 0

theorem length_resize (packet : List UInt8) (size : ℕ) : (resize packet size).length = size := by
  rw [resize, List.length_append, List.length_take, List.length_replicate]
  omega

def overwritten (e : StreamEngine FloatSample) (packet : List UInt8) (clock : UInt32) :
    List UInt8 :=
  -- the bytes that `sendPacket` writes over its buffer
  let info := e.packetInfo clock
  let buffer := if packet.length ≠ packetSize info then resize packet (packetSize info) else packet
  writePacket buffer info fun i => e.scratch.getD i 0

/-- A packet as broadcast, with the settings of its iteration, whether the ring had audio for it,
the samples its iteration took from there (zeros for a keepalive) and the frames the ring lost. -/
structure Emission where
  packet : Packet FloatSample
  active : Settings
  audio : Bool
  samples : List FloatSample
  taken : ℕ
  bytes : List UInt8

/-- The processor and its packet buffer; as records, what the iteration took out of the ring and
what has been broadcast. -/
structure Sender where
  processor : Processor FloatSample := {}
  packet : List UInt8 := []
  audio : Bool := false
  samples : List FloatSample := []
  taken : ℕ := 0
  log : List Emission := []

inductive SenderEvent where
  | restore (state : StateTree)
  | engine (ev : EngineEvent FloatSample)

namespace Sender

def written (s : Sender) (clock : UInt32) : List UInt8 :=
  overwritten s.processor.engine s.packet clock

def stream (s : Sender) (clock : UInt32) : Sender :=
  let e := s.processor.engine
  let next := { s with processor := { s.processor with engine := e.streamStep clock } }
  match e.stage with
  | some .checkRing =>
    { next with audio := false, samples := List.replicate e.iteration.numSamples 0, taken := 0 }
  | some .readRing =>
    let result := e.ring.read e.iteration.frames.toNat
    { next with
      audio := true
      samples := result.2.1
      taken := e.ring.getNumReady - result.2.2.getNumReady }
  | some .sendPacket =>
    { next with
      packet := s.written clock
      log := s.log ++
        [⟨e.outgoing clock, e.iteration.active, s.audio, s.samples, s.taken, s.written clock⟩] }
  | _ => next

def step (s : Sender) : SenderEvent → Sender
  | .restore state => { s with processor := s.processor.restore state }
  | .engine (.stream clock) => s.stream clock
  | .engine ev =>
    { s with processor := { s.processor with engine := s.processor.engine.step ev } }

def run (s : Sender) (es : List SenderEvent) : Sender := Runs.run step s es

/-- The settings that come in are sound, and no other channel count comes between the two ends
of an iteration. -/
def Guarded (s : Sender) : SenderEvent → Prop
  | .restore state => state.tag = stateTag → state.settings.Sound
  | .engine (.setSettings settings) => settings.Sound
  | .engine ev => s.processor.engine.ChannelsKept ev

instance (s : Sender) (ev : SenderEvent) : Decidable (s.Guarded ev) := by
  unfold Guarded
  split <;> infer_instance

end Sender

/-- The packet has a format of the protocol and the frames of its settings, at least one, and
carries exactly the samples its iteration took; when these came from the ring, it lost as many
frames. -/
structure Emission.Faithful (m : Emission) : Prop where
  format : m.packet.info.format.Known
  frames : (m.packet.info.frames.toNat : ℤ) = m.active.framesPerPacket ∧
    1 ≤ m.packet.info.frames.toNat
  length : m.samples.length = m.packet.info.frames.toNat * m.packet.info.channels.toNat
  bytes : m.bytes = fields m.packet.info ++ payload m.packet.info fun i => m.samples.getD i 0
  audio : m.audio = true → m.taken = m.packet.info.frames.toNat
  keepalive : m.audio = false → ∀ x ∈ m.samples, x = 0

namespace Sender

structure Loaded (s : Sender) : Prop where
  scratch : s.processor.engine.scratch.take s.processor.engine.iteration.numSamples = s.samples
  length : s.samples.length = s.processor.engine.iteration.numSamples
  audio : s.audio = true → s.taken = s.processor.engine.iteration.frames.toNat
  keepalive : s.audio = false → ∀ x ∈ s.samples, x = 0

structure Sane (s : Sender) : Prop where
  sampling : StreamEngine.Sampling s.processor.engine
  declared : s.processor.engine.Declared
  settings : s.processor.engine.settings.Sound
  active : s.processor.engine.ActiveSound
  loaded : s.processor.engine.stage = some .sendPacket → s.Loaded
  sent : s.processor.engine.sent = s.log.map Emission.packet
  faithful : ∀ m ∈ s.log, m.Faithful

variable {s : Sender}

theorem engine_stream (s : Sender) (clock : UInt32) :
    (s.stream clock).processor.engine = s.processor.engine.streamStep clock := by
  unfold stream
  dsimp only
  split <;> rfl

theorem log_stream_of_ne (clock : UInt32) (h : s.processor.engine.stage ≠ some .sendPacket) :
    (s.stream clock).log = s.log := by
  unfold stream
  dsimp only
  split
  case h_3 hsend => exact absurd hsend h
  all_goals rfl

theorem sane_new : Sane {} where
  sampling := StreamEngine.sampling_new
  declared := by simp [StreamEngine.Declared]
  settings := by decide
  active := by simp [StreamEngine.ActiveSound]
  loaded h := nomatch h
  sent := rfl
  faithful m hm := nomatch hm

theorem loaded_readRing (h : s.Sane) (hstage : s.processor.engine.stage = some .readRing)
    (clock : UInt32) (hkept : s.processor.engine.ChannelsKept (.stream clock))
    (hnext : s.processor.engine.readRing.stage = some .sendPacket) : (s.stream clock).Loaded := by
  have hkept' : ¬ s.processor.engine.Stale := by
    simpa only [StreamEngine.ChannelsKept, hstage] using hkept
  obtain ⟨-, hsame⟩ := StreamEngine.readRing_floats h.sampling hstage hkept'
  have hstep : s.processor.engine.streamStep clock = s.processor.engine.readRing := by
    rw [StreamEngine.streamStep, hstage]
  have hsound := h.active _ hstage rfl
  have hframes := Iteration.frames_eq hsound
  have hpos := hsound.frames_pos
  have hstream : s.stream clock =
      { s with
        processor := { s.processor with engine := s.processor.engine.readRing }
        audio := true
        samples :=
          (s.processor.engine.ring.read s.processor.engine.iteration.frames.toNat).2.1
        taken := s.processor.engine.ring.getNumReady -
          (s.processor.engine.ring.read
            s.processor.engine.iteration.frames.toNat).2.2.getNumReady } := by
    simp only [stream, hstage, hstep]
  rw [hstream]
  generalize s.processor.engine = e at *
  obtain ⟨hcount, -, -, -, hrest⟩ := e.ring.read_spec e.iteration.frames.toNat
  have hlength := AudioRingBuffer.length_read e.ring e.iteration.frames.toNat
  have hleft := congrArg List.length hrest
  rw [List.length_drop, AudioRingBuffer.length_frames, AudioRingBuffer.length_frames] at hleft
  -- all of them were there, so there is at least one
  have hall : (e.ring.read e.iteration.frames.toNat).1 = e.iteration.frames.toNat ∧
      e.iteration.frames.toNat ≤ e.ring.fifo.numReady := by
    simp only [StreamEngine.readRing] at hnext
    split_ifs at hnext with hshort
    · cases hnext
    by_cases hchannels : e.ring.channels = 0
    · rw [if_pos hchannels] at hcount
      omega
    · rw [if_neg hchannels] at hcount
      omega
  have hsize : (e.ring.read e.iteration.frames.toNat).2.1.length = e.iteration.numSamples := by
    rw [hlength, hall.1, ← hsame (by omega)]
    rfl
  refine ⟨?_, hsize, fun _ => ?_, fun hno => Bool.noConfusion hno⟩
  · show (_ ++ _ : List FloatSample).take e.iteration.numSamples = _
    exact List.take_left' hsize
  · show e.ring.fifo.numReady - _ = e.iteration.frames.toNat
    rw [← hcount, hall.1] at hleft
    simp only [AudioRingBuffer.getNumReady, hleft]
    omega

theorem loaded_checkRing (hstage : s.processor.engine.stage = some .checkRing) (clock : UInt32)
    (hnext : (s.processor.engine.checkRing clock).stage = some .sendPacket) :
    (s.stream clock).Loaded := by
  have hstep : s.processor.engine.streamStep clock = s.processor.engine.checkRing clock := by
    rw [StreamEngine.streamStep, hstage]
  have hstream : s.stream clock =
      { s with
        processor := { s.processor with engine := s.processor.engine.checkRing clock }
        audio := false
        samples := List.replicate s.processor.engine.iteration.numSamples 0
        taken := 0 } := by
    simp only [stream, hstage, hstep]
  rw [hstream]
  generalize s.processor.engine = e at *
  unfold StreamEngine.checkRing at hnext ⊢
  dsimp only at hnext ⊢
  split_ifs at hnext ⊢
  · cases hnext
  · cases hnext
  · exact ⟨List.take_left' List.length_replicate, List.length_replicate,
      fun hno => Bool.noConfusion hno, fun _ x hx => List.eq_of_mem_replicate hx⟩

theorem payload_congr {info : PacketInfo} {f g : ℕ → FloatSample}
    (h : ∀ i < info.frames.toNat * info.channels.toNat, f i = g i) :
    payload info f = payload info g := by
  unfold payload
  apply List.flatMap_congr
  intro i hi
  rw [h i (List.mem_range.mp hi)]

theorem written_eq {clock : UInt32} (h : (s.processor.engine.packetInfo clock).format.Known) :
    s.written clock = fields (s.processor.engine.packetInfo clock) ++
      payload (s.processor.engine.packetInfo clock)
        fun i => s.processor.engine.scratch.getD i 0 := by
  have hbuffer : (if s.packet.length ≠ packetSize (s.processor.engine.packetInfo clock) then
      resize s.packet (packetSize (s.processor.engine.packetInfo clock))
      else s.packet).length = packetSize (s.processor.engine.packetInfo clock) := by
    split_ifs with hsame
    · exact length_resize _ _
    · exact not_not.mp hsame
  simp only [written, overwritten]
  exact writePacket_eq h hbuffer _

theorem faithful_sendPacket (h : s.Sane) (hstage : s.processor.engine.stage = some .sendPacket)
    (clock : UInt32) :
    Emission.Faithful ⟨s.processor.engine.outgoing clock, s.processor.engine.iteration.active,
      s.audio, s.samples, s.taken, s.written clock⟩ := by
  obtain ⟨hscratch, hlength, haudio, hkeepalive⟩ := h.loaded hstage
  have hconfig := h.declared _ hstage rfl
  have hsound := h.active _ hstage rfl
  have hactive := Iteration.frames_eq hsound
  have hpos := hsound.frames_pos
  have hformat : (s.processor.engine.packetInfo clock).format =
      s.processor.engine.iteration.active.format := congrArg Config.format hconfig
  have hchannels : (s.processor.engine.packetInfo clock).channels =
      s.processor.engine.iteration.channels := congrArg Config.channels hconfig
  have hframes : (s.processor.engine.packetInfo clock).frames =
      s.processor.engine.iteration.frames := congrArg Config.frames hconfig
  have hknown : (s.processor.engine.packetInfo clock).format.Known := hformat ▸ hsound.format
  have hsize : (s.processor.engine.packetInfo clock).frames.toNat *
      (s.processor.engine.packetInfo clock).channels.toNat = s.samples.length := by
    rw [hframes, hchannels, hlength]
    rfl
  refine ⟨hknown, ⟨?_, ?_⟩, hsize.symm, ?_, fun ha => ?_, hkeepalive⟩
  · exact (congrArg (fun n : UInt16 => (n.toNat : ℤ)) hframes).trans hactive
  · show 1 ≤ (s.processor.engine.packetInfo clock).frames.toNat
    rw [hframes]
    omega
  · show s.written clock = _
    rw [written_eq hknown]
    congr 1
    apply payload_congr
    intro i hi
    rw [hsize] at hi
    have hin : i < s.processor.engine.iteration.numSamples := hlength ▸ hi
    rw [← hscratch, List.getD_eq_getElem?_getD, List.getD_eq_getElem?_getD,
      List.getElem?_take_of_lt hin]
  · show s.taken = (s.processor.engine.packetInfo clock).frames.toNat
    rw [hframes]
    exact haudio ha

theorem sane_stream (h : s.Sane) (clock : UInt32)
    (hkept : s.processor.engine.ChannelsKept (.stream clock)) : (s.stream clock).Sane := by
  have hsampling := StreamEngine.sampling_streamStep h.sampling clock hkept
  have hdeclared := StreamEngine.declared_streamStep h.declared clock
  have hactive : (s.processor.engine.streamStep clock).ActiveSound :=
    StreamEngine.activeMeets_streamStep (P := Settings.Sound) h.settings h.active clock
  have hsettings : (s.processor.engine.streamStep clock).settings.Sound := by
    rw [(s.processor.engine.streamStep_active clock).1]
    exact h.settings
  have hengine := engine_stream s clock
  have hloaded : (s.processor.engine.streamStep clock).stage = some .sendPacket →
      (s.stream clock).Loaded := by
    intro hnext
    rcases s.processor.engine.streamStep_sendPacket clock hnext with hcheck | hread
    · refine loaded_checkRing hcheck clock ?_
      rwa [StreamEngine.streamStep, hcheck] at hnext
    · refine loaded_readRing h hread clock hkept ?_
      rwa [StreamEngine.streamStep, hread] at hnext
  by_cases hsend : s.processor.engine.stage = some .sendPacket
  · have hlog : (s.stream clock).log = s.log ++
        [⟨s.processor.engine.outgoing clock, s.processor.engine.iteration.active, s.audio,
          s.samples, s.taken, s.written clock⟩] := by
      simp only [stream, hsend]
    refine ⟨hengine ▸ hsampling, hengine ▸ hdeclared, hengine ▸ hsettings, hengine ▸ hactive,
      hengine ▸ hloaded, ?_, ?_⟩
    · rw [hengine, hlog, List.map_append, ← h.sent, StreamEngine.streamStep, hsend]
      rfl
    · rw [hlog]
      intro m hm
      rcases List.mem_append.mp hm with hold | hnew
      · exact h.faithful m hold
      · rw [List.mem_singleton.mp hnew]
        exact faithful_sendPacket h hsend clock
  · have hlog := log_stream_of_ne clock hsend
    have hsent : (s.processor.engine.streamStep clock).sent = s.processor.engine.sent := by
      obtain ⟨-, ⟨hsend', -⟩ | ⟨-, hsent, -⟩⟩ := s.processor.engine.streamStep_epoch clock
      · exact absurd hsend' hsend
      · exact hsent
    exact ⟨hengine ▸ hsampling, hengine ▸ hdeclared, hengine ▸ hsettings, hengine ▸ hactive,
      hengine ▸ hloaded, by rw [hengine, hlog, hsent, h.sent], by rw [hlog]; exact h.faithful⟩

theorem sane_other (h : s.Sane) (ev : EngineEvent FloatSample) (hev : ∀ clock, ev ≠ .stream clock)
    {p : Processor FloatSample} (hp : p.engine = s.processor.engine.step ev)
    (hsound : p.engine.settings.Sound) :
    Sane { s with processor := p } := by
  obtain ⟨hiteration, hscratch, hsent, hstage⟩ := s.processor.engine.step_iteration hev
  rw [← hp] at hiteration hscratch hsent hstage
  have hactive := StreamEngine.activeMeets_of (P := Settings.Sound) h.active hiteration hstage
  refine ⟨?_, ?_, hsound, hactive, fun hsend => ?_,
    hsent.trans h.sent, h.faithful⟩
  · rw [hp]
    apply StreamEngine.sampling_step h.sampling ev
    unfold StreamEngine.ChannelsKept
    split
    · exact absurd rfl (hev _)
    · trivial
  · intro t ht hdescribed
    rw [hiteration]
    rcases hstage t ht with hold | rfl
    · exact h.declared t hold hdescribed
    · exact absurd hdescribed (by decide)
  · have hold : s.processor.engine.stage = some .sendPacket :=
      (hstage _ hsend).resolve_right (by decide)
    obtain ⟨htake, hlength, haudio, hkeepalive⟩ := h.loaded hold
    constructor
    · rw [hscratch, hiteration]
      exact htake
    · rw [hiteration]
      exact hlength
    · rw [hiteration]
      exact haudio
    · exact hkeepalive

theorem step_settings (e : StreamEngine FloatSample) (ev : EngineEvent FloatSample)
    (hset : ∀ settings, ev ≠ .setSettings settings) : (e.step ev).settings = e.settings := by
  cases ev with
  | setSettings settings => exact absurd rfl (hset settings)
  | stream clock => exact (e.streamStep_active clock).1
  | pushAudio buffer =>
    simp only [StreamEngine.step, StreamEngine.pushAudio]
    split_ifs <;> rfl
  | start bound =>
    simp only [StreamEngine.step, StreamEngine.start]
    split_ifs <;> rfl
  | stop =>
    simp only [StreamEngine.step, StreamEngine.stop]
    split_ifs <;> rfl
  | _ => rfl

theorem step_other (s : Sender) {ev : EngineEvent FloatSample} (hev : ∀ clock, ev ≠ .stream clock) :
    s.step (.engine ev) =
      { s with processor := { s.processor with engine := s.processor.engine.step ev } } := by
  cases ev with
  | stream clock => exact absurd rfl (hev clock)
  | _ => rfl

theorem sane_step (h : s.Sane) (ev : SenderEvent) (hguarded : s.Guarded ev) :
    (s.step ev).Sane := by
  have hset (settings : Settings) (hsound : settings.Sound) {p : Processor FloatSample}
      (hp : p.engine = s.processor.engine.step (.setSettings settings)) :
      Sane { s with processor := p } := by
    refine sane_other h (.setSettings settings) (by simp) hp ?_
    rw [hp]
    exact (Processor.setSettings_settings _ settings).symm ▸ hsound
  cases ev with
  | restore state =>
    simp only [step, Processor.restore]
    split_ifs with htag
    · exact h
    · exact hset state.settings (hguarded (not_not.mp htag)) rfl
  | engine ev =>
    by_cases hstream : ∃ clock, ev = .stream clock
    · obtain ⟨clock, rfl⟩ := hstream
      exact sane_stream h clock hguarded
    by_cases hsettings : ∃ settings, ev = .setSettings settings
    · obtain ⟨settings, rfl⟩ := hsettings
      exact hset settings hguarded rfl
    rw [step_other s (not_exists.mp hstream)]
    refine sane_other h ev (not_exists.mp hstream) rfl ?_
    rw [step_settings _ ev (not_exists.mp hsettings)]
    exact h.settings

/-- In every run into which only sound settings come, restored or set otherwise, and in which no
other channel count comes between the two ends of an iteration, every packet is faithful. -/
theorem faithful_run (es : List SenderEvent) (h : Runs.Along step Guarded ({} : Sender) es) :
    (run {} es).processor.engine.sent = (run {} es).log.map Emission.packet ∧
      ∀ m ∈ (run {} es).log, m.Faithful ∧ (m.audio = true → 1 ≤ m.taken) := by
  have hend : (run {} es).Sane :=
    Runs.invariant_along (I := Sane) (fun _ ev hs hguarded => sane_step hs ev hguarded) sane_new h
  refine ⟨hend.sent, fun m hm => ⟨hend.faithful m hm, fun haudio => ?_⟩⟩
  rw [(hend.faithful m hm).audio haudio]
  exact (hend.faithful m hm).frames.2

def frameOf (bits : UInt32) : AudioBuffer FloatSample := ⟨1, 1, fun _ _ => ⟨0, bits⟩, Nat.one_pos⟩

def restored (format framesPerPacket : ℤ) : List SenderEvent :=
  -- a project is opened, the host prepares the processor and the user starts it; then comes one
  -- frame of audio, and the streaming thread gets as far as to send
  [.restore { tag := stateTag, format := some format, framesPerPacket := some framesPerPacket },
    .engine (.prepare 48000 128 1), .engine (.start true),
    .engine (.pushAudio (frameOf 0x11111111))] ++
    List.replicate 10 (.engine (.stream 0))

theorem faithful_float32 :
    (run {} (restored 2 1)).log.map (fun m => m.bytes.drop headerBytes) =
        [[0x11, 0x11, 0x11, 0x11]] ∧
      ∀ m ∈ (run {} (restored 2 1)).log, m.Faithful ∧ (m.audio = true → 1 ≤ m.taken) :=
  ⟨by decide +kernel, (faithful_run _ (by decide +kernel)).2⟩

/-- A packet size of zero is sent over and over without taking a frame, and with a format that
does not exist the packet repeats the bytes of the packet before it. -/
theorem restored_corrupt :
    let flood := run {} (restored 1 0)
    let stale := run {} (restored 2 1 ++
      [.restore { tag := stateTag, format := some 3, framesPerPacket := some 1 },
        .engine (.pushAudio (frameOf 0x22222222))] ++ List.replicate 9 (.engine (.stream 0)))
    flood.log.map (fun m => (m.audio, m.taken, m.packet.info.frames)) = [(true, 0, 0)] ∧
      stale.log.map (fun m => (m.samples.map FloatSample.bits, m.bytes.drop headerBytes)) =
        [([0x11111111], [0x11, 0x11, 0x11, 0x11]), ([0x22222222], [0x11, 0x11, 0x11, 0x11])] ∧
      (¬ ∀ m ∈ flood.log, m.audio = true → 1 ≤ m.taken) ∧
      ¬ ∀ m ∈ stale.log, m.packet.info.format.Known :=
  ⟨by decide +kernel, by decide +kernel, by decide +kernel, by decide +kernel⟩

end Sender
end Ppm.Plugin

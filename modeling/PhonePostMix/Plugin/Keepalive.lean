import PhonePostMix.Library.WrappingCounters
import PhonePostMix.Plugin.Packets

/-! The packets that are sent without audio: how far apart they are, and what is in them. -/

namespace Ppm.Engine.StreamEngine
open Wire
variable {α : Type} [Zero α]

def lacking (e : StreamEngine α) : Bool :=
  ¬ (0 < e.ring.channels ∧ e.iteration.frames.toNat ≤ e.ring.getNumReady)

def keepalive (e : StreamEngine α) (clock : UInt32) : StreamEngine α :=
  { e with
    iteration := { e.iteration with
      now := clock
      copied := none
      info := { e.iteration.info with flags := e.iteration.info.flags ||| Flags.silence } }
    scratch := List.replicate e.iteration.numSamples 0 ++ e.scratch.drop e.iteration.numSamples
    stage := some .sendPacket }

theorem checkRing_cases (e : StreamEngine α) (clock : UInt32) :
    (e.lacking = false ∧ (e.checkRing clock).stage = some .readRing ∧
        (e.checkRing clock).iteration.now = clock) ∨
      (e.lacking = true ∧ clock - e.lastPacketTimeMs < silenceKeepaliveMs ∧
        (e.checkRing clock).stage = some .getSettings) ∨
      (e.lacking = true ∧ ¬ clock - e.lastPacketTimeMs < silenceKeepaliveMs ∧
        e.checkRing clock = e.keepalive clock) := by
  unfold checkRing lacking
  dsimp only
  split_ifs with hring hearly
  · exact .inl ⟨decide_eq_false (not_not_intro hring), rfl, rfl⟩
  · exact .inr (.inl ⟨decide_eq_true hring, hearly, rfl⟩)
  · exact .inr (.inr ⟨decide_eq_true hring, hearly, rfl⟩)

theorem checkRing_last (e : StreamEngine α) (clock : UInt32) :
    (e.checkRing clock).lastPacketTimeMs = e.lastPacketTimeMs := by
  unfold checkRing
  dsimp only
  split_ifs <;> rfl

theorem step_running (e : StreamEngine α) {ev : EngineEvent α} (h : ∀ clock, ev ≠ .stream clock) :
    (e.step ev).lastPacketTimeMs = e.lastPacketTimeMs ∧
      (e.stage ≠ none → (e.step ev).stage = e.stage) := by
  cases ev with
  | stream clock => exact absurd rfl (h clock)
  | pushAudio buffer =>
    simp only [step, pushAudio]
    split_ifs <;> exact ⟨rfl, fun _ => rfl⟩
  | setSettings settings =>
    simp only [step, setSettings]
    split_ifs <;> exact ⟨rfl, fun _ => rfl⟩
  | start bound =>
    simp only [step, start]
    split_ifs with hno
    · exact ⟨rfl, fun _ => rfl⟩
    · refine ⟨rfl, fun hstage => ?_⟩
      simp [Option.isSome_iff_ne_none, hstage] at hno
  | stop =>
    simp only [step, stop]
    split_ifs <;> exact ⟨rfl, fun _ => rfl⟩
  | _ => exact ⟨rfl, fun _ => rfl⟩

end Ppm.Engine.StreamEngine

namespace Ppm.Plugin
open Engine Wire WrappingClock

def SenderEvent.ofThread : SenderEvent → Bool
  | .engine (.stream _) => true
  | _ => false

def SenderEvent.Known : SenderEvent → Prop
  | .restore state => state.tag = stateTag → state.settings.format.Known
  | .engine (.setSettings settings) => settings.format.Known
  | _ => True

def SenderEvent.reading (clock : UInt32) : SenderEvent → SenderEvent
  | .engine (.stream _) => .engine (.stream clock)
  | event => event

structure Timed where
  elapsed : ℕ
  event : SenderEvent

/-- A packet with the time whose reading was stored when its iteration looked at the counter, the
time of that look, and whether the ring held less than the packet then. -/
structure Beat where
  emission : Emission
  stored : ℕ
  now : ℕ
  starved : Bool

structure Pacer where
  sender : Sender
  time : ℕ := 0
  stored : ℕ := 0
  now : ℕ := 0
  starved : Bool := false
  beats : List Beat := []

/-- A packet without audio comes in time, and is silent in every byte. -/
structure Beat.Quiet (b : Beat) : Prop where
  starved : b.starved = true
  paced : b.stored + silenceKeepaliveMs.toNat ≤ b.now
  silent : ∀ x ∈ b.emission.bytes.drop headerBytes, x = 0
  flagged : b.emission.packet.info.flags &&& Flags.silence = Flags.silence

namespace Pacer

def engine (p : Pacer) : StreamEngine FloatSample := p.sender.processor.engine

def step (start : UInt32) (p : Pacer) (t : Timed) : Pacer :=
  let sender := p.sender.step (t.event.reading (after start t.elapsed))
  let sent := (sender.log.drop p.sender.log.length).map fun emission =>
    { emission, stored := p.stored, now := p.now, starved := p.starved }
  let next := { p with sender, time := t.elapsed, beats := p.beats ++ sent }
  if t.event.ofThread then
    match p.engine.stage with
    | some .enter => { next with stored := t.elapsed }
    | some .checkRing => { next with now := t.elapsed, starved := p.engine.lacking }
    | some .sendPacket => { next with stored := p.now }
    | _ => next
  else next

def run (start : UInt32) (p : Pacer) (ts : List Timed) : Pacer := Runs.run (step start) p ts

/-- Time does not go back, less than a turn of the counter passes before the next packet, and
formats are valid. -/
structure Advances (p : Pacer) (t : Timed) : Prop where
  later : p.time ≤ t.elapsed
  turn : t.event.ofThread = true → p.engine.stage = some .checkRing →
    t.elapsed < p.stored + 2 ^ 32
  known : t.event.Known

instance (event : SenderEvent) : Decidable event.Known :=
  match event with
  | .restore state =>
    inferInstanceAs (Decidable (state.tag = stateTag → state.settings.format.Known))
  | .engine (.setSettings settings) => inferInstanceAs (Decidable settings.format.Known)
  | .engine (.stream _) | .engine (.pushAudio _) | .engine (.prepare ..) | .engine .release
  | .engine (.setHostPlaying _) | .engine (.start _) | .engine .stop => .isTrue trivial

instance (p : Pacer) (t : Timed) : Decidable (p.Advances t) :=
  decidable_of_iff (p.time ≤ t.elapsed ∧ (t.event.ofThread = true →
      p.engine.stage = some .checkRing → t.elapsed < p.stored + 2 ^ 32) ∧ t.event.Known)
    ⟨fun ⟨h, h', h''⟩ => ⟨h, h', h''⟩, fun ⟨h, h', h''⟩ => ⟨h, h', h''⟩⟩

end Pacer

theorem zero_sampleBytes {format : Format} (h : format.Known) :
    ∀ x ∈ sampleBytes format 0, x = 0 := by
  rcases h with rfl | rfl | rfl
  · decide +kernel
  · decide +kernel
  · decide +kernel

theorem silence_or {x : UInt8} (h : x &&& Flags.silence = Flags.silence) (y : UInt8) :
    (x ||| y) &&& Flags.silence = Flags.silence := by
  apply UInt8.toBitVec_inj.mp
  have hbits := congrArg UInt8.toBitVec h
  rw [UInt8.toBitVec_and] at hbits ⊢
  rw [UInt8.toBitVec_or, BitVec.and_or_distrib_right, hbits]
  ext i hi
  rw [BitVec.getElem_or, BitVec.getElem_and]
  exact Bool.or_eq_left_iff_imp.mpr fun hboth => (Bool.and_eq_true_iff.mp hboth).2

namespace Pacer

structure Waiting (p : Pacer) : Prop where
  starved : p.starved = true
  paced : p.stored + silenceKeepaliveMs.toNat ≤ p.now
  zeros : ∀ i < p.engine.iteration.numSamples, p.engine.scratch.getD i 0 = 0
  flagged : p.engine.iteration.info.flags &&& Flags.silence = Flags.silence

structure Looked (start : UInt32) (p : Pacer) : Prop where
  after_stored : p.stored ≤ p.now
  before_time : p.now ≤ p.time
  reading : p.engine.iteration.now = after start p.now

structure Sound (start : UInt32) (p : Pacer) : Prop where
  known : p.engine.settings.format.Known
  active : p.engine.ActiveMeets fun settings => settings.format.Known
  declared : p.engine.Declared
  past : p.stored ≤ p.time
  clock : ∀ s ∈ p.engine.stage, s ≠ .enter → p.engine.lastPacketTimeMs = after start p.stored
  looked : p.engine.stage = some .readRing ∨ p.engine.stage = some .sendPacket → Looked start p
  waiting : p.engine.stage = some .sendPacket → p.sender.audio = false → Waiting p
  quiet : ∀ b ∈ p.beats, b.emission.audio = false → b.Quiet
  sent : ∀ b ∈ p.beats, b.now ≤ p.stored
  spaced : p.beats.Pairwise fun b b' =>
    b'.emission.audio = false → b.now + silenceKeepaliveMs.toNat ≤ b'.now

variable {start : UInt32} {p q : Pacer} {t : Timed}

theorem sound_of (start : UInt32) {s : Sender} (hidle : s.processor.engine.stage = none)
    (hknown : s.processor.engine.settings.format.Known) : Sound start { sender := s } where
  known := hknown
  active := by simp [StreamEngine.ActiveMeets, engine, hidle]
  declared := by simp [StreamEngine.Declared, engine, hidle]
  past := Nat.le_refl 0
  clock := by simp [engine, hidle]
  looked := by simp [engine, hidle]
  waiting := by simp [engine, hidle]
  quiet := by simp
  sent := by simp
  spaced := List.Pairwise.nil

theorem Sound.other (h : Sound start p) {ev : EngineEvent FloatSample}
    (hev : ∀ clock, ev ≠ .stream clock) (hengine : q.engine = p.engine.step ev)
    (hknown : q.engine.settings.format.Known) (haudio : q.sender.audio = p.sender.audio)
    (htime : p.time ≤ q.time) (hstored : q.stored = p.stored) (hnow : q.now = p.now)
    (hstarved : q.starved = p.starved) (hbeats : q.beats = p.beats) : Sound start q := by
  obtain ⟨hiteration, hscratch, -, hstage⟩ := p.engine.step_iteration hev
  obtain ⟨hlast, -⟩ := p.engine.step_running hev
  rw [← hengine] at hiteration hscratch hstage hlast
  have hbefore : ∀ s : Stage, s ≠ .enter → q.engine.stage = some s → p.engine.stage = some s :=
    fun s hs hq => (hstage s hq).resolve_right hs
  refine ⟨hknown, StreamEngine.activeMeets_of h.active hiteration hstage, ?_, ?_, ?_, ?_, ?_, ?_,
    ?_, hbeats ▸ h.spaced⟩
  · intro s hs hdescribed
    rw [hiteration]
    refine h.declared s (hbefore s ?_ hs) hdescribed
    rintro rfl
    exact absurd hdescribed (by decide)
  · rw [hstored]
    exact h.past.trans htime
  · intro s hs hne
    rw [hlast, hstored]
    exact h.clock s (hbefore s hne hs) hne
  · intro hq
    have hp : p.engine.stage = some .readRing ∨ p.engine.stage = some .sendPacket :=
      hq.imp (hbefore _ (by decide)) (hbefore _ (by decide))
    obtain ⟨hafter, hbefore', hreading⟩ := h.looked hp
    exact ⟨by rwa [hstored, hnow], by rw [hnow]; exact hbefore'.trans htime,
      by rwa [hiteration, hnow]⟩
  · intro hq haudio'
    obtain ⟨hs, hpaced, hzeros, hflag⟩ :=
      h.waiting (hbefore _ (by decide) hq) (haudio.symm.trans haudio')
    refine ⟨by rwa [hstarved], by rwa [hstored, hnow], ?_, by rwa [hiteration]⟩
    rwa [hiteration, hscratch]
  · rw [hbeats]
    exact h.quiet
  · rw [hbeats, hstored]
    exact h.sent

theorem Sound.streamStep (h : Sound start p) (clock : UInt32) :
    (p.engine.streamStep clock).settings.format.Known ∧
      (p.engine.streamStep clock).ActiveMeets (fun settings => settings.format.Known) ∧
      (p.engine.streamStep clock).Declared := by
  refine ⟨?_, StreamEngine.activeMeets_streamStep h.known h.active clock,
    StreamEngine.declared_streamStep h.declared clock⟩
  rw [(p.engine.streamStep_active clock).1]
  exact h.known

theorem Sound.thread (h : Sound start p) {clock : UInt32}
    (hengine : q.engine = p.engine.streamStep clock) (hpast : q.stored ≤ q.time)
    (hclock : ∀ s ∈ q.engine.stage, s ≠ .enter → q.engine.lastPacketTimeMs = after start q.stored)
    (hlooked : q.engine.stage = some .readRing ∨ q.engine.stage = some .sendPacket →
      Looked start q)
    (hwaiting : q.engine.stage = some .sendPacket → q.sender.audio = false → Waiting q)
    (hstored : p.stored ≤ q.stored) (hbeats : q.beats = p.beats) : Sound start q := by
  obtain ⟨hknown, hactive, hdeclared⟩ := h.streamStep clock
  refine ⟨hengine ▸ hknown, hengine ▸ hactive, hengine ▸ hdeclared, hpast, hclock, hlooked,
    hwaiting, hbeats ▸ h.quiet, ?_, hbeats ▸ h.spaced⟩
  rw [hbeats]
  exact fun b hb => (h.sent b hb).trans hstored

theorem waiting_keepalive (hlacking : p.engine.lacking = true) {elapsed : ℕ} {clock : UInt32}
    (hdue : p.stored + silenceKeepaliveMs.toNat ≤ elapsed)
    (hengine : q.engine = p.engine.keepalive clock) (hstored : q.stored = p.stored)
    (hnow : q.now = elapsed) (hstarved : q.starved = p.engine.lacking) : Waiting q := by
  refine ⟨hstarved.trans hlacking, by rwa [hstored, hnow], ?_, ?_⟩
  · rw [hengine]
    intro i hi
    have hlt : i < p.engine.iteration.numSamples := hi
    simp [StreamEngine.keepalive, List.getD_eq_getElem?_getD, List.getElem?_append, hlt]
  · rw [hengine]
    show (p.engine.iteration.info.flags ||| Flags.silence) &&& Flags.silence = Flags.silence
    rw [UInt8.or_comm]
    exact silence_or rfl _

theorem due_iff (h : Sound start p) (hstage : p.engine.stage = some .checkRing) {elapsed : ℕ}
    (hlater : p.time ≤ elapsed) (hturn : elapsed < p.stored + 2 ^ 32) :
    ¬ after start elapsed - p.engine.lastPacketTimeMs < silenceKeepaliveMs ↔
      p.stored + silenceKeepaliveMs.toNat ≤ elapsed := by
  have hpast := h.past
  rw [h.clock _ hstage (by decide), UInt32.lt_iff_toNat_lt,
    toNat_after_sub_after start (hpast.trans hlater) hturn]
  omega

theorem sound_checkRing (h : Sound start p) (hstage : p.engine.stage = some .checkRing)
    {elapsed : ℕ} (hlater : p.time ≤ elapsed) (hturn : elapsed < p.stored + 2 ^ 32)
    (hengine : q.engine = p.engine.streamStep (after start elapsed)) (htime : q.time = elapsed)
    (hstored : q.stored = p.stored) (hnow : q.now = elapsed)
    (hstarved : q.starved = p.engine.lacking) (hbeats : q.beats = p.beats) : Sound start q := by
  have hcheck : q.engine = p.engine.checkRing (after start elapsed) := by
    rw [hengine, StreamEngine.streamStep, hstage]
  have hpast : q.stored ≤ q.time := by
    rw [hstored, htime]
    exact h.past.trans hlater
  have hlast : q.engine.lastPacketTimeMs = after start q.stored := by
    rw [hcheck, StreamEngine.checkRing_last, hstored]
    exact h.clock _ hstage (by decide)
  have hlooked : q.engine.iteration.now = after start elapsed → Looked start q := fun hreading =>
    ⟨by rw [hnow, ← htime]; exact hpast, by rw [hnow, htime], by rw [hnow, hreading]⟩
  refine h.thread hengine hpast (fun _ _ _ => hlast) ?_ ?_ hstored.ge hbeats
  · rcases p.engine.checkRing_cases (after start elapsed) with ⟨-, hnext, hreading⟩ |
      ⟨-, -, hnext⟩ | ⟨-, -, hkeep⟩
    · exact fun _ => hlooked (by rw [hcheck, hreading])
    · rw [hcheck, hnext]
      simp
    · exact fun _ => hlooked (by rw [hcheck, hkeep]; rfl)
  · intro hsend _
    rcases p.engine.checkRing_cases (after start elapsed) with ⟨-, hnext, -⟩ |
      ⟨-, -, hnext⟩ | ⟨hlacking, hdue, hkeep⟩
    · rw [hcheck, hnext] at hsend
      cases hsend
    · rw [hcheck, hnext] at hsend
      cases hsend
    · exact waiting_keepalive hlacking ((due_iff h hstage hlater hturn).mp hdue)
        (hcheck.trans hkeep) hstored hnow hstarved

theorem zero_payload {info : PacketInfo} (h : info.format.Known) {f : ℕ → FloatSample}
    (hzero : ∀ i < info.frames.toNat * info.channels.toNat, f i = 0) :
    ∀ x ∈ payload info f, x = 0 := by
  intro x hx
  obtain ⟨i, hi, hin⟩ := List.mem_flatMap.mp hx
  rw [hzero i (List.mem_range.mp hi)] at hin
  exact zero_sampleBytes h x hin

theorem quiet_sendPacket (h : Sound start p) (hstage : p.engine.stage = some .sendPacket)
    (haudio : p.sender.audio = false) (clock : UInt32) (b : Beat)
    (hpacket : b.emission.packet = p.engine.outgoing clock)
    (hbytes : b.emission.bytes = p.sender.written clock) (hstored : b.stored = p.stored)
    (hnow : b.now = p.now) (hstarved : b.starved = p.starved) : b.Quiet := by
  obtain ⟨hs, hpaced, hzeros, hflag⟩ := h.waiting hstage haudio
  have hconfig := h.declared _ hstage rfl
  have hformat : (p.engine.packetInfo clock).format = p.engine.iteration.active.format :=
    congrArg Config.format hconfig
  have hchannels : (p.engine.packetInfo clock).channels = p.engine.iteration.channels :=
    congrArg Config.channels hconfig
  have hframes : (p.engine.packetInfo clock).frames = p.engine.iteration.frames :=
    congrArg Config.frames hconfig
  have hknown : (p.engine.packetInfo clock).format.Known := by
    rw [hformat]
    exact h.active _ hstage rfl
  refine ⟨hstarved.trans hs, by rwa [hstored, hnow], ?_, ?_⟩
  · rw [hbytes, Sender.written_eq hknown, List.drop_left' (length_fields _)]
    refine zero_payload hknown fun i hi => hzeros i ?_
    rw [hframes, hchannels] at hi
    exact hi
  · rw [hpacket]
    show (p.engine.packetInfo clock).flags &&& Flags.silence = Flags.silence
    simp only [StreamEngine.packetInfo]
    split_ifs
    · exact silence_or hflag _
    · exact silence_or (silence_or hflag _) _
    · exact hflag
    · exact silence_or hflag _

theorem sound_sendPacket (h : Sound start p) (hstage : p.engine.stage = some .sendPacket)
    (clock : UInt32) (b : Beat) (hengine : q.engine = p.engine.streamStep clock)
    (hpacket : b.emission.packet = p.engine.outgoing clock)
    (hbytes : b.emission.bytes = p.sender.written clock)
    (haudio : b.emission.audio = p.sender.audio) (hbstored : b.stored = p.stored)
    (hbnow : b.now = p.now) (hstarved : b.starved = p.starved) (htime : p.time ≤ q.time)
    (hstored : q.stored = p.now) (hbeats : q.beats = p.beats ++ [b]) : Sound start q := by
  obtain ⟨hafter, hbefore, hreading⟩ := h.looked (.inr hstage)
  have hsend : q.engine = p.engine.sendPacket clock := by
    rw [hengine, StreamEngine.streamStep, hstage]
  have hquiet : b.emission.audio = false → b.Quiet := fun hsilent =>
    quiet_sendPacket h hstage (haudio.symm.trans hsilent) clock b hpacket hbytes hbstored hbnow
      hstarved
  have hnext : q.engine.stage = some .getSettings := by
    rw [hsend]
    rfl
  obtain ⟨hknown, hactive, hdeclared⟩ := h.streamStep clock
  refine ⟨hengine ▸ hknown, hengine ▸ hactive, hengine ▸ hdeclared, ?_, ?_, ?_, ?_, ?_, ?_, ?_⟩
  · exact hstored.le.trans (hbefore.trans htime)
  · intro s _ _
    rw [hsend, hstored]
    exact hreading
  · simp [hnext]
  · simp [hnext]
  · rw [hbeats]
    intro b' hb'
    rcases List.mem_append.mp hb' with hold | hnew
    · exact h.quiet b' hold
    · exact (List.mem_singleton.mp hnew) ▸ hquiet
  · rw [hbeats, hstored]
    intro b' hb'
    rcases List.mem_append.mp hb' with hold | hnew
    · exact (h.sent b' hold).trans hafter
    · rw [List.mem_singleton.mp hnew, hbnow]
  · rw [hbeats]
    refine List.pairwise_append.mpr ⟨h.spaced, List.pairwise_singleton _ _, ?_⟩
    intro b' hb' c hc hsilent
    obtain rfl := List.mem_singleton.mp hc
    have hpaced := (hquiet hsilent).paced
    have hsent := h.sent b' hb'
    omega

section Steps
variable (start : UInt32) (p : Pacer) (elapsed : ℕ) (clock : UInt32)

theorem step_sender : (step start p ⟨elapsed, .engine (.stream clock)⟩).sender =
    p.sender.stream (after start elapsed) := by
  simp only [step, SenderEvent.ofThread, if_true]
  split <;> rfl

theorem step_time (t : Timed) : (step start p t).time = t.elapsed := by
  simp only [step]
  split_ifs
  · split <;> rfl
  · rfl

theorem step_engine : (step start p ⟨elapsed, .engine (.stream clock)⟩).engine =
    p.engine.streamStep (after start elapsed) := by
  rw [engine, step_sender]
  exact Sender.engine_stream p.sender _

theorem step_beats (h : p.engine.stage ≠ some .sendPacket) :
    (step start p ⟨elapsed, .engine (.stream clock)⟩).beats = p.beats := by
  have hlog := Sender.log_stream_of_ne (s := p.sender) (after start elapsed) h
  simp only [step, SenderEvent.ofThread, if_true, SenderEvent.reading, Sender.step, hlog,
    List.drop_length, List.map_nil, List.append_nil]
  split <;> rfl

theorem step_times (henter : p.engine.stage ≠ some .enter)
    (hcheck : p.engine.stage ≠ some .checkRing) (hsend : p.engine.stage ≠ some .sendPacket) :
    (step start p ⟨elapsed, .engine (.stream clock)⟩).stored = p.stored ∧
      (step start p ⟨elapsed, .engine (.stream clock)⟩).now = p.now := by
  simp only [step, SenderEvent.ofThread, if_true]
  exact ⟨trivial, trivial⟩

def beat (p : Pacer) (clock : UInt32) : Beat where
  emission := ⟨p.engine.outgoing clock, p.engine.iteration.active, p.sender.audio,
    p.sender.samples, p.sender.taken, p.sender.written clock⟩
  stored := p.stored
  now := p.now
  starved := p.starved

theorem step_beats_send (h : p.engine.stage = some .sendPacket) :
    (step start p ⟨elapsed, .engine (.stream clock)⟩).beats =
      p.beats ++ [p.beat (after start elapsed)] := by
  have hstage : p.sender.processor.engine.stage = some .sendPacket := h
  simp only [step, SenderEvent.ofThread, if_true, SenderEvent.reading, Sender.step, h,
    Sender.stream, hstage, List.drop_left]
  rfl

end Steps

theorem streamStep_last (e : StreamEngine FloatSample) (clock : UInt32)
    (henter : e.stage ≠ some .enter) (hsend : e.stage ≠ some .sendPacket) :
    (e.streamStep clock).lastPacketTimeMs = e.lastPacketTimeMs := by
  unfold StreamEngine.streamStep
  rcases hstage : e.stage with _ | s
  · rfl
  cases s with
  | enter => exact absurd hstage henter
  | sendPacket => exact absurd hstage hsend
  | getSettings =>
    dsimp only
    split_ifs <;> rfl
  | checkRing => exact e.checkRing_last clock
  | _ => rfl

theorem sound_quiet (h : Sound start p) (elapsed : ℕ) (clock : UInt32) (hlater : p.time ≤ elapsed)
    (henter : p.engine.stage ≠ some .enter) (hcheck : p.engine.stage ≠ some .checkRing)
    (hsend : p.engine.stage ≠ some .sendPacket) :
    Sound start (step start p ⟨elapsed, .engine (.stream clock)⟩) := by
  have hengine := step_engine start p elapsed clock
  have htime := step_time start p ⟨elapsed, .engine (.stream clock)⟩
  have hbeats := step_beats start p elapsed clock hsend
  have hsender := step_sender start p elapsed clock
  obtain ⟨hstored, hnow⟩ := step_times start p elapsed clock henter hcheck hsend
  generalize step start p ⟨elapsed, .engine (.stream clock)⟩ = q at *
  have hread : q.engine.stage = some .readRing ∨ q.engine.stage = some .sendPacket →
      p.engine.stage = some .readRing ∧ q.engine.iteration.now = p.engine.iteration.now := by
    rw [hengine]
    unfold StreamEngine.streamStep
    rcases hstage : p.engine.stage with _ | s
    · simp [hstage]
    cases s with
    | checkRing => exact absurd hstage hcheck
    | readRing => exact fun _ => ⟨rfl, rfl⟩
    | getSettings =>
      dsimp only
      split_ifs <;> simp
    | _ => simp [StreamEngine.resizeScratch, StreamEngine.sendPacket]
  refine h.thread hengine ?_ ?_ ?_ ?_ hstored.ge hbeats
  · rw [hstored, htime]
    exact h.past.trans hlater
  · intro s hs _
    have hrunning : ∃ s', p.engine.stage = some s' := by
      rcases hstage : p.engine.stage with _ | s'
      · rw [hengine, StreamEngine.streamStep, hstage] at hs
        exact absurd (hstage.symm.trans hs) (by simp)
      · exact ⟨s', rfl⟩
    obtain ⟨s', hs'⟩ := hrunning
    rw [hengine, streamStep_last _ _ henter hsend, hstored]
    refine h.clock s' hs' ?_
    rintro rfl
    exact henter hs'
  · intro hq
    obtain ⟨hp, hreading⟩ := hread hq
    obtain ⟨hafter, hbefore, hreading'⟩ := h.looked (.inl hp)
    exact ⟨by rwa [hstored, hnow], by rw [hnow, htime]; exact hbefore.trans hlater,
      by rw [hreading, hnow, hreading']⟩
  · intro hq haudio
    obtain ⟨hp, -⟩ := hread (.inr hq)
    have hstage : p.sender.processor.engine.stage = some .readRing := hp
    rw [hsender] at haudio
    simp only [Sender.stream, hstage] at haudio
    cases haudio

theorem sound_enter (h : Sound start p) (elapsed : ℕ) (clock : UInt32) (hlater : p.time ≤ elapsed)
    (henter : p.engine.stage = some .enter) :
    Sound start (step start p ⟨elapsed, .engine (.stream clock)⟩) := by
  have hengine := step_engine start p elapsed clock
  have htime := step_time start p ⟨elapsed, .engine (.stream clock)⟩
  have hbeats := step_beats start p elapsed clock (by simp [henter])
  have hstored : (step start p ⟨elapsed, .engine (.stream clock)⟩).stored = elapsed := by
    simp [step, SenderEvent.ofThread, henter]
  generalize step start p ⟨elapsed, .engine (.stream clock)⟩ = q at *
  have hnext : q.engine.stage = some .getSettings ∧
      q.engine.lastPacketTimeMs = after start elapsed := by
    rw [hengine, StreamEngine.streamStep, henter]
    exact ⟨rfl, rfl⟩
  refine h.thread hengine (by rw [hstored, htime]) ?_ ?_ ?_ ?_ hbeats
  · intro s _ _
    rw [hnext.2, hstored]
  · simp [hnext.1]
  · simp [hnext.1]
  · rw [hstored]
    exact h.past.trans hlater

theorem step_other (start : UInt32) (p : Pacer) (hother : t.event.ofThread = false) :
    (step start p t).stored = p.stored ∧ (step start p t).now = p.now ∧
      (step start p t).starved = p.starved ∧ (step start p t).beats = p.beats ∧
      (step start p t).sender.audio = p.sender.audio ∧
      ∃ ev, (∀ clock, ev ≠ .stream clock) ∧ (step start p t).engine = p.engine.step ev := by
  obtain ⟨elapsed, event⟩ := t
  simp only [step]
  rw [if_neg (by simpa using hother)]
  cases event with
  | restore state =>
    simp only [SenderEvent.reading, Sender.step, List.drop_length, List.map_nil, List.append_nil]
    refine ⟨trivial, trivial, trivial, trivial, trivial, ?_⟩
    simp only [engine, Processor.restore]
    split_ifs
    · -- a foreign state is not restored
      exact ⟨.setHostPlaying p.engine.hostPlaying, by simp, rfl⟩
    · exact ⟨.setSettings state.settings, by simp, rfl⟩
  | engine ev =>
    have hev : ∀ clock, ev ≠ .stream clock := by
      rintro clock rfl
      cases hother
    have hreading : (SenderEvent.engine ev).reading (after start elapsed) = .engine ev := by
      cases ev with
      | stream clock => exact absurd rfl (hev clock)
      | _ => rfl
    rw [hreading, Sender.step_other p.sender hev, List.drop_length, List.map_nil, List.append_nil]
    exact ⟨rfl, rfl, rfl, rfl, rfl, ev, hev, rfl⟩

theorem known_step_other (start : UInt32) (h : p.engine.settings.format.Known)
    (hadv : p.Advances t) (hother : t.event.ofThread = false) :
    (step start p t).engine.settings.format.Known := by
  obtain ⟨elapsed, event⟩ := t
  simp only [step]
  rw [if_neg (by simpa using hother)]
  cases event with
  | restore state =>
    simp only [engine, SenderEvent.reading, Sender.step, Processor.restore]
    split_ifs with htag
    · exact h
    · exact (Processor.setSettings_settings _ _).symm ▸ hadv.known (not_not.mp htag)
  | engine ev =>
    by_cases hset : ∃ settings, ev = .setSettings settings
    · obtain ⟨settings, rfl⟩ := hset
      show (p.engine.setSettings settings).settings.format.Known
      rw [Processor.setSettings_settings]
      exact hadv.known
    · have hev : ∀ clock, ev ≠ .stream clock := by
        rintro clock rfl
        cases hother
      have hreading : (SenderEvent.engine ev).reading (after start elapsed) = .engine ev := by
        cases ev with
        | stream clock => exact absurd rfl (hev clock)
        | _ => rfl
      rw [hreading, Sender.step_other p.sender hev]
      show (p.engine.step ev).settings.format.Known
      rw [Sender.step_settings _ ev (not_exists.mp hset)]
      exact h

theorem sound_step (h : Sound start p) (hadv : p.Advances t) : Sound start (step start p t) := by
  have hlater := hadv.later
  cases hother : t.event.ofThread with
  | false =>
    obtain ⟨hstored, hnow, hstarved, hbeats, haudio, ev, hev, hengine⟩ := step_other start p hother
    exact h.other hev hengine (known_step_other start h.known hadv hother) haudio
      (by rwa [step_time]) hstored hnow hstarved hbeats
  | true =>
    obtain ⟨elapsed, event⟩ := t
    obtain ⟨clock, rfl⟩ : ∃ clock, event = .engine (.stream clock) := by
      rcases event with state | ev
      · cases hother
      · cases ev with
        | stream clock => exact ⟨clock, rfl⟩
        | _ => cases hother
    have hengine := step_engine start p elapsed clock
    have htime := step_time start p ⟨elapsed, .engine (.stream clock)⟩
    by_cases henter : p.engine.stage = some .enter
    · exact sound_enter h elapsed clock hlater henter
    by_cases hcheck : p.engine.stage = some .checkRing
    · refine sound_checkRing h hcheck hlater (hadv.turn rfl hcheck) hengine htime ?_ ?_ ?_
        (step_beats start p elapsed clock (by simp [hcheck]))
      · simp [step, SenderEvent.ofThread, hcheck]
      · simp [step, SenderEvent.ofThread, hcheck]
      · simp [step, SenderEvent.ofThread, hcheck]
    by_cases hsend : p.engine.stage = some .sendPacket
    · refine sound_sendPacket h hsend (after start elapsed) (p.beat (after start elapsed)) hengine
        rfl rfl rfl rfl rfl rfl (by rwa [htime]) ?_ (step_beats_send start p elapsed clock hsend)
      simp [step, SenderEvent.ofThread, hsend]
    exact sound_quiet h elapsed clock hlater henter hcheck hsend

theorem sound_run {s : Sender} (hidle : s.processor.engine.stage = none)
    (hknown : s.processor.engine.settings.format.Known) {ts : List Timed}
    (h : Runs.Along (step start) Advances { sender := s } ts) :
    Sound start (run start { sender := s } ts) :=
  Runs.invariant_along (I := Sound start) (fun _ _ hp hadv => sound_step hp hadv)
    (sound_of start hidle hknown) h

theorem others_run (start : UInt32) (others : List Timed)
    (hothers : ∀ t ∈ others, t.event.ofThread = false)
    (hstage : p.engine.stage = some .sendPacket) :
    (run start p others).engine.stage = some .sendPacket ∧ (run start p others).beats = p.beats ∧
      (run start p others).now = p.now ∧ (run start p others).sender.audio = p.sender.audio := by
  induction others generalizing p with
  | nil => exact ⟨hstage, rfl, rfl, rfl⟩
  | cons t others ih =>
    obtain ⟨-, hnow, -, hbeats, haudio, ev, hev, hengine⟩ :=
      step_other start p (hothers t List.mem_cons_self)
    have hnext : (step start p t).engine.stage = some .sendPacket := by
      rw [hengine, (p.engine.step_running hev).2 (by simp [hstage])]
      exact hstage
    have hrest := ih (fun t' ht' => hothers t' (List.mem_cons_of_mem t ht')) hnext
    rw [hbeats, hnow, haudio] at hrest
    exact hrest

theorem keepalive_due (h : Sound start p) (hstage : p.engine.stage = some .checkRing)
    (hlacking : p.engine.lacking = true) {elapsed : ℕ} {clock : UInt32}
    (hadv : p.Advances ⟨elapsed, .engine (.stream clock)⟩) :
    let q := step start p ⟨elapsed, .engine (.stream clock)⟩
    (elapsed < p.stored + silenceKeepaliveMs.toNat → q.engine.stage = some .getSettings) ∧
      (p.stored + silenceKeepaliveMs.toNat ≤ elapsed → q.engine.stage = some .sendPacket ∧
        q.now = elapsed ∧ q.beats = p.beats ∧ q.sender.audio = false) := by
  intro q
  have hdue := due_iff h hstage hadv.later (hadv.turn rfl hstage)
  have hstage' : p.sender.processor.engine.stage = some .checkRing := hstage
  have hcheck : q.engine = p.engine.checkRing (after start elapsed) := by
    rw [step_engine, StreamEngine.streamStep, hstage]
  rw [hcheck]
  rcases p.engine.checkRing_cases (after start elapsed) with ⟨hno, -, -⟩ | ⟨-, hearly, hnext⟩ |
    ⟨-, hlate, hkeep⟩
  · rw [hlacking] at hno
    cases hno
  · exact ⟨fun _ => hnext, fun hpast => absurd hearly (hdue.mpr hpast)⟩
  · refine ⟨fun hearly => absurd (hdue.mp hlate) (Nat.not_le.mpr hearly), fun _ => ⟨?_, ?_, ?_, ?_⟩⟩
    · rw [hkeep]
      rfl
    · simp [q, step, SenderEvent.ofThread, hstage]
    · exact step_beats start p elapsed clock (by simp [hstage])
    · rw [step_sender]
      simp [Sender.stream, hstage']

/-- A packet without audio is sent only when the ring held less than a packet and 250 ms have
passed since the time stored with the packet before, in the first iteration that finds both; it
follows every earlier packet by 250 ms, is zero in every byte and carries the silence flag. -/
theorem keepalives_paced (start : UInt32) {s : Sender} (hidle : s.processor.engine.stage = none)
    (hknown : s.processor.engine.settings.format.Known) {ts : List Timed}
    (h : Runs.Along (step start) Advances { sender := s } ts) :
    let p := run start { sender := s } ts
    (∀ b ∈ p.beats, b.emission.audio = false → b.Quiet) ∧
      (p.beats.Pairwise fun b b' => b'.emission.audio = false → b.now + 250 ≤ b'.now) ∧
      ∀ elapsed clock, p.Advances ⟨elapsed, .engine (.stream clock)⟩ →
        p.engine.stage = some .checkRing → p.engine.lacking = true →
        (elapsed < p.stored + 250 →
          (step start p ⟨elapsed, .engine (.stream clock)⟩).engine.stage = some .getSettings) ∧
        (p.stored + 250 ≤ elapsed → ∀ others, (∀ t ∈ others, t.event.ofThread = false) →
          ∀ later clock', ∃ b : Beat, b.emission.audio = false ∧ b.now = elapsed ∧
            (run start p (⟨elapsed, .engine (.stream clock)⟩ :: others ++
              [⟨later, .engine (.stream clock')⟩])).beats = p.beats ++ [b]) := by
  intro p
  have hsound : Sound start p := sound_run hidle hknown h
  refine ⟨hsound.quiet, hsound.spaced, fun elapsed clock hadv hstage hlacking => ?_⟩
  obtain ⟨hearly, hlate⟩ := keepalive_due hsound hstage hlacking hadv
  refine ⟨hearly, fun hpast others hothers later clock' => ?_⟩
  obtain ⟨hsend, hnow, hbeats, haudio⟩ := hlate hpast
  obtain ⟨hsend', hbeats', hnow', haudio'⟩ := others_run start others hothers hsend
  rw [List.cons_append, run, Runs.run_cons, Runs.run_append]
  generalize step start p ⟨elapsed, .engine (.stream clock)⟩ = q at *
  have hlast := step_beats_send start (run start q others) later clock' hsend'
  rw [hbeats', hbeats] at hlast
  exact ⟨_, haudio'.trans haudio, hnow'.trans hnow, hlast⟩

def starving : List Timed :=
  -- a started engine whose counter wraps 100 ms after the start, and that gets no audio
  [⟨0, .engine (.prepare 48000 128 1)⟩, ⟨0, .engine (.setSettings { framesPerPacket := 2 })⟩,
    ⟨0, .engine (.start true)⟩] ++
    List.replicate 8 ⟨10, .engine (.stream 0)⟩ ++ List.replicate 7 ⟨260, .engine (.stream 0)⟩ ++
    List.replicate 16 ⟨600, .engine (.stream 0)⟩

theorem keepalives_across_wrap :
    let p := run 4294967196 { sender := {} } starving
    p.beats.map (fun b => (b.stored, b.now, b.emission.audio)) =
        [(10, 260, false), (260, 600, false)] ∧
      ∀ b ∈ p.beats, b.emission.audio = false → b.Quiet :=
  ⟨by decide +kernel,
    (keepalives_paced 4294967196 (s := {}) rfl (.inl rfl) (by decide +kernel)).1⟩

end Pacer
end Ppm.Plugin

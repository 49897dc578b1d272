import PhonePostMix.Engine.ChannelCount
import PhonePostMix.Library.Buffer

/-! What the streaming thread may rely on while the ring is not prepared again, and the frames
it moves. -/

namespace Ppm.Engine
open Wire
variable {α : Type}

def AudioBuffer.frames (source : AudioBuffer α) (channels : ℕ) : List (List α) :=
  (List.range source.numSamples).map (source.frame channels)

def Packet.frames (p : Packet α) : List (List α) :=
  -- the frames of the ring that a packet carries; a keepalive carries none
  match p.copied with
  | none => []
  | some _ => (List.range p.info.frames.toNat).map fun i =>
      (p.samples.drop (i * p.info.channels.toNat)).take p.info.channels.toNat

namespace AudioRingBuffer

def taken (r : AudioRingBuffer α) (source : AudioBuffer α) : List (List α) :=
  if (r.write source).1 then source.frames r.channels else []

theorem write_taken (r : AudioRingBuffer α) (source : AudioBuffer α) :
    (r.write source).2.frames = r.frames ++ r.taken source := by
  unfold taken
  by_cases hn : source.numSamples = 0
  · rw [(write_refused r source (.inl hn)).2.2]
    simp [AudioBuffer.frames, hn]
  by_cases hfit : r.channels = 0 ∨ r.fifo.getFreeSpace < source.numSamples
  · rw [write_discarded source hn hfit]
    exact (List.append_nil _).symm
  · obtain ⟨hprepared, hroom⟩ := not_or.mp hfit
    obtain ⟨haccepted, -, -, hframes⟩ := write_fits source hn hprepared (Nat.le_of_not_lt hroom)
    rw [if_pos haccepted]
    exact hframes

end AudioRingBuffer

namespace StreamEngine

def held (e : StreamEngine α) : List (List α) :=
  -- the frames copied out of the ring but not sent yet
  if e.stage = some .sendPacket then
    Packet.frames
      ⟨e.iteration.info,
        e.scratch.take (e.iteration.info.frames.toNat * e.iteration.info.channels.toNat),
        e.iteration.copied⟩
  else []

/-- What the thread may rely on while the ring is not prepared again. -/
structure Steady (e : StreamEngine α) : Prop where
  current : e.currentChannels = 1 ∨ e.currentChannels = 2
  ring : e.ring.channels = e.currentChannels
  sampled : ∀ s ∈ e.stage, s.sampled = true → e.iteration.channels.toNat = e.ring.channels
  sized : ∀ s ∈ e.stage, s.sized = true → e.iteration.numSamples ≤ e.scratch.length
  described : ∀ s ∈ e.stage, s.described = true →
    e.iteration.info.channels = e.iteration.channels ∧
      e.iteration.info.frames = e.iteration.frames
  ready : e.stage = some .readRing → e.iteration.frames.toNat ≤ e.ring.getNumReady

variable {e : StreamEngine α}

theorem held_of_ne (h : e.stage ≠ some .sendPacket) : e.held = [] := if_neg h

theorem Steady.length_held (h : Steady e) (hstage : e.stage = some .sendPacket)
    (hcopied : e.iteration.copied ≠ none) : e.held.length = e.iteration.frames.toNat := by
  obtain ⟨channels, hchannels⟩ := Option.ne_none_iff_exists'.mp hcopied
  rw [held, if_pos hstage, Packet.frames, hchannels]
  simp only [List.length_map, List.length_range]
  rw [(h.described _ hstage rfl).2]

theorem held_of_none (h : e.iteration.copied = none) : e.held = [] := by
  unfold held
  split_ifs
  · simp [Packet.frames, h]
  · rfl

theorem Steady.prepared (h : Steady e) : 0 < e.ring.channels := by
  have hring := h.ring
  have hcurrent := h.current
  omega

theorem Steady.read (h : Steady e) (hstage : e.stage = some .readRing) :
    let n := e.iteration.frames.toNat
    (e.ring.read n).1 = n ∧ (e.ring.read n).2.1 = (e.ring.frames.take n).flatten ∧
      (e.ring.read n).2.2.channels = e.ring.channels ∧
      (e.ring.read n).2.2.frames = e.ring.frames.drop n := by
  have hready : e.iteration.frames.toNat ≤ e.ring.fifo.numReady := h.ready hstage
  have hprepared : e.ring.channels ≠ 0 := h.prepared.ne'
  obtain ⟨hcount, hfloats, hchannels, -, hframes⟩ := e.ring.read_spec e.iteration.frames.toNat
  simp only [if_neg hprepared, Nat.min_eq_left hready] at hcount hfloats hframes
  exact ⟨hcount, hfloats, hchannels, hframes⟩

theorem readRing_stage (h : Steady e) (hstage : e.stage = some .readRing) :
    e.readRing.stage = some .sendPacket := by
  obtain ⟨hcount, -⟩ := h.read hstage
  simp only [readRing, hcount, Nat.lt_irrefl, if_false]

theorem steady_readRing (h : Steady e) (hstage : e.stage = some .readRing) :
    Steady e.readRing := by
  obtain ⟨-, -, hchannels, -⟩ := h.read hstage
  have hsent := readRing_stage h hstage
  refine ⟨h.current, hchannels.trans h.ring, ?_, ?_, fun _ _ _ => h.described _ hstage rfl, ?_⟩
  · intro _ _ _
    exact (h.sampled _ hstage rfl).trans hchannels.symm
  · intro _ _ _
    have hsized := h.sized _ hstage rfl
    show e.iteration.numSamples ≤ (_ ++ List.drop _ e.scratch).length
    rw [List.length_append, List.length_drop]
    omega
  · rw [hsent]
    simp

theorem held_readRing (h : Steady e) (hstage : e.stage = some .readRing) :
    e.readRing.held = e.ring.frames.take e.iteration.frames.toNat := by
  obtain ⟨hcount, hfloats, -, -⟩ := h.read hstage
  have hready : e.iteration.frames.toNat ≤ e.ring.frames.length := by
    rw [AudioRingBuffer.length_frames]
    exact h.ready hstage
  obtain ⟨hchannels, hframes⟩ := h.described _ hstage rfl
  have hsame := h.sampled _ hstage rfl
  have hfloor := AudioRingBuffer.length_read e.ring e.iteration.frames.toNat
  rw [held, if_pos (readRing_stage h hstage)]
  simp only [readRing, Packet.frames, hcount, hchannels, hframes, hsame]
  rcases Nat.eq_zero_or_pos e.iteration.frames.toNat with hzero | hpos
  · simp [hzero]
  · rw [if_neg (Nat.ne_of_gt hpos), List.take_left' (by rw [hfloor, hcount]), hfloats]
    have hwhole : ∀ f ∈ e.ring.frames.take e.iteration.frames.toNat, f.length = e.ring.channels :=
      fun f hf => AudioRingBuffer.length_of_mem_frames (List.mem_of_mem_take hf)
    have hblocks := Buffer.map_take_drop_flatten hwhole []
    rwa [List.length_take, Nat.min_eq_left hready, List.append_nil] at hblocks

theorem steady_pushAudio (h : Steady e) (buffer : AudioBuffer α) :
    Steady (e.pushAudio buffer) := by
  unfold pushAudio
  split_ifs
  · have hchannels := AudioRingBuffer.write_channels e.ring buffer
    have hframes := congrArg List.length (e.ring.write_taken buffer)
    rw [List.length_append, AudioRingBuffer.length_frames, AudioRingBuffer.length_frames] at hframes
    refine ⟨h.current, hchannels.trans h.ring, ?_, h.sized, h.described, ?_⟩
    · exact fun s hs hsampled => (h.sampled s hs hsampled).trans hchannels.symm
    · intro hstage
      have hready := h.ready hstage
      simp only [AudioRingBuffer.getNumReady] at hready ⊢
      omega
  · exact h

theorem Steady.channelsKept [Zero α] (h : Steady e) (hs : Sampling e) (ev : EngineEvent α) :
    e.ChannelsKept ev := by
  unfold ChannelsKept
  split
  · rename_i hstage
    rintro ⟨-, -, hother⟩
    rw [← hs.sampled _ hstage rfl, h.sampled _ hstage rfl] at hother
    exact hother h.ring.symm
  · trivial

variable [Zero α]

theorem streamStep_quiet (clock : UInt32) (hread : e.stage ≠ some .readRing)
    (hsend : e.stage ≠ some .sendPacket) :
    (e.streamStep clock).ring = e.ring ∧ (e.streamStep clock).sent = e.sent ∧
      (e.streamStep clock).sequence = e.sequence ∧ (e.streamStep clock).held = [] := by
  unfold streamStep
  rcases hstage : e.stage with _ | s
  · exact ⟨rfl, rfl, rfl, held_of_ne (by simp [hstage])⟩
  cases s with
  | readRing => exact absurd hstage hread
  | sendPacket => exact absurd hstage hsend
  | getSettings =>
    dsimp only
    split_ifs <;> exact ⟨rfl, rfl, rfl, held_of_ne (by simp)⟩
  | checkRing =>
    -- a keepalive goes to `sendPacket` with nothing copied
    simp only [checkRing]
    split_ifs <;> exact ⟨rfl, rfl, rfl, held_of_none rfl⟩
  | _ => exact ⟨rfl, rfl, rfl, held_of_ne (by simp [resizeScratch])⟩

theorem steady_checkRing (h : Steady e) (clock : UInt32) (hstage : e.stage = some .checkRing) :
    Steady (e.checkRing clock) := by
  have hsampled := h.sampled _ hstage rfl
  have hsized := h.sized _ hstage rfl
  have hdescribed := h.described _ hstage rfl
  unfold checkRing
  dsimp only
  split_ifs with hready hwait
  · exact ⟨h.current, h.ring, fun _ _ _ => hsampled, fun _ _ _ => hsized,
      fun _ _ _ => hdescribed, fun _ => hready.2⟩
  · exact ⟨h.current, h.ring, by simp [Stage.sampled], by simp [Stage.sized],
      by simp [Stage.described], by simp⟩
  · refine ⟨h.current, h.ring, fun _ _ _ => hsampled, fun _ _ _ => ?_, fun _ _ _ => hdescribed,
      by simp⟩
    show e.iteration.numSamples ≤ _
    rw [List.length_append, List.length_replicate]
    exact Nat.le_add_right _ _

theorem streamStep_active (e : StreamEngine α) (clock : UInt32) :
    (e.streamStep clock).settings = e.settings ∧
      (e.streamStep clock).serverRunning = e.serverRunning ∧
      ((e.streamStep clock).stage = some .readChannels →
        (e.streamStep clock).iteration.active = e.settings) ∧
      ∀ s ∈ (e.streamStep clock).stage, s.sampled = true →
        (e.stage = some .readChannels ∨ ∃ s' ∈ e.stage, s'.sampled = true) ∧
          (e.streamStep clock).iteration.active = e.iteration.active := by
  unfold streamStep
  rcases hstage : e.stage with _ | s
  · exact ⟨rfl, rfl, by simp [hstage], by simp [hstage]⟩
  cases s with
  | getSettings =>
    dsimp only
    split_ifs
    · exact ⟨rfl, rfl, by simp, by simp⟩
    · exact ⟨rfl, rfl, fun _ => rfl, by simp [Stage.sampled]⟩
  | readChannels => exact ⟨rfl, rfl, by simp, fun _ _ _ => ⟨.inl rfl, rfl⟩⟩
  | checkRing =>
    simp only [checkRing]
    split_ifs <;> exact ⟨rfl, rfl, by simp, fun _ _ _ => ⟨.inr ⟨_, rfl, rfl⟩, rfl⟩⟩
  | readRing =>
    refine ⟨rfl, rfl, ?_, fun _ _ _ => ⟨.inr ⟨_, rfl, rfl⟩, rfl⟩⟩
    simp only [readRing]
    split_ifs <;> simp
  | enter | sendPacket =>
    exact ⟨rfl, rfl, by simp [sendPacket], by simp [sendPacket, Stage.sampled]⟩
  | _ => exact ⟨rfl, rfl, by simp [resizeScratch], fun _ _ _ => ⟨.inr ⟨_, rfl, rfl⟩, rfl⟩⟩

theorem steady_streamStep (h : Steady e) (clock : UInt32) : Steady (e.streamStep clock) := by
  unfold streamStep
  rcases hstage : e.stage with _ | s
  · exact h
  cases s with
  | enter =>
    exact ⟨h.current, h.ring, by simp [Stage.sampled], by simp [Stage.sized],
      by simp [Stage.described], by simp⟩
  | getSettings =>
    dsimp only
    split_ifs
    · exact ⟨h.current, h.ring, by simp, by simp, by simp, by simp⟩
    · exact ⟨h.current, h.ring, by simp [Stage.sampled], by simp [Stage.sized],
        by simp [Stage.described], by simp⟩
  | readChannels =>
    have hchannels : (UInt8.ofNat (max 1 e.currentChannels)).toNat = e.ring.channels := by
      rw [h.ring]
      rcases h.current with hmono | hstereo
      · rw [hmono]
        rfl
      · rw [hstereo]
        rfl
    exact ⟨h.current, h.ring, fun _ _ _ => hchannels, by simp [Stage.sized],
      by simp [Stage.described], by simp⟩
  | resizeScratch =>
    refine ⟨h.current, h.ring, fun _ _ _ => h.sampled _ hstage rfl, fun _ _ _ => ?_,
      by simp [resizeScratch, Stage.described], by simp [resizeScratch]⟩
    simp only [resizeScratch, List.length_append, List.length_replicate]
    omega
  | readPlaying =>
    exact ⟨h.current, h.ring, fun _ _ _ => h.sampled _ hstage rfl,
      fun _ _ _ => h.sized _ hstage rfl, by simp [Stage.described], by simp⟩
  | readSampleRate =>
    exact ⟨h.current, h.ring, fun _ _ _ => h.sampled _ hstage rfl,
      fun _ _ _ => h.sized _ hstage rfl, fun _ _ _ => ⟨rfl, rfl⟩, by simp⟩
  | readEpoch =>
    exact ⟨h.current, h.ring, fun _ _ _ => h.sampled _ hstage rfl,
      fun _ _ _ => h.sized _ hstage rfl, fun _ _ _ => h.described _ hstage rfl, by simp⟩
  | checkRing => exact steady_checkRing h clock hstage
  | readRing => exact steady_readRing h hstage
  | sendPacket =>
    exact ⟨h.current, h.ring, by simp [sendPacket, Stage.sampled],
      by simp [sendPacket, Stage.sized], by simp [sendPacket, Stage.described], by simp [sendPacket]⟩

end StreamEngine

def EngineEvent.keepsRing : EngineEvent α → Bool
  | .prepare _ _ _ | .release => false
  | _ => true

theorem StreamEngine.steady_step [Zero α] {e : StreamEngine α} (h : e.Steady) (ev : EngineEvent α)
    (hev : ev.keepsRing = true) : (e.step ev).Steady := by
  cases ev with
  | stream clock => exact steady_streamStep h clock
  | pushAudio buffer => exact steady_pushAudio h buffer
  | prepare | release => cases hev
  | setSettings settings =>
    simp only [step, setSettings]
    split_ifs <;> exact ⟨h.current, h.ring, h.sampled, h.sized, h.described, h.ready⟩
  | setHostPlaying isPlaying =>
    exact ⟨h.current, h.ring, h.sampled, h.sized, h.described, h.ready⟩
  | start bound =>
    simp only [step, start]
    split_ifs
    · exact h
    · -- the new thread has read nothing yet
      exact ⟨h.current, h.ring, by simp [Stage.sampled], by simp [Stage.sized],
        by simp [Stage.described], by simp⟩
  | stop =>
    simp only [step, stop]
    split_ifs
    · exact ⟨h.current, h.ring, h.sampled, h.sized, h.described, h.ready⟩
    · exact h

end Ppm.Engine

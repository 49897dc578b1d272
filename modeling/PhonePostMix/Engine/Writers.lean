import PhonePostMix.Engine.ChannelCount
import Mathlib.Logic.Function.Basic

/-! The threads that reconfigure the engine, one shared access a step, beside the streaming
thread. -/

namespace Ppm.Wire

@[ext]
structure Config where
  format : Format
  channels : UInt8
  sampleRate : UInt32
  frames : UInt16
  deriving DecidableEq, Repr

def PacketInfo.config (info : PacketInfo) : Config :=
  ⟨info.format, info.channels, info.sampleRate, info.frames⟩

end Ppm.Wire

namespace Ppm.Engine
open Wire

def Stage.stamped : Stage → Bool
  -- the stages at which this iteration has read the epoch
  | .checkRing | .readRing | .sendPacket => true
  | _ => false

def Iteration.config (it : Iteration) : Config :=
  ⟨it.active.format, it.channels, it.info.sampleRate, it.frames⟩

/-- A call of `setSettings`, `prepare` or `start`, by the shared access that comes next. -/
inductive Call where
  | storeSettings (newSettings : Settings)
  | storeSampleRate (sampleRate : ℚ) (maximumBlockSize numChannels : ℤ)
  | storeChannels (sampleRate : ℚ) (maximumBlockSize numChannels : ℤ)
  | prepareRing (sampleRate : ℚ) (maximumBlockSize : ℤ)
  | addEpoch
  -- `epochs` counts the increments up to the one of this call
  | storePending (epochs : ℕ)
  | checkRunning (bound : Bool)
  | storeRunning
  | storePendingAtStart
  | startThread
  | returned
  deriving DecidableEq, Repr

namespace Call

def storing : Call → Bool
  -- the call has stored a part of the configuration and not incremented the epoch yet
  | .storeChannels _ _ _ | .prepareRing _ _ | .addEpoch => true
  | _ => false

def overtakes (s : Stage) : Call → Bool
  -- the call stores what an iteration at this stage has read, and has not read the epoch for
  | .storeSettings _ => s.active && !s.stamped
  | .storeChannels _ _ _ => s.sampled && !s.stamped
  | .storeSampleRate _ _ _ => s.described && !s.stamped
  | _ => false

end Call

namespace StreamEngine
variable {α : Type}

def config (e : StreamEngine α) : Config where
  -- what an iteration that reads everything now would declare
  format := e.settings.format
  channels := UInt8.ofNat (max 1 e.currentChannels)
  sampleRate := UInt32.ofNat ⌊e.currentSampleRate⌋.toNat
  frames := UInt16.ofInt e.settings.framesPerPacket

def formatChanged (e : StreamEngine α) (newSettings : Settings) : Prop :=
  newSettings.format ≠ e.settings.format ∨
    newSettings.framesPerPacket ≠ e.settings.framesPerPacket

instance (e : StreamEngine α) (newSettings : Settings) : Decidable (e.formatChanged newSettings) :=
  inferInstanceAs (Decidable (_ ∨ _))

end StreamEngine

namespace Call
variable {α : Type} [Zero α]

def act (e : StreamEngine α) : Call → StreamEngine α
  | .storeSettings newSettings => { e with settings := newSettings }
  | .storeSampleRate sampleRate _ _ => { e with currentSampleRate := sampleRate }
  | .storeChannels _ _ numChannels =>
    { e with currentChannels := (StreamEngine.jlimit 1 2 numChannels).toNat }
  | .prepareRing sampleRate maximumBlockSize =>
    { e with
      ring := .prepare 0 e.currentChannels _
        (StreamEngine.ringCapacity_pos sampleRate maximumBlockSize) }
  | .addEpoch => { e with configEpoch := e.configEpoch + 1 }
  | .storePending _ => { e with discontinuityPending := true }
  | .checkRunning _ => e
  | .storeRunning => { e with serverRunning := true }
  | .storePendingAtStart => { e with discontinuityPending := true }
  | .startThread =>
    if e.stage.isSome then e else { e with shouldExit := false, stage := some .enter }
  | .returned => e

def next (e : StreamEngine α) (bumps : ℕ) : Call → Call
  | .storeSettings newSettings => if e.formatChanged newSettings then .addEpoch else .returned
  | .storeSampleRate sampleRate maximumBlockSize numChannels =>
    .storeChannels sampleRate maximumBlockSize numChannels
  | .storeChannels sampleRate maximumBlockSize _ => .prepareRing sampleRate maximumBlockSize
  | .prepareRing _ _ => .addEpoch
  | .addEpoch => .storePending (bumps + 1)
  | .storePending _ => .returned
  -- a thread that is still to be joined keeps `start` away
  | .checkRunning bound =>
    if e.serverRunning || !bound || e.stage.isSome then .returned else .storeRunning
  | .storeRunning => .storePendingAtStart
  | .storePendingAtStart => .startThread
  | .startThread => .returned
  | .returned => .returned

def alone (e : StreamEngine α) : ℕ → Call → StreamEngine α
  | 0, _ => e
  | n + 1, c => alone (c.act e) n (c.next e 0)

theorem setSettings_alone (e : StreamEngine α) (newSettings : Settings) :
    alone e 3 (.storeSettings newSettings) = e.setSettings newSettings := by
  show alone (act e (.storeSettings newSettings)) 2 (next e 0 (.storeSettings newSettings)) = _
  by_cases h : e.formatChanged newSettings
  · have hnext : next e 0 (.storeSettings newSettings) = .addEpoch := if_pos h
    rw [hnext]
    exact (if_pos h).symm
  · have hnext : next e 0 (.storeSettings newSettings) = .returned := if_neg h
    rw [hnext]
    exact (if_neg h).symm

theorem prepare_alone (e : StreamEngine α) (sampleRate : ℚ) (maximumBlockSize numChannels : ℤ) :
    alone e 5 (.storeSampleRate sampleRate maximumBlockSize numChannels) =
      e.prepare sampleRate maximumBlockSize numChannels := rfl

theorem start_alone (e : StreamEngine α) (bound : Bool) :
    alone e 4 (.checkRunning bound) = e.start bound := by
  show alone e 3 (next e 0 (.checkRunning bound)) = _
  by_cases h : (e.serverRunning || !bound || e.stage.isSome) = true
  · have hnext : next e 0 (.checkRunning bound) = .returned := if_pos h
    rw [hnext, StreamEngine.start, if_pos h]
    rfl
  · have hnext : next e 0 (.checkRunning bound) = .storeRunning := if_neg h
    have hidle : ¬ e.stage.isSome = true := by
      intro hstage
      rw [hstage, Bool.or_true] at h
      exact h rfl
    rw [hnext, StreamEngine.start, if_neg h]
    exact if_neg hidle

end Call

/-- The engine and the calls in progress. As records: how often the epoch has been incremented,
the configuration in force at each increment, the count when this iteration read the epoch, and
the packets with the count their epoch stands for; whether a store has changed the configuration
since the last increment, and whether one has come between the reads of this iteration. -/
structure Threads (α : Type) where
  engine : StreamEngine α := {}
  calls : List Call := []
  bumps : ℕ := 0
  inForce : ℕ → Config := fun _ => ({} : StreamEngine α).config
  stamp : ℕ := 0
  log : List (PacketInfo × ℕ) := []
  changed : Bool := false
  torn : Bool := false

inductive ThreadEvent (α : Type) where
  | setSettings (newSettings : Settings)
  | prepare (sampleRate : ℚ) (maximumBlockSize numChannels : ℤ)
  | start (bound : Bool)
  | advance (i : ℕ)
  | stream (clock : UInt32)
  | pushAudio (buffer : AudioBuffer α)
  | release
  | setHostPlaying (isPlaying : Bool)
  | stop

namespace Threads
variable {α : Type} [Zero α]

/-- A call in progress has changed the configuration, and its increment is still to come. -/
def Unsettled (w : Threads α) : Prop := w.changed = true ∧ ∃ c ∈ w.calls, c.storing = true

omit [Zero α] in
instance (w : Threads α) : Decidable w.Unsettled := inferInstanceAs (Decidable (_ ∧ _))

def Changes (w : Threads α) (c : Call) : Prop := (c.act w.engine).config ≠ w.engine.config

instance (w : Threads α) (c : Call) : Decidable (w.Changes c) :=
  inferInstanceAs (Decidable (_ ≠ _))

def advance (w : Threads α) (i : ℕ) (c : Call) : Threads α :=
  { w with
    engine := c.act w.engine
    calls := w.calls.set i (c.next w.engine w.bumps)
    bumps := if c = .addEpoch then w.bumps + 1 else w.bumps
    inForce :=
      if c = .addEpoch then Function.update w.inForce (w.bumps + 1) w.engine.config
      else w.inForce
    changed := c ≠ .addEpoch && (w.changed || w.Changes c)
    torn := w.torn || (w.Changes c && w.engine.stage.any fun s => c.overtakes s) }

def stream (w : Threads α) (clock : UInt32) : Threads α :=
  { w with
    engine := w.engine.streamStep clock
    stamp := if w.engine.stage = some .readEpoch then w.bumps else w.stamp
    log :=
      if w.engine.stage = some .sendPacket then w.log ++ [(w.engine.packetInfo clock, w.stamp)]
      else w.log
    torn :=
      match w.engine.stage with
      | some .getSettings => false
      | some .readEpoch => w.torn || w.Unsettled
      | _ => w.torn }

def step (w : Threads α) : ThreadEvent α → Threads α
  | .setSettings newSettings => { w with calls := w.calls ++ [.storeSettings newSettings] }
  | .prepare sampleRate maximumBlockSize numChannels =>
    { w with calls := w.calls ++ [.storeSampleRate sampleRate maximumBlockSize numChannels] }
  | .start bound => { w with calls := w.calls ++ [.checkRunning bound] }
  | .advance i =>
    match w.calls[i]? with
    | none => w
    | some c => w.advance i c
  | .stream clock => w.stream clock
  | .pushAudio buffer => { w with engine := w.engine.pushAudio buffer }
  | .release => { w with engine := { w.engine with ring := w.engine.ring.release } }
  | .setHostPlaying isPlaying => { w with engine := { w.engine with hostPlaying := isPlaying } }
  | .stop => { w with engine := w.engine.stop }

def run (w : Threads α) (es : List (ThreadEvent α)) : Threads α := Runs.run step w es

end Threads

namespace StreamEngine
variable {α : Type}

structure SameShared (e e' : StreamEngine α) : Prop where
  settings : e'.settings = e.settings
  currentSampleRate : e'.currentSampleRate = e.currentSampleRate
  currentChannels : e'.currentChannels = e.currentChannels
  configEpoch : e'.configEpoch = e.configEpoch

theorem SameShared.config {e e' : StreamEngine α} (h : SameShared e e') : e'.config = e.config := by
  simp only [StreamEngine.config, h.settings, h.currentSampleRate, h.currentChannels]

variable [Zero α]

theorem streamStep_epoch (e : StreamEngine α) (clock : UInt32) :
    SameShared e (e.streamStep clock) ∧
      (e.stage = some .sendPacket ∧ e.streamStep clock = e.sendPacket clock ∨
        e.stage ≠ some .sendPacket ∧ (e.streamStep clock).sent = e.sent ∧
          (e.streamStep clock).discontinuityPending = e.discontinuityPending ∧
          ∀ s ∈ (e.streamStep clock).stage, s.stamped = true →
            e.stage = some .readEpoch ∧
                (e.streamStep clock).iteration.info.configEpoch = e.configEpoch ∨
              (∃ s' ∈ e.stage, s'.stamped = true) ∧ e.stage ≠ some .readEpoch ∧
                (e.streamStep clock).iteration.info.configEpoch =
                  e.iteration.info.configEpoch) := by
  unfold streamStep
  rcases hstage : e.stage with _ | s
  · exact ⟨⟨rfl, rfl, rfl, rfl⟩, .inr ⟨by simp, rfl, rfl, by simp [hstage]⟩⟩
  cases s with
  | getSettings =>
    dsimp only
    split_ifs
    · exact ⟨⟨rfl, rfl, rfl, rfl⟩, .inr ⟨by simp, rfl, rfl, by simp⟩⟩
    · exact ⟨⟨rfl, rfl, rfl, rfl⟩, .inr ⟨by simp, rfl, rfl, by simp [Stage.stamped]⟩⟩
  | readEpoch =>
    exact ⟨⟨rfl, rfl, rfl, rfl⟩, .inr ⟨by simp, rfl, rfl, fun _ _ _ => .inl ⟨rfl, rfl⟩⟩⟩
  | checkRing =>
    simp only [checkRing]
    split_ifs <;> exact ⟨⟨rfl, rfl, rfl, rfl⟩, .inr ⟨by simp, rfl, rfl, fun _ _ _ =>
      .inr ⟨⟨_, rfl, rfl⟩, by simp, rfl⟩⟩⟩
  | readRing =>
    exact ⟨⟨rfl, rfl, rfl, rfl⟩, .inr ⟨by simp, rfl, rfl, fun _ _ _ =>
      .inr ⟨⟨_, rfl, rfl⟩, by simp, rfl⟩⟩⟩
  | sendPacket => exact ⟨⟨rfl, rfl, rfl, rfl⟩, .inl ⟨rfl, rfl⟩⟩
  | _ =>
    exact ⟨⟨rfl, rfl, rfl, rfl⟩, .inr ⟨by simp, rfl, rfl, by simp [resizeScratch, Stage.stamped]⟩⟩

def Declared (e : StreamEngine α) : Prop :=
  ∀ s ∈ e.stage, s.described = true → e.iteration.info.config = e.iteration.config

theorem declared_streamStep {e : StreamEngine α} (h : e.Declared) (clock : UInt32) :
    (e.streamStep clock).Declared := by
  unfold streamStep
  rcases hstage : e.stage with _ | s
  · exact h
  cases s with
  | getSettings =>
    dsimp only
    split_ifs <;> simp [Declared, Stage.described]
  | readSampleRate => exact fun _ _ _ => rfl
  | checkRing =>
    simp only [checkRing]
    split_ifs <;> exact fun _ _ _ => h _ hstage rfl
  | readEpoch | readRing => exact fun _ _ _ => h _ hstage rfl
  | _ => simp [Declared, Stage.described, resizeScratch, sendPacket]

structure Reads (e : StreamEngine α) (s : Stage) : Prop where
  settings : s.active = true → e.iteration.config.format = e.config.format ∧
    e.iteration.config.frames = e.config.frames
  channels : s.sampled = true → e.iteration.config.channels = e.config.channels
  sampleRate : s.described = true → e.iteration.config.sampleRate = e.config.sampleRate

omit [Zero α] in
theorem Reads.config {e : StreamEngine α} {s : Stage} (h : e.Reads s) (hs : s.described = true) :
    e.iteration.config = e.config := by
  have hactive : s.active = true := by
    cases s <;> first | rfl | exact absurd hs (by decide)
  have hsampled : s.sampled = true := by
    cases s <;> first | rfl | exact absurd hs (by decide)
  obtain ⟨hformat, hframes⟩ := h.settings hactive
  exact Config.ext hformat (h.channels hsampled) (h.sampleRate hs) hframes

theorem reads_streamStep {e : StreamEngine α} (clock : UInt32)
    (h : ∀ s ∈ e.stage, s ≠ .getSettings → s.stamped = false → e.Reads s) :
    ∀ s ∈ (e.streamStep clock).stage, s.stamped = false → (e.streamStep clock).Reads s := by
  unfold streamStep
  rcases hstage : e.stage with _ | s
  · simp [hstage]
  rw [hstage] at h
  have hnext : ∀ (e' : StreamEngine α) (t : Stage), e'.stage = some t →
      (t.stamped = false → e'.Reads t) → ∀ s ∈ e'.stage, s.stamped = false → e'.Reads s := by
    intro e' t ht hreads s hs
    obtain rfl : t = s := Option.some.inj (ht ▸ hs)
    exact hreads
  have htop : ∀ e' : StreamEngine α, e'.stage = some .getSettings →
      ∀ s ∈ e'.stage, s.stamped = false → e'.Reads s :=
    fun e' ht => hnext e' _ ht fun _ => ⟨nofun, nofun, nofun⟩
  have hread : s ≠ .getSettings → s.stamped = false → e.Reads s := h s rfl
  cases s with
  | enter => exact htop _ rfl
  | getSettings =>
    dsimp only
    split_ifs
    · simp
    · exact hnext _ .readChannels rfl fun _ => ⟨fun _ => ⟨rfl, rfl⟩, nofun, nofun⟩
  | readChannels =>
    have hold := hread (by simp) rfl
    exact hnext _ .resizeScratch rfl fun _ => ⟨fun _ => hold.settings rfl, fun _ => rfl, nofun⟩
  | resizeScratch =>
    have hold := hread (by simp) rfl
    exact hnext _ .readPlaying rfl fun _ =>
      ⟨fun _ => hold.settings rfl, fun _ => hold.channels rfl, nofun⟩
  | readPlaying =>
    have hold := hread (by simp) rfl
    exact hnext _ .readSampleRate rfl fun _ =>
      ⟨fun _ => hold.settings rfl, fun _ => hold.channels rfl, nofun⟩
  | readSampleRate =>
    have hold := hread (by simp) rfl
    exact hnext _ .readEpoch rfl fun _ =>
      ⟨fun _ => hold.settings rfl, fun _ => hold.channels rfl, fun _ => rfl⟩
  | readEpoch => exact hnext _ .checkRing rfl nofun
  | checkRing =>
    simp only [checkRing]
    split_ifs
    · exact hnext _ .readRing rfl nofun
    · exact htop _ rfl
    · exact hnext _ .sendPacket rfl nofun
  | readRing =>
    by_cases hshort : (e.ring.read e.iteration.frames.toNat).1 < e.iteration.frames.toNat
    · exact htop e.readRing (if_pos hshort)
    · exact hnext e.readRing .sendPacket (if_neg hshort) nofun
  | sendPacket => exact htop _ rfl

theorem config_streamStep {e : StreamEngine α} (clock : UInt32) :
    ∀ s ∈ (e.streamStep clock).stage, s.stamped = true →
      (e.streamStep clock).iteration.config = e.iteration.config := by
  unfold streamStep
  rcases hstage : e.stage with _ | s
  · exact fun _ _ _ => rfl
  cases s with
  | getSettings =>
    dsimp only
    split_ifs
    · simp
    · simp [Stage.stamped]
  | readChannels | readSampleRate => simp [Stage.stamped]
  | checkRing =>
    simp only [checkRing]
    split_ifs <;> exact fun _ _ _ => rfl
  | _ => exact fun _ _ _ => rfl

end StreamEngine
namespace Call
variable {α : Type} [Zero α]

theorem act_stream (c : Call) (e : StreamEngine α) :
    (c.act e).iteration = e.iteration ∧ (c.act e).sent = e.sent ∧
      ∀ s ∈ (c.act e).stage, s ∈ e.stage ∨ s = .enter := by
  cases c with
  | startThread =>
    simp only [act]
    split_ifs
    · exact ⟨rfl, rfl, fun s hs => .inl hs⟩
    · exact ⟨rfl, rfl, by simp⟩
  | _ => exact ⟨rfl, rfl, fun s hs => .inl hs⟩

theorem reads_act (c : Call) {e : StreamEngine α} {s : Stage} (h : e.Reads s)
    (hs : s.stamped = false) (hkept : (c.act e).config = e.config ∨ c.overtakes s = false) :
    (c.act e).Reads s := by
  have hiteration := (c.act_stream e).1
  have hsame : (c.act e).config = e.config → (c.act e).Reads s := by
    intro hconfig
    refine ⟨?_, ?_, ?_⟩ <;> rw [hiteration, hconfig]
    · exact h.settings
    · exact h.channels
    · exact h.sampleRate
  rcases hkept with hconfig | hkept
  · exact hsame hconfig
  cases c with
  | storeSettings =>
    have hactive : s.active = false := by simpa [overtakes, hs] using hkept
    cases s <;> first | exact absurd hactive (by decide) | exact ⟨nofun, nofun, nofun⟩
  | storeChannels =>
    have hsampled : s.sampled = false := by simpa [overtakes, hs] using hkept
    refine ⟨h.settings, fun hnow => ?_, h.sampleRate⟩
    rw [hsampled] at hnow
    exact absurd hnow (by decide)
  | storeSampleRate =>
    have hdescribed : s.described = false := by simpa [overtakes, hs] using hkept
    refine ⟨h.settings, h.channels, fun hnow => ?_⟩
    rw [hdescribed] at hnow
    exact absurd hnow (by decide)
  | startThread =>
    refine hsame ?_
    rw [act]
    split_ifs <;> rfl
  | _ => exact hsame rfl

theorem act_configEpoch (c : Call) (e : StreamEngine α) :
    (c.act e).configEpoch = if c = .addEpoch then e.configEpoch + 1 else e.configEpoch := by
  cases c with
  | startThread =>
    rw [if_neg (by simp), act]
    split_ifs <;> rfl
  | _ => rfl

theorem act_pending (c : Call) (e : StreamEngine α) :
    (c.act e).discontinuityPending = true ∨
      (c.act e).discontinuityPending = e.discontinuityPending ∧ ∀ n, c ≠ .storePending n := by
  cases c with
  | storePending => exact .inl rfl
  | storePendingAtStart => exact .inl rfl
  | startThread =>
    simp only [act]
    split_ifs <;> exact .inr ⟨rfl, by simp⟩
  | _ => exact .inr ⟨rfl, by simp⟩

end Call

namespace Threads
variable {α : Type} [Zero α]

structure Numbered (w : Threads α) : Prop where
  epoch : w.engine.configEpoch = UInt16.ofNat w.bumps
  read : ∀ s ∈ w.engine.stage, s.stamped = true →
    w.engine.iteration.info.configEpoch = UInt16.ofNat w.stamp
  declared : w.engine.Declared
  logged : w.log.map Prod.fst = w.engine.sent.map Packet.info
  stamped : ∀ p ∈ w.log, p.1.configEpoch = UInt16.ofNat p.2 ∧ p.2 ≤ w.stamp
  ordered : w.stamp ≤ w.bumps

omit [Zero α] in
theorem numbered_new : Numbered ({} : Threads α) :=
  ⟨rfl, by simp, by simp [StreamEngine.Declared], rfl, by simp, le_rfl⟩

variable {w : Threads α}

omit [Zero α] in
theorem Numbered.engine (h : w.Numbered) {e : StreamEngine α}
    (hepoch : e.configEpoch = w.engine.configEpoch) (hiteration : e.iteration = w.engine.iteration)
    (hsent : e.sent = w.engine.sent) (hstage : ∀ s ∈ e.stage, s ∈ w.engine.stage ∨ s = .enter) :
    Numbered { w with engine := e } := by
  refine ⟨hepoch.trans h.epoch, ?_, ?_, ?_, h.stamped, h.ordered⟩
  · intro s hs hstamped
    rcases hstage s hs with hold | rfl
    · rw [hiteration]
      exact h.read s hold hstamped
    · exact absurd hstamped (by decide)
  · intro s hs hdescribed
    rcases hstage s hs with hold | rfl
    · rw [hiteration]
      exact h.declared s hold hdescribed
    · exact absurd hdescribed (by decide)
  · rw [hsent]
    exact h.logged

theorem numbered_advance (h : w.Numbered) (i : ℕ) (c : Call) : Numbered (w.advance i c) := by
  obtain ⟨hiteration, hsent, hstage⟩ := c.act_stream w.engine
  have hepoch := c.act_configEpoch w.engine
  have hengine : Numbered { w with engine := { c.act w.engine with
      configEpoch := w.engine.configEpoch } } := h.engine rfl hiteration hsent hstage
  refine ⟨?_, hengine.read, hengine.declared, hengine.logged, h.stamped, ?_⟩
  · show (c.act w.engine).configEpoch = UInt16.ofNat (if c = .addEpoch then _ else _)
    rw [hepoch, h.epoch]
    split_ifs
    · rw [UInt16.ofNat_add]
      rfl
    · rfl
  · show w.stamp ≤ if c = .addEpoch then w.bumps + 1 else w.bumps
    have hordered := h.ordered
    split_ifs <;> omega

theorem numbered_stream (h : w.Numbered) (clock : UInt32) : Numbered (w.stream clock) := by
  obtain ⟨hshared, hstep⟩ := w.engine.streamStep_epoch clock
  have hdeclared := StreamEngine.declared_streamStep h.declared clock
  have hepoch := hshared.configEpoch.trans h.epoch
  unfold stream
  rcases hstep with ⟨hstage, hsend⟩ | ⟨hstage, hsent, -, hread⟩
  · rw [if_neg (by simp [hstage]), if_pos hstage]
    refine ⟨hepoch, ?_, hdeclared, ?_, ?_, h.ordered⟩
    · rw [hsend]
      simp [StreamEngine.sendPacket, Stage.stamped]
    · rw [hsend]
      show (w.log ++ [_]).map _ = (w.engine.sent ++ [_]).map _
      rw [List.map_append, List.map_append, h.logged]
      rfl
    · intro p hp
      rcases List.mem_append.mp hp with hold | hnew
      · exact h.stamped p hold
      · rw [List.mem_singleton.mp hnew]
        exact ⟨h.read _ hstage rfl, le_rfl⟩
  · rw [if_neg hstage]
    refine ⟨hepoch, ?_, hdeclared, ?_, ?_, ?_⟩
    · intro s hs hstamped
      dsimp only
      rcases hread s hs hstamped with ⟨hnow, heq⟩ | ⟨⟨s', hs', hstamped'⟩, hother, heq⟩
      · rw [if_pos hnow]
        exact heq.trans h.epoch
      · rw [if_neg hother]
        exact heq.trans (h.read s' hs' hstamped')
    · rw [hsent]
      exact h.logged
    · intro p hp
      have hstamped := h.stamped p hp
      have hordered := h.ordered
      refine ⟨hstamped.1, ?_⟩
      dsimp only
      split_ifs <;> omega
    · have hordered := h.ordered
      dsimp only
      split_ifs <;> omega

theorem numbered_step (h : w.Numbered) (ev : ThreadEvent α) : Numbered (w.step ev) := by
  cases ev with
  | advance i =>
    simp only [step]
    split
    · exact h
    · exact numbered_advance h i _
  | stream clock => exact numbered_stream h clock
  | pushAudio buffer =>
    simp only [step, StreamEngine.pushAudio]
    split_ifs
    · exact h.engine rfl rfl rfl fun s hs => .inl hs
    · exact h
  | release => exact h.engine rfl rfl rfl fun s hs => .inl hs
  | setHostPlaying isPlaying => exact h.engine rfl rfl rfl fun s hs => .inl hs
  | stop =>
    simp only [step, StreamEngine.stop]
    split_ifs
    · exact h.engine rfl rfl rfl fun s hs => .inl hs
    · exact h
  | _ => exact ⟨h.epoch, h.read, h.declared, h.logged, h.stamped, h.ordered⟩

end Threads
end Ppm.Engine

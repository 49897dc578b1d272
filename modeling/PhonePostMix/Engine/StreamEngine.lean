import Mathlib.Algebra.Order.Floor.Ring
import Mathlib.Data.Rat.Floor
import PhonePostMix.Engine.AudioRingBuffer
import PhonePostMix.Library.Runs
import PhonePostMix.Wire.Header

/-! The streaming engine: its thread, one shared access a step, and what the audio thread
and the message thread do between any two of those steps. -/

namespace Ppm.Engine
open Wire

structure Settings where
  format : Format := .pcm16
  framesPerPacket : ℤ := 512
  preferredPort : ℤ := 17520
  targetLatencyMs : ℤ := 120
  deriving DecidableEq, Repr

/-- A packet as broadcast. `copied` records the channel count of the ring its frames were
copied from, when any were. -/
structure Packet (α : Type) where
  info : PacketInfo
  samples : List α
  copied : Option ℕ
  deriving DecidableEq, Repr

inductive Stage where
  | enter
  | getSettings
  | readChannels
  | resizeScratch
  | readPlaying
  | readSampleRate
  | readEpoch
  | checkRing
  | readRing
  | sendPacket
  deriving DecidableEq, Repr

/-- The locals of one iteration of `run`; `sampledFrom` records the channel count it found, and
`copied` the copy out of the ring. -/
structure Iteration where
  active : Settings := {}
  channels : UInt8 := 2
  sampledFrom : ℕ := 2
  playing : Bool := false
  info : PacketInfo := {}
  now : UInt32 := 0
  copied : Option ℕ := none
  deriving DecidableEq, Repr

/-- `sent` records the packets, and `copies` the size of each copy out of the ring beside
the size of the buffer it went to. -/
structure StreamEngine (α : Type) where
  settings : Settings := {}
  ring : AudioRingBuffer α := .released 0
  currentSampleRate : ℚ := 48000
  currentChannels : ℕ := 2
  configEpoch : UInt16 := 0
  serverRunning : Bool := false
  hostPlaying : Bool := false
  discontinuityPending : Bool := true
  shouldExit : Bool := false
  stage : Option Stage := none
  iteration : Iteration := {}
  scratch : List α := []
  sequence : UInt32 := 0
  sampleClock : UInt64 := 0
  lastPacketTimeMs : UInt32 := 0
  lastHostPlaying : Bool := false
  sent : List (Packet α) := []
  copies : List (ℕ × ℕ) := []

def silenceKeepaliveMs : UInt32 := 250

namespace Iteration

def frames (it : Iteration) : UInt16 := UInt16.ofInt it.active.framesPerPacket

def numSamples (it : Iteration) : ℕ := it.frames.toNat * it.channels.toNat

end Iteration

inductive EngineEvent (α : Type) where
  | stream (clock : UInt32)
  | pushAudio (buffer : AudioBuffer α)
  | prepare (sampleRate : ℚ) (maximumBlockSize numChannels : ℤ)
  | release
  | setSettings (settings : Settings)
  | setHostPlaying (isPlaying : Bool)
  | start (bound : Bool)
  | stop

namespace StreamEngine
variable {α : Type} [Zero α]

def jlimit (lower upper value : ℤ) : ℤ := max lower (min upper value)

def ringCapacity (sampleRate : ℚ) (maximumBlockSize : ℤ) : ℤ :=
  max (max ⌊sampleRate * (1 / 2)⌋ (maximumBlockSize * 4)) 8192

theorem ringCapacity_pos (sampleRate : ℚ) (maximumBlockSize : ℤ) :
    0 < (ringCapacity sampleRate maximumBlockSize).toNat := by
  have hleast : 8192 ≤ ringCapacity sampleRate maximumBlockSize := le_max_right _ _
  omega

def prepare (e : StreamEngine α) (sampleRate : ℚ) (maximumBlockSize numChannels : ℤ) :
    StreamEngine α :=
  let channels := (jlimit 1 2 numChannels).toNat
  { e with
    currentSampleRate := sampleRate
    currentChannels := channels
    ring := .prepare 0 channels _ (ringCapacity_pos sampleRate maximumBlockSize)
    configEpoch := e.configEpoch + 1
    discontinuityPending := true }

def setSettings (e : StreamEngine α) (newSettings : Settings) : StreamEngine α :=
  if newSettings.format ≠ e.settings.format ∨
      newSettings.framesPerPacket ≠ e.settings.framesPerPacket then
    { e with
      settings := newSettings
      configEpoch := e.configEpoch + 1
      discontinuityPending := true }
  else { e with settings := newSettings }

def pushAudio (e : StreamEngine α) (buffer : AudioBuffer α) : StreamEngine α :=
  if e.serverRunning then { e with ring := (e.ring.write buffer).2 } else e

def start (e : StreamEngine α) (bound : Bool) : StreamEngine α :=
  -- `bound` tells whether the server found a free port
  if e.serverRunning || !bound || e.stage.isSome then e
  else
    { e with
      serverRunning := true
      discontinuityPending := true
      shouldExit := false
      stage := some .enter }

def stop (e : StreamEngine α) : StreamEngine α :=
  -- the thread is joined: it finishes its iteration and leaves the loop
  if e.serverRunning then { e with serverRunning := false, shouldExit := true } else e

def resizeScratch (e : StreamEngine α) : StreamEngine α :=
  { e with
    scratch := e.scratch ++ List.replicate (e.iteration.numSamples - e.scratch.length) 0
    stage := some .readPlaying }

def checkRing (e : StreamEngine α) (clock : UInt32) : StreamEngine α :=
  let it := { e.iteration with now := clock, copied := none }
  if 0 < e.ring.channels ∧ it.frames.toNat ≤ e.ring.getNumReady then
    { e with iteration := it, stage := some .readRing }
  -- unsigned, so the wait survives the wrap of the millisecond counter
  else if clock - e.lastPacketTimeMs < silenceKeepaliveMs then
    { e with iteration := it, stage := some .getSettings }
  else
    { e with
      iteration := { it with info := { it.info with flags := it.info.flags ||| Flags.silence } }
      scratch := List.replicate it.numSamples 0 ++ e.scratch.drop it.numSamples
      stage := some .sendPacket }

def readRing (e : StreamEngine α) : StreamEngine α :=
  -- `ring.read` into the scratch buffer; a short read goes back to the top of the loop
  let result := e.ring.read e.iteration.frames.toNat
  let copied := if result.1 = 0 then none else some e.ring.channels
  { e with
    ring := result.2.2
    scratch := result.2.1 ++ e.scratch.drop result.2.1.length
    copies := e.copies ++ [(result.2.1.length, e.scratch.length)]
    iteration := { e.iteration with copied }
    stage := if result.1 < e.iteration.frames.toNat then some .getSettings else some .sendPacket }

def packetInfo (e : StreamEngine α) (clock : UInt32) : PacketInfo :=
  let info := e.iteration.info
  { info with
    flags :=
      let flags := if e.iteration.playing then info.flags else info.flags ||| Flags.silence
      if e.discontinuityPending then flags ||| (Flags.discontinuity ||| Flags.configChanged)
      else flags
    sequence := e.sequence
    sampleClock := if e.discontinuityPending then 0 else e.sampleClock
    senderTimeMs := clock }

def sendPacket (e : StreamEngine α) (clock : UInt32) : StreamEngine α :=
  let info := e.packetInfo clock
  { e with
    sequence := e.sequence + 1
    discontinuityPending := false
    sampleClock := info.sampleClock + info.frames.toUInt64
    sent := e.sent ++
      [{ info
         samples := e.scratch.take (info.frames.toNat * info.channels.toNat)
         copied := e.iteration.copied }]
    lastPacketTimeMs := e.iteration.now
    stage := some .getSettings }

def streamStep (e : StreamEngine α) (clock : UInt32) : StreamEngine α :=
  match e.stage with
  | none => e
  | some .enter =>
    { e with
      lastPacketTimeMs := clock
      lastHostPlaying := e.hostPlaying
      stage := some .getSettings }
  | some .getSettings =>
    if e.shouldExit then { e with stage := none }
    else
      { e with
        iteration := { e.iteration with active := e.settings }
        stage := some .readChannels }
  | some .readChannels =>
    { e with
      iteration :=
        { e.iteration with
          channels := UInt8.ofNat (max 1 e.currentChannels)
          sampledFrom := e.currentChannels }
      stage := some .resizeScratch }
  | some .resizeScratch => e.resizeScratch
  | some .readPlaying =>
    { e with
      iteration := { e.iteration with playing := e.hostPlaying }
      lastHostPlaying := e.hostPlaying
      stage := some .readSampleRate }
  | some .readSampleRate =>
    let info : PacketInfo :=
      { format := e.iteration.active.format
        channels := e.iteration.channels
        sampleRate := UInt32.ofNat ⌊e.currentSampleRate⌋.toNat
        frames := e.iteration.frames }
    { e with iteration := { e.iteration with info }, stage := some .readEpoch }
  | some .readEpoch =>
    { e with
      iteration :=
        { e.iteration with info := { e.iteration.info with configEpoch := e.configEpoch } }
      stage := some .checkRing }
  | some .checkRing => e.checkRing clock
  | some .readRing => e.readRing
  | some .sendPacket => e.sendPacket clock

def step (e : StreamEngine α) : EngineEvent α → StreamEngine α
  | .stream clock => e.streamStep clock
  | .pushAudio buffer => e.pushAudio buffer
  | .prepare sampleRate maximumBlockSize numChannels =>
    e.prepare sampleRate maximumBlockSize numChannels
  | .release => { e with ring := e.ring.release }
  | .setSettings settings => e.setSettings settings
  | .setHostPlaying isPlaying => { e with hostPlaying := isPlaying }
  | .start bound => e.start bound
  | .stop => e.stop

def run (e : StreamEngine α) (es : List (EngineEvent α)) : StreamEngine α := Runs.run step e es

end StreamEngine
end Ppm.Engine

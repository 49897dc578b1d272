import Mathlib.Data.Nat.Digits.Defs
import PhonePostMix.Receiver.Player

/-! How the page reads an audio packet. A read past the end of the buffer throws a RangeError,
which ends the handler and leaves what it has done so far. -/

namespace Ppm.Receiver

def magic : ℕ := 0x584d5050
def version : ℕ := 1
def headerBytes : ℕ := 32

def uint (width : ℕ) (buffer : List UInt8) (offset : ℕ) : ℕ :=
  Nat.ofDigits 256 (((buffer.drop offset).take width).map UInt8.toNat)

def getUint (width : ℕ) (buffer : List UInt8) (offset : ℕ) : Option ℕ :=
  -- a read of a `DataView`; none is a RangeError
  if offset + width ≤ buffer.length then some (uint width buffer offset) else none

theorem getUint_of_le {width offset : ℕ} {buffer : List UInt8}
    (h : offset + width ≤ buffer.length) :
    getUint width buffer offset = some (uint width buffer offset) := if_pos h

def getInt16 (buffer : List UInt8) (offset : ℕ) : Option ℤ :=
  (getUint 2 buffer offset).map fun n => (BitVec.ofNat 16 n).toInt

def int24 (buffer : List UInt8) (offset : ℕ) : Option ℤ := do
  let low ← getUint 1 buffer offset
  let middle ← getUint 1 buffer (offset + 1)
  let high ← getUint 1 buffer (offset + 2)
  let value := low ||| middle <<< 8 ||| high <<< 16
  return if value &&& 0x800000 ≠ 0 then (value : ℤ) - 0x1000000 else value

def float32 (bits : ℕ) : Sample :=
  let exponent : ℕ := bits / 2 ^ 23 % 2 ^ 8
  let mantissa : ℕ := bits % 2 ^ 23
  let sign : ℚ := if bits / 2 ^ 31 = 0 then 1 else -1
  if exponent = 255 then if mantissa = 0 then .infinity (sign < 0) else .nan
  else if exponent = 0 then .number (sign * mantissa * 2 ^ (-149 : ℤ))
  else .number (sign * (2 ^ 23 + mantissa : ℕ) * 2 ^ ((exponent : ℤ) - 150))

structure PacketHeader where
  format : ℕ
  channels : ℕ
  flags : ℕ
  seq : ℕ
  sampleRate : ℕ
  frames : ℕ
  epoch : ℕ
  deriving DecidableEq, Repr

def readHeader (buffer : List UInt8) : PacketHeader where
  format := uint 1 buffer 5
  channels := uint 1 buffer 6
  flags := uint 1 buffer 7
  seq := uint 4 buffer 8
  sampleRate := uint 4 buffer 12
  frames := uint 2 buffer 16
  epoch := uint 2 buffer 18

namespace Scratch

def decodeFrame (left : ℕ → Option Sample) (right : ℕ → Sample → Option Sample)
    (state : Bool × Scratch) (i : ℕ) : Bool × Scratch :=
  -- one iteration of a loop of `decode`; the first component says that nothing was thrown
  if !state.1 then state
  else
    match left i with
    | none => (false, state.2)
    | some l =>
      let s := { state.2 with l := Function.update state.2.l i l }
      match right i l with
      | none => (false, s)
      | some r => (true, { s with r := Function.update s.r i r })

def decodeFrames (left : ℕ → Option Sample) (right : ℕ → Sample → Option Sample) (frames : ℕ)
    (s : Scratch) : Bool × Scratch :=
  (List.range frames).foldl (decodeFrame left right) (true, s)

def decodeInterleaved (size channels : ℕ) (value : ℕ → Option Sample) (frames : ℕ) (s : Scratch) :
    Bool × Scratch :=
  -- a loop over interleaved samples of `size` bytes; a mono packet goes to both sides
  s.decodeFrames (fun i => value (headerBytes + i * channels * size))
    (fun i l =>
      if 1 < channels then value (headerBytes + i * channels * size + size) else some l) frames

def decode (buffer : List UInt8) (format channels frames : ℕ) (s : Scratch) : Bool × Scratch :=
  match format with
  | 0 =>
    s.decodeInterleaved 2 channels
      (fun offset => (getInt16 buffer offset).map fun (q : ℤ) => .number ((q : ℚ) / 32767)) frames
  | 1 =>
    s.decodeInterleaved 3 channels
      (fun offset => (int24 buffer offset).map fun (q : ℤ) => .number ((q : ℚ) / 8388607)) frames
  | 2 =>
    if headerBytes + frames * channels * 4 ≤ buffer.length then
      let floats (k : ℕ) : Sample :=
        if k < frames * channels then float32 (uint 4 buffer (headerBytes + k * 4)) else .nan
      s.decodeFrames (fun i => some (floats (i * channels)))
        (fun i _ => some (floats (if 1 < channels then i * channels + 1 else i * channels))) frames
    else (false, s)
  | _ => (true, s)

theorem decodeFrames_ok (left : ℕ → Option Sample) (right : ℕ → Sample → Option Sample)
    (frames : ℕ) (s : Scratch)
    (h : ∀ i < frames, ∃ l, left i = some l ∧ ∃ r, right i l = some r) :
    (s.decodeFrames left right frames).1 = true := by
  induction frames with
  | zero => rfl
  | succ n ih =>
    have hbefore := ih fun i hi => h i (Nat.lt_succ_of_lt hi)
    obtain ⟨l, hl, r, hr⟩ := h n n.lt_succ_self
    rw [decodeFrames] at hbefore ⊢
    rw [List.range_succ, List.foldl_append, List.foldl_cons, List.foldl_nil, decodeFrame]
    simp [hbefore, hl, hr]

theorem getInt16_ok (buffer : List UInt8) (offset : ℕ) (h : offset + 2 ≤ buffer.length) :
    ∃ q, getInt16 buffer offset = some q := by
  rw [getInt16, getUint_of_le h]
  exact ⟨_, rfl⟩

theorem decode_pcm16_stereo {buffer : List UInt8} {frames : ℕ}
    (h : headerBytes + frames * 4 ≤ buffer.length) (s : Scratch) :
    (s.decode buffer 0 2 frames).1 = true := by
  apply decodeFrames_ok
  intro i hi
  obtain ⟨left, hleft⟩ := getInt16_ok buffer (headerBytes + i * 2 * 2) (by omega)
  obtain ⟨right, hright⟩ := getInt16_ok buffer (headerBytes + i * 2 * 2 + 2) (by omega)
  refine ⟨.number (left / 32767), ?_, .number (right / 32767), ?_⟩
  · simp only [hleft, Option.map_some]
  · simp only [hright, Option.map_some, Nat.one_lt_ofNat, if_true]

def grow (frames : ℕ) (s : Scratch) : Scratch := if s.length < frames then { length := frames } else s

end Scratch

namespace Player

def configure (h : PacketHeader) (p : Player) : Player :=
  if (h.epoch : ℤ) ≠ p.stream.configEpoch ∨ (h.sampleRate : ℚ) ≠ p.stream.sampleRate ∨
      (h.channels : ℚ) ≠ p.stream.channels ∨ h.format ≠ p.stream.format then
    { p with
      stream :=
        { configEpoch := h.epoch
          sampleRate := h.sampleRate
          channels := h.channels
          format := h.format
          framesPerPacket := h.frames } }.ringReset
  else p

def account (seq byteLength : ℕ) (p : Player) : Player :=
  -- the sequence accounting; `>>> 0` makes the difference a 32-bit number
  let delta := ((seq : ℤ) - p.stats.lastSeq) % 2 ^ 32
  let stats :=
    if 0 ≤ p.stats.lastSeq then
      if delta = 0 ∨ 0x80000000 < delta then { p.stats with reordered := p.stats.reordered + 1 }
      else if 1 < delta then { p.stats with lost := p.stats.lost + (delta - 1).toNat }
      else p.stats
    else p.stats
  { p with
    stats :=
      { stats with
        lastSeq := seq
        packets := stats.packets + 1
        bytes := stats.bytes + byteLength
        bytesWindow := stats.bytesWindow + byteLength } }

def handlePacket (T : Player → TargetFrames) (buffer : List UInt8) (p : Player) : Player :=
  -- `T` is what the page computes for `targetFrames ()`
  if buffer.length < headerBytes then p
  else if uint 4 buffer 0 ≠ magic then p
  else if uint 1 buffer 4 ≠ version then p
  else
    let h := readHeader buffer
    let p := p.configure h
    let p := if h.flags &&& 1 ≠ 0 then p.ringReset else p
    let p := p.account h.seq buffer.length
    let decoded := (p.scratch.grow h.frames).decode buffer h.format h.channels h.frames
    let p := { p with scratch := decoded.2 }
    -- a RangeError leaves what was decoded before it in the arrays
    if decoded.1 then p.ringPush (T p) p.scratch.l p.scratch.r h.frames else p

theorem handlePacket_pushes (T : Player → TargetFrames) {p : Player} {buffer : List UInt8} {h : PacketHeader}
    (hlong : headerBytes ≤ buffer.length) (hmagic : uint 4 buffer 0 = magic)
    (hversion : uint 1 buffer 4 = version) (hheader : readHeader buffer = h)
    (hflags : h.flags &&& 1 = 0)
    (hdecode : ∀ s : Scratch, (s.decode buffer h.format h.channels h.frames).1 = true) :
    ∃ (stats : Stats) (scratch : Scratch),
      let r : Player := { p.configure h with stats, scratch }
      p.handlePacket T buffer = r.ringPush (T r) scratch.l scratch.r h.frames := by
  obtain ⟨q, hq⟩ : ∃ q, q = (p.configure h).account h.seq buffer.length := ⟨_, rfl⟩
  refine ⟨q.stats, ((q.scratch.grow h.frames).decode buffer h.format h.channels h.frames).2, ?_⟩
  rw [handlePacket, if_neg (Nat.not_lt.mpr hlong), if_neg (not_not.mpr hmagic),
    if_neg (not_not.mpr hversion), hheader]
  dsimp only
  rw [if_neg (not_not.mpr hflags), ← hq, if_pos (hdecode _)]
  rw [hq]
  rfl

end Player
end Ppm.Receiver

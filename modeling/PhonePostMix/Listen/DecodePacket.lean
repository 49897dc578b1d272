import PhonePostMix.Receiver.Decode

/-! How the command-line listener takes an audio packet. -/

namespace Ppm.Listen
open Receiver (Value headerBytes magic uint getUint getInt16)

structure Header where
  format : ℕ
  channels : ℕ
  seq : ℕ
  sampleRate : ℕ
  frames : ℕ
  epoch : ℕ
  deriving DecidableEq, Repr

def readHeader (payload : List UInt8) : Header where
  format := uint 1 payload 5
  channels := uint 1 payload 6
  seq := uint 4 payload 8
  sampleRate := uint 4 payload 12
  frames := uint 2 payload 16
  epoch := uint 2 payload 18

structure State where
  packets : ℕ := 0
  bytes : ℕ := 0
  lost : ℕ := 0
  lastSeq : ℤ := -1
  peak : WithTop ℚ := 0
  sampleRate : ℕ := 0
  channels : ℕ := 0
  format : ℤ := -1
  frames : ℕ := 0
  epoch : ℤ := -1
  wavChunks : List (List UInt8) := []

/-- How `decodePacket` ends: it returns, ends the process, or throws a RangeError. -/
inductive Outcome
  | returned
  | exited
  | rangeError
  deriving DecidableEq, Repr

def readSample (body : List UInt8) (format i : ℕ) : Option Value :=
  -- sample `i` of the body. An index past the end of a `Buffer` reads as undefined, which the
  -- bitwise operators take for zero
  match format with
  | 0 => (getInt16 body (i * 2)).map fun q => .ratio q 32767
  | 1 =>
    let byte (k : ℕ) : ℕ := (body.getD k 0).toNat
    let raw := byte (i * 3) ||| byte (i * 3 + 1) <<< 8 ||| byte (i * 3 + 2) <<< 16
    some (.ratio (if raw &&& 0x800000 ≠ 0 then (raw : ℤ) - 0x1000000 else raw) 8388607)
  | _ => (getUint 4 body (i * 4)).map .pattern

def magnitude (value : Value) : Option (WithTop ℚ) :=
  -- `Math.abs`; none is NaN
  value.sample.abs

def measure (body : List UInt8) (format : ℕ) (state : Bool × State) (i : ℕ) : Bool × State :=
  if !state.1 then state
  else
    match readSample body format i with
    | none => (false, state.2)
    | some value =>
      match magnitude value with
      | none => state
      | some m => if state.2.peak < m then (true, { state.2 with peak := m }) else state

def account (seq byteLength : ℕ) (s : State) : State :=
  let delta := ((seq : ℤ) - s.lastSeq) % 2 ^ 32
  let lost :=
    if 0 ≤ s.lastSeq ∧ 1 < delta ∧ delta < 0x80000000 then s.lost + (delta - 1).toNat else s.lost
  { s with lost, lastSeq := seq, packets := s.packets + 1, bytes := s.bytes + byteLength }

def decodePacket (wav : Bool) (payload : List UInt8) (s : State) : Outcome × State :=
  if payload.length < headerBytes then (.returned, s)
  else if uint 4 payload 0 ≠ magic then (.returned, s)
  else if uint 1 payload 4 ≠ 1 then (.exited, s)
  else
    let h := readHeader payload
    let s := { s with epoch := h.epoch }
    let s := account h.seq payload.length s
    let s :=
      { s with
        sampleRate := h.sampleRate
        channels := h.channels
        format := h.format
        frames := h.frames }
    let samples := h.frames * h.channels
    let body := payload.drop headerBytes
    let measured := (List.range samples).foldl (measure body h.format) (true, s)
    if measured.1 then
      (.returned,
        if wav then { measured.2 with wavChunks := measured.2.wavChunks ++ [body] } else measured.2)
    else (.rangeError, measured.2)

theorem measure_ok (body : List UInt8) (format n : ℕ) (s : State)
    (h : ∀ i < n, readSample body format i ≠ none) :
    ((List.range n).foldl (measure body format) (true, s)).1 = true := by
  induction n with
  | zero => rfl
  | succ n ih =>
    have hbefore := ih fun i hi => h i (Nat.lt_succ_of_lt hi)
    obtain ⟨value, hvalue⟩ := Option.ne_none_iff_exists'.mp (h n n.lt_succ_self)
    rw [List.range_succ, List.foldl_append, List.foldl_cons, List.foldl_nil, measure, hbefore,
      hvalue]
    simp only [Bool.not_true, Bool.false_eq_true, if_false]
    split
    · exact hbefore
    · split_ifs
      · rfl
      · exact hbefore

theorem decodePacket_returns {payload : List UInt8} (hversion : uint 1 payload 4 = 1)
    (h : ∀ i < (readHeader payload).frames * (readHeader payload).channels,
      readSample (payload.drop headerBytes) (readHeader payload).format i ≠ none)
    (wav : Bool) (s : State) : (decodePacket wav payload s).1 = .returned := by
  rw [decodePacket]
  by_cases hlen : payload.length < headerBytes
  · rw [if_pos hlen]
  by_cases hmagic : uint 4 payload 0 ≠ magic
  · rw [if_neg hlen, if_pos hmagic]
  · rw [if_neg hlen, if_neg hmagic, if_neg (not_not.mpr hversion)]
    dsimp only
    rw [if_pos (measure_ok _ _ _ _ h)]

end Ppm.Listen

import Mathlib.Data.List.TakeDrop
import PhonePostMix.Core.ByteString
import PhonePostMix.Library.ByteOrder

/-! WebSocket frames and the incremental parser for client-to-server frames. -/

namespace Ppm.WebSocket
open ByteOrder

/-- A four-bit opcode as the parser casts it, the reserved values included. -/
structure Opcode where
  code : UInt8
  deriving DecidableEq, Repr

namespace Opcode

def continuation : Opcode := ⟨0x0⟩
def text : Opcode := ⟨0x1⟩
def binary : Opcode := ⟨0x2⟩
def close : Opcode := ⟨0x8⟩
def ping : Opcode := ⟨0x9⟩
def pong : Opcode := ⟨0xA⟩

def isControl (o : Opcode) : Bool := o.code &&& 0x08 != 0

end Opcode

structure Frame where
  opcode : Opcode
  fin : Bool
  payload : List UInt8
  deriving DecidableEq, Repr

def frameHeader (opcode : Opcode) (payloadSize : Nat) : List UInt8 :=
  (0x80 ||| opcode.code) ::
    if payloadSize < 126 then [payloadSize.toUInt8]
    else if payloadSize ≤ 0xffff then
      [126, byteAt payloadSize 8, byteAt payloadSize 0]
    else 127 :: [56, 48, 40, 32, 24, 16, 8, 0].map (byteAt payloadSize)

def writeFrame (out : List UInt8) (opcode : Opcode) (payload : List UInt8) : List UInt8 :=
  out ++ frameHeader opcode payload.length ++ payload

def writeTextFrame (out : List UInt8) (text : List UInt8) : List UInt8 :=
  writeFrame out .text text

structure Reassembly where
  assembling : Bool := false
  assemblyOpcode : Opcode := .binary
  assembly : List UInt8 := []
  deriving DecidableEq, Repr

structure FrameParser where
  maxPayloadSize : Nat
  incoming : List UInt8 := []
  consumed : Nat := 0
  reassembly : Reassembly := {}
  errored : Bool := false
  errorMessage : String := ""
  deriving DecidableEq, Repr

def payloadLength (size7 : UInt8) (rest : List UInt8) : Option (Nat × Nat) :=
  if size7 = 126 then
    if rest.length < 2 then none else some (bigEndian (rest.take 2), 2)
  else if size7 = 127 then
    if rest.length < 8 then none else some (bigEndian (rest.take 8), 8)
  else some (size7.toNat, 0)

def unmask (mask body : List UInt8) : List UInt8 :=
  body.mapIdx fun i b => b ^^^ mask.getD (i % 4) 0

/-- What the unread bytes amount to: too few of them, a violation, an allocation that
throws, or one frame and the number of bytes it takes. -/
inductive Reading where
  | needMore
  | failed (message : String)
  | threw (e : Exception)
  | frame (f : Frame) (size : Nat)

def readFrame (maxPayloadSize : Nat) (view : List UInt8) : Reading :=
  -- the part of `nextFrame` that reads one frame off the wire
  match view with
  | b0 :: b1 :: rest =>
    match payloadLength (b1 &&& 0x7f) rest with
    | none => .needMore
    | some (payloadSize, extended) =>
      if b1 &&& 0x80 = 0 then .failed "client sent an unmasked frame"
      else if payloadSize > maxPayloadSize then
        .failed "client frame exceeds the maximum payload size"
      else
        let maskOffset := 2 + extended
        let headerSize := maskOffset + 4
        if view.length < (headerSize + payloadSize) % sizeModulus then .needMore
        -- the sum above wraps only for sizes no vector can have
        else if payloadSize > maxVectorSize then .threw .lengthError
        else
          let mask := (view.drop maskOffset).take 4
          let body := (view.drop headerSize).take payloadSize
          .frame ⟨⟨b0 &&& 0x0f⟩, b0 &&& 0x80 != 0, unmask mask body⟩ (headerSize + payloadSize)
  | _ => .needMore

theorem payloadLength_le {size7 : UInt8} {rest : List UInt8} {n k : Nat}
    (h : payloadLength size7 rest = some (n, k)) : k ≤ 8 ∧ k ≤ rest.length := by
  unfold payloadLength at h
  split_ifs at h
  all_goals
    obtain ⟨_, rfl⟩ := Prod.mk.inj (Option.some.inj h)
    omega

theorem payloadLength_append {size7 : UInt8} {rest : List UInt8} {x : Nat × Nat}
    (h : payloadLength size7 rest = some x) (more : List UInt8) :
    payloadLength size7 (rest ++ more) = some x := by
  unfold payloadLength at h ⊢
  simp only [List.length_append]
  split_ifs at h ⊢ with h126 h2 h2' h127 h8 h8'
  · omega
  · rwa [List.take_append_of_le_length (by omega)]
  · omega
  · rwa [List.take_append_of_le_length (by omega)]
  · exact h

theorem frameSize_lt {extended payloadSize : Nat} (hext : extended ≤ 8)
    (hvec : payloadSize ≤ maxVectorSize) :
    (2 + extended + 4 + payloadSize) % sizeModulus = 2 + extended + 4 + payloadSize := by
  apply Nat.mod_eq_of_lt
  simp only [sizeModulus, maxVectorSize] at *
  omega

theorem readFrame_frame {max size : Nat} {view : List UInt8} {f : Frame}
    (h : readFrame max view = .frame f size) :
    ∃ b0 b1 rest payloadSize extended, view = b0 :: b1 :: rest ∧
      payloadLength (b1 &&& 0x7f) rest = some (payloadSize, extended) ∧
      b1 &&& 0x80 ≠ 0 ∧ payloadSize ≤ max ∧ size = 2 + extended + 4 + payloadSize ∧
      size ≤ view.length ∧
      f = ⟨⟨b0 &&& 0x0f⟩, b0 &&& 0x80 != 0,
        unmask ((view.drop (2 + extended)).take 4)
          ((view.drop (2 + extended + 4)).take payloadSize)⟩ := by
  unfold readFrame at h
  split at h
  case h_2 => cases h
  case h_1 b0 b1 rest =>
    split at h
    case h_1 => cases h
    case h_2 payloadSize extended hlen =>
      dsimp only at h
      split at h
      · cases h
      rename_i hmask
      split at h
      · cases h
      split at h
      · cases h
      rename_i hmax havail
      split at h
      · cases h
      rename_i hvec
      obtain ⟨rfl, rfl⟩ := Reading.frame.inj h
      rw [frameSize_lt (payloadLength_le hlen).1 (Nat.not_lt.mp hvec)] at havail
      exact ⟨b0, b1, rest, payloadSize, extended, rfl, hlen, hmask, Nat.not_lt.mp hmax, rfl,
        Nat.not_lt.mp havail, rfl⟩

theorem readFrame_size {max size : Nat} {view : List UInt8} {f : Frame}
    (h : readFrame max view = .frame f size) : 6 ≤ size ∧ size ≤ view.length := by
  obtain ⟨_, _, _, _, _, _, _, _, _, hsize, hle, _⟩ := readFrame_frame h
  exact ⟨by omega, hle⟩

theorem readFrame_append {max : Nat} {view : List UInt8}
    (h : readFrame max view ≠ .needMore) (more : List UInt8) :
    readFrame max (view ++ more) = readFrame max view := by
  match view with
  | [] => exact absurd rfl h
  | [_] => exact absurd rfl h
  | b0 :: b1 :: rest =>
    cases hlen : payloadLength (b1 &&& 0x7f) rest with
    | none => exact absurd (by simp only [readFrame, hlen]) h
    | some x =>
      obtain ⟨payloadSize, extended⟩ := x
      simp only [readFrame, List.cons_append, hlen, payloadLength_append hlen more] at h ⊢
      by_cases hmask : b1 &&& 0x80 = 0
      · simp only [if_pos hmask]
      by_cases hmax : payloadSize > max
      · simp only [if_neg hmask, if_pos hmax]
      simp only [if_neg hmask, if_neg hmax] at h ⊢
      by_cases havail : (b0 :: b1 :: rest).length < (2 + extended + 4 + payloadSize) % sizeModulus
      · exact absurd (if_pos havail) h
      have havail' : ¬ (b0 :: b1 :: (rest ++ more)).length <
          (2 + extended + 4 + payloadSize) % sizeModulus := by
        simp only [List.length_cons, List.length_append] at havail ⊢
        omega
      by_cases hvec : payloadSize > maxVectorSize
      · simp only [if_neg havail, if_neg havail', if_pos hvec]
      simp only [if_neg havail, if_neg havail', if_neg hvec]
      rw [frameSize_lt (payloadLength_le hlen).1 (Nat.not_lt.mp hvec)] at havail
      have hview : b0 :: b1 :: (rest ++ more) = (b0 :: b1 :: rest) ++ more := rfl
      rw [hview, List.drop_append_of_le_length (by omega), List.drop_append_of_le_length (by omega),
        List.take_append_of_le_length (by rw [List.length_drop]; omega),
        List.take_append_of_le_length (by rw [List.length_drop]; omega)]

def Reassembly.accept (maxPayloadSize : Nat) (r : Reassembly) (f : Frame) :
    Except String (Option Frame) × Reassembly :=
  -- the part of `nextFrame` after a frame has been read: what the caller gets, if anything
  if f.opcode.isControl then (.ok (some ⟨f.opcode, true, f.payload⟩), r)
  else if f.opcode = .continuation then
    if !r.assembling then (.error "continuation frame with no message in progress", r)
    else
      let r := { r with assembly := r.assembly ++ f.payload }
      if r.assembly.length > maxPayloadSize then
        (.error "reassembled message exceeds the maximum payload size", r)
      else if !f.fin then (.ok none, r)
      else
        (.ok (some ⟨r.assemblyOpcode, true, r.assembly⟩),
          { r with assembling := false, assembly := [] })
  else if f.fin then (.ok (some ⟨f.opcode, true, f.payload⟩), r)
  else (.ok none, { assembling := true, assemblyOpcode := f.opcode, assembly := f.payload })

namespace FrameParser

def hasError (p : FrameParser) : Bool := p.errored

def fail (p : FrameParser) (message : String) : FrameParser :=
  { p with errored := true, errorMessage := message }

def unread (p : FrameParser) : List UInt8 := p.incoming.drop p.consumed

def push (p : FrameParser) (data : List UInt8) : FrameParser :=
  if p.errored then p
  else
    -- drop the already-parsed prefix before growing
    let p :=
      if 0 < p.consumed ∧ p.consumed = p.incoming.length then
        { p with incoming := [], consumed := 0 }
      else if p.consumed > 4096 then
        { p with incoming := p.incoming.drop p.consumed, consumed := 0 }
      else p
    { p with incoming := p.incoming ++ data }

/-- How one pass of the loop in `nextFrame` ends; a consumed frame that yields no message
goes round again. -/
inductive Pass where
  | needMore
  | failed (p : FrameParser)
  | threw (e : Exception)
  | consumed (f : Frame) (p : FrameParser) (message : Option Frame)

def pass (p : FrameParser) : Pass :=
  match readFrame p.maxPayloadSize p.unread with
  | .needMore => .needMore
  | .failed message => .failed (p.fail message)
  | .threw e => .threw e
  | .frame f size =>
    let p := { p with consumed := p.consumed + size }
    match p.reassembly.accept p.maxPayloadSize f with
    | (.error message, r) => .failed ({ p with reassembly := r }.fail message)
    | (.ok message, r) => .consumed f { p with reassembly := r } message

theorem pass_consumed {p p' : FrameParser} {f : Frame} {m : Option Frame}
    (h : p.pass = .consumed f p' m) :
    ∃ size r, readFrame p.maxPayloadSize p.unread = .frame f size ∧
      p.reassembly.accept p.maxPayloadSize f = (.ok m, r) ∧
      p' = { p with consumed := p.consumed + size, reassembly := r } := by
  unfold pass at h
  split at h
  case h_1 => cases h
  case h_2 => cases h
  case h_3 => cases h
  case h_4 g size hread =>
    dsimp only at h
    split at h
    · cases h
    case h_2 message r hacc =>
      obtain ⟨rfl, rfl, rfl⟩ := Pass.consumed.inj h
      exact ⟨size, r, hread, hacc, rfl⟩

theorem pass_consumed_unread {p p' : FrameParser} {f : Frame} {m : Option Frame}
    (h : p.pass = .consumed f p' m) : p'.unread.length < p.unread.length := by
  obtain ⟨size, r, hread, -, rfl⟩ := pass_consumed h
  have hsize := readFrame_size hread
  simp only [unread, List.length_drop] at hsize ⊢
  omega

def nextFrame (p : FrameParser) : Except Exception (Option Frame) × FrameParser :=
  if p.errored then (.ok none, p)
  else
    match _h : p.pass with
    | .needMore => (.ok none, p)
    | .failed p' => (.ok none, p')
    | .threw e => (.error e, p)
    | .consumed _ p' (some message) => (.ok (some message), p')
    | .consumed _ p' none => p'.nextFrame
termination_by p.unread.length
decreasing_by exact pass_consumed_unread ‹_›

end FrameParser
end Ppm.WebSocket

import Mathlib.Data.Rat.Floor
import PhonePostMix.Library.Rounding
import PhonePostMix.Wire.Header

/-! The samples behind the header. -/

namespace Ppm.Wire
open Buffer ByteOrder Rounding

/-- A float as the formats see it: the integer formats its exact value, `float32` its pattern. -/
structure FloatSample where
  value : ℚ
  bits : UInt32

def bytesPerSample (format : Format) : ℕ :=
  if format = .pcm16 then 2
  else if format = .pcm24 then 3
  else if format = .float32 then 4
  else 4

def packetSize (info : PacketInfo) : ℕ :=
  headerBytes + info.frames.toNat * info.channels.toNat * bytesPerSample info.format

def lroundClamped (scale : ℕ) (sample : FloatSample) : ℤ :=
  -- `std::lround (clamped * scale)`, in exact arithmetic
  quantise scale sample.value

def pcm16Scale : ℕ := 32767
def pcm24Scale : ℕ := 8388607

def writeSamples (destination : List UInt8) (interleaved : ℕ → FloatSample) (numSamples : ℕ)
    (format : Format) : List UInt8 :=
  -- `destination` is the memory from the pointer on. A code outside the enumeration falls
  -- through the `switch`
  if format = .pcm16 then
    (List.range numSamples).foldl (fun d i =>
      let value := BitVec.ofInt 16 (lroundClamped pcm16Scale (interleaved i))
      writeLittleEndian 2 d (i * 2) value.toNat) destination
  else if format = .pcm24 then
    (List.range numSamples).foldl (fun d i =>
      let value := BitVec.ofInt 32 (lroundClamped pcm24Scale (interleaved i))
      let bits := value.toNat
      blit d (i * 3) [byteAt bits 0, byteAt bits 8, byteAt bits 16]) destination
  else if format = .float32 then
    (List.range numSamples).foldl (fun d i =>
      writeLittleEndian 4 d (i * 4) (interleaved i).bits.toNat) destination
  else destination

def writePacket (buffer : List UInt8) (info : PacketInfo) (interleaved : ℕ → FloatSample) :
    List UInt8 :=
  within headerBytes
    (fun d => writeSamples d interleaved (info.frames.toNat * info.channels.toNat) info.format)
    (writeHeader buffer info)

def sampleBytes (format : Format) (sample : FloatSample) : List UInt8 :=
  if format = .pcm16 then
    littleEndianBytes 2 (BitVec.ofInt 16 (lroundClamped pcm16Scale sample)).toNat
  else if format = .pcm24 then
    littleEndianBytes 3 (BitVec.ofInt 32 (lroundClamped pcm24Scale sample)).toNat
  else littleEndianBytes 4 sample.bits.toNat

@[simp] theorem length_sampleBytes (format : Format) (sample : FloatSample) :
    (sampleBytes format sample).length = bytesPerSample format := by
  unfold sampleBytes bytesPerSample
  split_ifs <;> exact length_littleEndianBytes _ _

def Format.Known (format : Format) : Prop :=
  format = .pcm16 ∨ format = .pcm24 ∨ format = .float32

theorem writeSamples_eq {format : Format} (h : format.Known) (destination : List UInt8)
    (interleaved : ℕ → FloatSample) (n : ℕ) :
    writeSamples destination interleaved n format =
      filled ((List.range n).flatMap fun i => sampleBytes format (interleaved i)) destination := by
  rcases h with rfl | rfl | rfl
  · exact foldl_blit (fun i => sampleBytes .pcm16 (interleaved i)) 2 (fun i => rfl) _ _
  · exact foldl_blit (fun i => sampleBytes .pcm24 (interleaved i)) 3 (fun i => rfl) _ _
  · exact foldl_blit (fun i => sampleBytes .float32 (interleaved i)) 4 (fun i => rfl) _ _

def payload (info : PacketInfo) (interleaved : ℕ → FloatSample) : List UInt8 :=
  (List.range (info.frames.toNat * info.channels.toNat)).flatMap fun i =>
    sampleBytes info.format (interleaved i)

theorem length_payload (info : PacketInfo) (interleaved : ℕ → FloatSample) :
    headerBytes + (payload info interleaved).length = packetSize info := by
  simp [payload, packetSize, List.length_flatMap]

theorem writePacket_eq {info : PacketInfo} (h : info.format.Known) {buffer : List UInt8}
    (hsize : buffer.length = packetSize info) (interleaved : ℕ → FloatSample) :
    writePacket buffer info interleaved = fields info ++ payload info interleaved := by
  have hpayload := length_payload info interleaved
  rw [writePacket, writeHeader_eq, within_filled _ _ _ (length_fields info).symm,
    writeSamples_eq h, filled, List.drop_drop]
  rw [payload] at hpayload
  rw [List.drop_of_length_le (by omega), List.append_nil, payload]

end Ppm.Wire

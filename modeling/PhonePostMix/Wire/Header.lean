import PhonePostMix.Library.Buffer
import PhonePostMix.Library.ByteOrder

/-! What an audio packet says about itself, and the 32 bytes in front of its samples that say it. -/

namespace Ppm.Wire
open Buffer ByteOrder

/-- A sample format, with every code the enumeration's type can hold. -/
structure Format where
  code : UInt8
  deriving DecidableEq, Repr

namespace Format

def pcm16 : Format := ⟨0⟩
def pcm24 : Format := ⟨1⟩
def float32 : Format := ⟨2⟩

end Format

namespace Flags

def none : UInt8 := 0
def discontinuity : UInt8 := 1
def silence : UInt8 := 2
def configChanged : UInt8 := 4

end Flags

structure PacketInfo where
  format : Format := .pcm16
  channels : UInt8 := 2
  flags : UInt8 := Flags.none
  sequence : UInt32 := 0
  sampleRate : UInt32 := 48000
  frames : UInt16 := 512
  configEpoch : UInt16 := 0
  sampleClock : UInt64 := 0
  senderTimeMs : UInt32 := 0
  deriving DecidableEq, Repr

def magic : List UInt8 := [0x50, 0x50, 0x4d, 0x58]

def protocolVersion : UInt8 := 1
def headerBytes : ℕ := 32

def writeLittleEndian (width : ℕ) (destination : List UInt8) (offset value : ℕ) : List UInt8 :=
  blit destination offset (littleEndianBytes width value)

def readLittleEndian (width : ℕ) (source : List UInt8) (offset : ℕ) : ℕ :=
  littleEndian ((source.drop offset).take width)

def writeHeader (destination : List UInt8) (info : PacketInfo) : List UInt8 :=
  -- `destination` is the memory from the pointer on; the caller has room for the header
  let d := blit destination 0 magic
  let d := blit d 4 [protocolVersion]
  let d := blit d 5 [info.format.code]
  let d := blit d 6 [info.channels]
  let d := blit d 7 [info.flags]
  let d := writeLittleEndian 4 d 8 info.sequence.toNat
  let d := writeLittleEndian 4 d 12 info.sampleRate.toNat
  let d := writeLittleEndian 2 d 16 info.frames.toNat
  let d := writeLittleEndian 2 d 18 info.configEpoch.toNat
  let d := writeLittleEndian 8 d 20 info.sampleClock.toNat
  writeLittleEndian 4 d 28 info.senderTimeMs.toNat

def readHeader (source : List UInt8) (info : PacketInfo) : Bool × PacketInfo :=
  -- whether the header was read, and `info` after the call
  if source.length < headerBytes then (false, info)
  else if source.take 4 ≠ magic then (false, info)
  else if source.getD 4 0 ≠ protocolVersion then (false, info)
  else
    (true,
      { format := ⟨source.getD 5 0⟩
        channels := source.getD 6 0
        flags := source.getD 7 0
        sequence := (readLittleEndian 4 source 8).toUInt32
        sampleRate := (readLittleEndian 4 source 12).toUInt32
        frames := (readLittleEndian 2 source 16).toUInt16
        configEpoch := (readLittleEndian 2 source 18).toUInt16
        sampleClock := (readLittleEndian 8 source 20).toUInt64
        senderTimeMs := (readLittleEndian 4 source 28).toUInt32 })

def fields (info : PacketInfo) : List UInt8 :=
  magic ++ [protocolVersion] ++ [info.format.code] ++ [info.channels] ++ [info.flags] ++
    littleEndianBytes 4 info.sequence.toNat ++ littleEndianBytes 4 info.sampleRate.toNat ++
    littleEndianBytes 2 info.frames.toNat ++ littleEndianBytes 2 info.configEpoch.toNat ++
    littleEndianBytes 8 info.sampleClock.toNat ++ littleEndianBytes 4 info.senderTimeMs.toNat

@[simp] theorem length_fields (info : PacketInfo) : (fields info).length = headerBytes := rfl

theorem writeHeader_eq (destination : List UInt8) (info : PacketInfo) :
    writeHeader destination info = filled (fields info) destination := by
  conv_lhs => rw [writeHeader, ← filled_nil destination]
  simp (disch := simp [magic]) only [writeLittleEndian, blit_filled, List.nil_append, fields]

theorem take_writeHeader (destination : List UInt8) (info : PacketInfo) :
    (writeHeader destination info).take headerBytes = fields info := by
  rw [writeHeader_eq, filled]
  exact List.take_left' (length_fields info)

section Values

theorem toUInt16_littleEndian (n : UInt16) :
    (littleEndian (littleEndianBytes 2 n.toNat)).toUInt16 = n := by
  have hlt : n.toNat < 256 ^ 2 := n.toNat_lt
  rw [littleEndian_littleEndianBytes, Nat.mod_eq_of_lt hlt]
  exact UInt16.ofNat_toNat

theorem toUInt32_littleEndian (n : UInt32) :
    (littleEndian (littleEndianBytes 4 n.toNat)).toUInt32 = n := by
  have hlt : n.toNat < 256 ^ 4 := n.toNat_lt
  rw [littleEndian_littleEndianBytes, Nat.mod_eq_of_lt hlt]
  exact UInt32.ofNat_toNat

theorem toUInt64_littleEndian (n : UInt64) :
    (littleEndian (littleEndianBytes 8 n.toNat)).toUInt64 = n := by
  have hlt : n.toNat < 256 ^ 8 := n.toNat_lt
  rw [littleEndian_littleEndianBytes, Nat.mod_eq_of_lt hlt]
  exact UInt64.ofNat_toNat

theorem littleEndianBytes_mod_readLittleEndian {source : List UInt8} {offset width : ℕ}
    (h : offset + width ≤ source.length) :
    littleEndianBytes width (readLittleEndian width source offset % 256 ^ width) =
      (source.drop offset).take width := by
  have hlen : ((source.drop offset).take width).length = width := by
    rw [List.length_take, List.length_drop]
    omega
  have hlt := littleEndian_lt ((source.drop offset).take width)
  have hback := littleEndianBytes_littleEndian ((source.drop offset).take width)
  rw [hlen] at hlt hback
  rw [readLittleEndian, Nat.mod_eq_of_lt hlt, hback]

end Values

theorem readHeader_fields (info old : PacketInfo) (rest : List UInt8) :
    readHeader (fields info ++ rest) old = (true, info) := by
  have hlen : ¬ (fields info ++ rest).length < headerBytes := by
    rw [List.length_append, length_fields]
    omega
  have hmagic : (fields info ++ rest).take 4 = magic := rfl
  have hversion : (fields info ++ rest).getD 4 0 = protocolVersion := rfl
  have hsequence : readLittleEndian 4 (fields info ++ rest) 8 =
      littleEndian (littleEndianBytes 4 info.sequence.toNat) := rfl
  have hrate : readLittleEndian 4 (fields info ++ rest) 12 =
      littleEndian (littleEndianBytes 4 info.sampleRate.toNat) := rfl
  have hframes : readLittleEndian 2 (fields info ++ rest) 16 =
      littleEndian (littleEndianBytes 2 info.frames.toNat) := rfl
  have hepoch : readLittleEndian 2 (fields info ++ rest) 18 =
      littleEndian (littleEndianBytes 2 info.configEpoch.toNat) := rfl
  have hclock : readLittleEndian 8 (fields info ++ rest) 20 =
      littleEndian (littleEndianBytes 8 info.sampleClock.toNat) := rfl
  have htime : readLittleEndian 4 (fields info ++ rest) 28 =
      littleEndian (littleEndianBytes 4 info.senderTimeMs.toNat) := rfl
  rw [readHeader, if_neg hlen, if_neg (not_not.mpr hmagic), if_neg (not_not.mpr hversion),
    hsequence, hrate, hframes, hepoch, hclock, htime, toUInt32_littleEndian, toUInt32_littleEndian,
    toUInt32_littleEndian, toUInt16_littleEndian, toUInt16_littleEndian, toUInt64_littleEndian]
  rfl

def Accepted (source : List UInt8) : Prop :=
  headerBytes ≤ source.length ∧ source.take 4 = magic ∧ source.getD 4 0 = protocolVersion

theorem readHeader_rejected {source : List UInt8} (h : ¬ Accepted source) (info : PacketInfo) :
    readHeader source info = (false, info) := by
  unfold readHeader
  split_ifs with hlen hmagic hversion
  · rfl
  · rfl
  · rfl
  · exact absurd ⟨Nat.not_lt.mp hlen, not_not.mp hmagic, not_not.mp hversion⟩ h

theorem readHeader_accepted {source : List UInt8} (h : Accepted source) (info : PacketInfo) :
    (readHeader source info).1 = true ∧
      fields (readHeader source info).2 = source.take headerBytes := by
  obtain ⟨hlen, hmagic, hversion⟩ := h
  have hbyte (i : ℕ) (hi : i < 32) : [source.getD i 0] = (source.drop i).take 1 := by
    have hlt : i < source.length := lt_of_lt_of_le hi hlen
    rw [List.drop_eq_getElem_cons hlt, List.getD_eq_getElem?_getD, List.getElem?_eq_getElem hlt]
    rfl
  have hslice (i k : ℕ) (hi : i + k ≤ 32) := littleEndianBytes_mod_readLittleEndian (hi.trans hlen)
  rw [readHeader, if_neg (Nat.not_lt.mpr hlen), if_neg (not_not.mpr hmagic),
    if_neg (not_not.mpr hversion)]
  refine ⟨rfl, ?_⟩
  have hsequence : littleEndianBytes 4 (readLittleEndian 4 source 8).toUInt32.toNat =
      (source.drop 8).take 4 := hslice 8 4 (by decide)
  have hrate : littleEndianBytes 4 (readLittleEndian 4 source 12).toUInt32.toNat =
      (source.drop 12).take 4 := hslice 12 4 (by decide)
  have hframes : littleEndianBytes 2 (readLittleEndian 2 source 16).toUInt16.toNat =
      (source.drop 16).take 2 := hslice 16 2 (by decide)
  have hepoch : littleEndianBytes 2 (readLittleEndian 2 source 18).toUInt16.toNat =
      (source.drop 18).take 2 := hslice 18 2 (by decide)
  have hclock : littleEndianBytes 8 (readLittleEndian 8 source 20).toUInt64.toNat =
      (source.drop 20).take 8 := hslice 20 8 (by decide)
  have htime : littleEndianBytes 4 (readLittleEndian 4 source 28).toUInt32.toNat =
      (source.drop 28).take 4 := hslice 28 4 (by decide)
  have hsplit : source.take headerBytes = source.take (4 + 1 + 1 + 1 + 1 + 4 + 4 + 2 + 2 + 8 + 4) :=
    rfl
  rw [fields, ← hmagic, ← hversion, hsequence, hrate, hframes, hepoch, hclock, htime,
    hbyte 4 (by decide), hbyte 5 (by decide), hbyte 6 (by decide), hbyte 7 (by decide), hsplit]
  repeat rw [List.take_add]

end Ppm.Wire

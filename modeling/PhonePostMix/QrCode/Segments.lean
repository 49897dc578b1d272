import PhonePostMix.Core.ByteString
import PhonePostMix.Library.Radix
import PhonePostMix.QrCode.ErrorCorrection

/-! From a text to the data codewords of the smallest symbol that holds it, and back. -/

namespace Ppm.QrCode
open Radix

def appendBits (bb : List Bool) (val len : ℕ) : Except Error (List Bool) :=
  if 31 < len ∨ val >>> len ≠ 0 then .error (.domainError "Value out of range")
  else .ok (bb ++ bitsOf len val)

theorem appendBits_ok {val len : ℕ} (hlen : len ≤ 31) (hval : val < 2 ^ len) (bb : List Bool) :
    appendBits bb val len = .ok (bb ++ bitsOf len val) := by
  refine if_neg ?_
  rw [Nat.shiftRight_eq_div_pow, Nat.div_eq_of_lt hval]
  omega

structure Mode where
  modeBits : ℕ
  numBitsCharCount : List ℕ
  deriving DecidableEq, Repr

namespace Mode

def numeric : Mode := ⟨0x1, [10, 12, 14]⟩
def alphanumeric : Mode := ⟨0x2, [9, 11, 13]⟩
def byte : Mode := ⟨0x4, [8, 16, 16]⟩

def numCharCountBits (mode : Mode) (ver : Version) : ℕ :=
  mode.numBitsCharCount.getD ((ver.number + 7) / 17) 0

end Mode

structure QrSegment where
  mode : Mode
  numChars : ℕ
  data : List Bool

def intMax : ℕ := 2 ^ 31 - 1

/-- What `makeNumeric` and `makeAlphanumeric` do not have in common. -/
structure Alphabet extends Grouping where
  mode : Mode
  value : UInt8 → Option ℕ
  what : String

def alphanumericCharset : List UInt8 := ascii "0123456789ABCDEFGHIJKLMNOPQRSTUVWXYZ $%*+-./:"

namespace Alphabet

def numeric : Alphabet where
  base := 10
  group := 3
  bits := 10
  rest n := n * 3 + 1
  mode := .numeric
  value c := if c < 0x30 ∨ 0x39 < c then none else some (c.toNat - 0x30)
  what := "String contains non-numeric characters"

def alphanumeric : Alphabet where
  base := 45
  group := 2
  bits := 11
  rest _ := 6
  mode := .alphanumeric
  value c := if c ∈ alphanumericCharset then some (alphanumericCharset.idxOf c) else none
  what := "String contains unencodable characters in alphanumeric mode"

end Alphabet

structure Packing where
  bb : List Bool := []
  accumData : ℕ := 0
  accumCount : ℕ := 0
  charCount : ℕ := 0

def packStep (a : Alphabet) (s : Packing) (c : UInt8) : Except Error Packing :=
  match a.value c with
  | none => .error (.domainError a.what)
  | some v => do
    let accumData := s.accumData * a.base + v
    let accumCount := s.accumCount + 1
    if accumCount = a.group then
      return { bb := ← appendBits s.bb accumData a.bits, charCount := s.charCount + 1 }
    else return { s with accumData, accumCount, charCount := s.charCount + 1 }

def packRest (a : Alphabet) (s : Packing) : Except Error (List Bool) :=
  if 0 < s.accumCount then appendBits s.bb s.accumData (a.rest s.accumCount) else .ok s.bb

def pack (a : Alphabet) (text : List UInt8) : Except Error QrSegment := do
  let s ← text.foldlM (packStep a) {}
  return ⟨a.mode, s.charCount, ← packRest a s⟩

def makeNumeric (digits : List UInt8) : Except Error QrSegment := pack .numeric digits

def makeAlphanumeric (text : List UInt8) : Except Error QrSegment := pack .alphanumeric text

def makeBytes (data : List UInt8) : Except Error QrSegment :=
  if intMax < data.length then .error (.lengthError "Data too long")
  else do return ⟨.byte, data.length, ← data.foldlM (fun bb b => appendBits bb b.toNat 8) []⟩

def isNumeric (text : List UInt8) : Bool := text.all fun c => 0x30 ≤ c ∧ c ≤ 0x39

def isAlphanumeric (text : List UInt8) : Bool := text.all (· ∈ alphanumericCharset)

def cString (memory : List UInt8) : List UInt8 :=
  -- the characters of a string in memory
  memory.takeWhile (· ≠ 0)

def makeSegments (text : List UInt8) : Except Error (List QrSegment) :=
  let text := cString text
  if text = [] then .ok []
  else if isNumeric text then do return [← makeNumeric text]
  else if isAlphanumeric text then do return [← makeAlphanumeric text]
  else do return [← makeBytes text]

def getTotalBits (ver : Version) (result : ℕ) : List QrSegment → Option ℕ
  -- `none` stands for `-1`: a length that does not fit its field, or a sum that does not fit
  | [] => some result
  | seg :: segs =>
    let ccbits := seg.mode.numCharCountBits ver
    if 2 ^ ccbits ≤ seg.numChars then none
    else if intMax - result < 4 + ccbits then none
    else
      let result := result + (4 + ccbits)
      if intMax - result < seg.data.length then none
      else getTotalBits ver (result + seg.data.length) segs

def findVersion (segs : List QrSegment) (ecl : Ecc) : List Version → Except Error (Version × ℕ)
  -- the search for the minimal version, with the versions that are left to try
  | [] => .error (.invalidArgument "Invalid value")
  | ver :: rest =>
    let dataCapacityBits := getNumDataCodewords ver ecl * 8
    match getTotalBits ver 0 segs with
    | some dataUsedBits =>
      if dataUsedBits ≤ dataCapacityBits then .ok (ver, dataUsedBits)
      else if rest = [] then
        .error (.dataTooLong
          s!"Data length = {dataUsedBits} bits, Max capacity = {dataCapacityBits} bits")
      else findVersion segs ecl rest
    | none =>
      if rest = [] then .error (.dataTooLong "Segment too long") else findVersion segs ecl rest

def boost (ver : Version) (dataUsedBits : ℕ) (boostEcl : Bool) (ecl : Ecc) : Ecc :=
  -- the highest level that still holds the data, if the level is to be raised
  [Ecc.medium, .quartile, .high].foldl (fun ecl newEcl =>
    if boostEcl ∧ dataUsedBits ≤ getNumDataCodewords ver newEcl * 8 then newEcl else ecl) ecl

def concatenate (ver : Version) (segs : List QrSegment) : Except Error (List Bool) :=
  segs.foldlM (fun bb seg => do
    let bb ← appendBits bb seg.mode.modeBits 4
    let bb ← appendBits bb seg.numChars (seg.mode.numCharCountBits ver)
    return bb ++ seg.data) []

def padBytes (dataCapacityBits : ℕ) (bb : List Bool) (padByte : UInt8) : List Bool :=
  if bb.length < dataCapacityBits then
    padBytes dataCapacityBits (bb ++ bitsOf 8 padByte.toNat) (padByte ^^^ (0xec ^^^ 0x11))
  else bb
termination_by dataCapacityBits - bb.length
decreasing_by
  rw [List.length_append, length_bitsOf]
  omega

def packBits (bb : List Bool) : List UInt8 :=
  (List.range (bb.length / 8)).map fun k =>
    (List.range 8).foldl
      (fun byte j => byte ||| (if bb.getD (8 * k + j) false then 1 else 0) <<< (7 - j).toUInt8) 0

def pad (dataCapacityBits : ℕ) (bb : List Bool) : Except Error (List UInt8) := do
  let bb ← appendBits bb 0 (min 4 (dataCapacityBits - bb.length))
  let bb ← appendBits bb 0 ((8 - bb.length % 8) % 8)
  return packBits (padBytes dataCapacityBits bb 0xec)

def encodeData (segs : List QrSegment) (ecl : Ecc) (minVersion maxVersion mask : ℤ)
    (boostEcl : Bool) : Except Error (Version × Ecc × List UInt8) :=
  -- `encodeSegments`, up to the drawing of the symbol
  if ¬ (1 ≤ minVersion ∧ minVersion ≤ maxVersion ∧ maxVersion ≤ 40) ∨ mask < -1 ∨ 7 < mask then
    .error (.invalidArgument "Invalid value")
  else do
    let (ver, dataUsedBits) ← findVersion segs ecl ((List.finRange 40).filter fun ver : Version =>
      minVersion ≤ ver.number ∧ ver.number ≤ maxVersion)
    let ecl := boost ver dataUsedBits boostEcl ecl
    let bb ← concatenate ver segs
    return (ver, ecl, ← pad (getNumDataCodewords ver ecl * 8) bb)

end Ppm.QrCode

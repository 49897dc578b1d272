import PhonePostMix.QrCode.Modules
import PhonePostMix.QrCode.ReadData

/-! A scanner, which goes by the patterns and the tables of the standard. -/

namespace Ppm.QrCode.Scanner
open Radix ReedSolomon

section Tables

def alignmentCoordinates : List (List ℕ) :=
  -- by version, the rows and columns that the alignment patterns are centered on
  [[], [6, 18], [6, 22], [6, 26], [6, 30], [6, 34], [6, 22, 38], [6, 24, 42], [6, 26, 46],
    [6, 28, 50], [6, 30, 54], [6, 32, 58], [6, 34, 62], [6, 26, 46, 66], [6, 26, 48, 70],
    [6, 26, 50, 74], [6, 30, 54, 78], [6, 30, 56, 82], [6, 30, 58, 86], [6, 34, 62, 90],
    [6, 28, 50, 72, 94], [6, 26, 50, 74, 98], [6, 30, 54, 78, 102], [6, 28, 54, 80, 106],
    [6, 32, 58, 84, 110], [6, 30, 58, 86, 114], [6, 34, 62, 90, 118], [6, 26, 50, 74, 98, 122],
    [6, 30, 54, 78, 102, 126], [6, 26, 52, 78, 104, 130], [6, 30, 56, 82, 108, 134],
    [6, 34, 60, 86, 112, 138], [6, 30, 58, 86, 114, 142], [6, 34, 62, 90, 118, 146],
    [6, 30, 54, 78, 102, 126, 150], [6, 24, 50, 76, 102, 128, 154], [6, 28, 54, 80, 106, 132, 158],
    [6, 32, 58, 84, 110, 136, 162], [6, 26, 54, 82, 110, 138, 166], [6, 30, 58, 86, 114, 142, 170]]

def versionWords : List ℕ :=
  [0x07C94, 0x085BC, 0x09A99, 0x0A4D3, 0x0BBF6, 0x0C762, 0x0D847, 0x0E60D, 0x0F928, 0x10B78,
    0x1145D, 0x12A17, 0x13532, 0x149A6, 0x15683, 0x168C9, 0x177EC, 0x18EC4, 0x191E1, 0x1AFAB,
    0x1B08E, 0x1CC1A, 0x1D33F, 0x1ED75, 0x1F250, 0x209D5, 0x216F0, 0x228BA, 0x2379F, 0x24B0B,
    0x2542E, 0x26A64, 0x27541, 0x28C69]

def formatWords : Ecc → List ℕ
  | .low => [0x77C4, 0x72F3, 0x7DAA, 0x789D, 0x662F, 0x6318, 0x6C41, 0x6976]
  | .medium => [0x5412, 0x5125, 0x5E7C, 0x5B4B, 0x45F9, 0x40CE, 0x4F97, 0x4AA0]
  | .quartile => [0x355F, 0x3068, 0x3F31, 0x3A06, 0x24B4, 0x2183, 0x2EDA, 0x2BED]
  | .high => [0x1689, 0x13BE, 0x1CE7, 0x19D0, 0x0762, 0x0255, 0x0D0C, 0x083B]

def conditions : List (ℕ → ℕ → Bool) :=
  -- the modules that a mask inverts, by row and column
  [fun i j => (i + j) % 2 = 0, fun i _ => i % 2 = 0, fun _ j => j % 3 = 0,
    fun i j => (i + j) % 3 = 0, fun i j => (i / 2 + j / 3) % 2 = 0,
    fun i j => i * j % 2 + i * j % 3 = 0, fun i j => (i * j % 2 + i * j % 3) % 2 = 0,
    fun i j => (i * j % 3 + (i + j) % 2) % 2 = 0]

/-- How the codewords are divided: `ecc` for error correction in each of `short` blocks with `data`
more, and in each of `long` blocks with one more than these. -/
structure Blocks where
  ecc : ℕ
  short : ℕ
  data : ℕ
  long : ℕ
  deriving DecidableEq

def blockTable : List (List Blocks) :=
  [[⟨7, 1, 19, 0⟩, ⟨10, 1, 16, 0⟩, ⟨13, 1, 13, 0⟩, ⟨17, 1, 9, 0⟩],
    [⟨10, 1, 34, 0⟩, ⟨16, 1, 28, 0⟩, ⟨22, 1, 22, 0⟩, ⟨28, 1, 16, 0⟩],
    [⟨15, 1, 55, 0⟩, ⟨26, 1, 44, 0⟩, ⟨18, 2, 17, 0⟩, ⟨22, 2, 13, 0⟩],
    [⟨20, 1, 80, 0⟩, ⟨18, 2, 32, 0⟩, ⟨26, 2, 24, 0⟩, ⟨16, 4, 9, 0⟩],
    [⟨26, 1, 108, 0⟩, ⟨24, 2, 43, 0⟩, ⟨18, 2, 15, 2⟩, ⟨22, 2, 11, 2⟩],
    [⟨18, 2, 68, 0⟩, ⟨16, 4, 27, 0⟩, ⟨24, 4, 19, 0⟩, ⟨28, 4, 15, 0⟩],
    [⟨20, 2, 78, 0⟩, ⟨18, 4, 31, 0⟩, ⟨18, 2, 14, 4⟩, ⟨26, 4, 13, 1⟩],
    [⟨24, 2, 97, 0⟩, ⟨22, 2, 38, 2⟩, ⟨22, 4, 18, 2⟩, ⟨26, 4, 14, 2⟩],
    [⟨30, 2, 116, 0⟩, ⟨22, 3, 36, 2⟩, ⟨20, 4, 16, 4⟩, ⟨24, 4, 12, 4⟩],
    [⟨18, 2, 68, 2⟩, ⟨26, 4, 43, 1⟩, ⟨24, 6, 19, 2⟩, ⟨28, 6, 15, 2⟩],
    [⟨20, 4, 81, 0⟩, ⟨30, 1, 50, 4⟩, ⟨28, 4, 22, 4⟩, ⟨24, 3, 12, 8⟩],
    [⟨24, 2, 92, 2⟩, ⟨22, 6, 36, 2⟩, ⟨26, 4, 20, 6⟩, ⟨28, 7, 14, 4⟩],
    [⟨26, 4, 107, 0⟩, ⟨22, 8, 37, 1⟩, ⟨24, 8, 20, 4⟩, ⟨22, 12, 11, 4⟩],
    [⟨30, 3, 115, 1⟩, ⟨24, 4, 40, 5⟩, ⟨20, 11, 16, 5⟩, ⟨24, 11, 12, 5⟩],
    [⟨22, 5, 87, 1⟩, ⟨24, 5, 41, 5⟩, ⟨30, 5, 24, 7⟩, ⟨24, 11, 12, 7⟩],
    [⟨24, 5, 98, 1⟩, ⟨28, 7, 45, 3⟩, ⟨24, 15, 19, 2⟩, ⟨30, 3, 15, 13⟩],
    [⟨28, 1, 107, 5⟩, ⟨28, 10, 46, 1⟩, ⟨28, 1, 22, 15⟩, ⟨28, 2, 14, 17⟩],
    [⟨30, 5, 120, 1⟩, ⟨26, 9, 43, 4⟩, ⟨28, 17, 22, 1⟩, ⟨28, 2, 14, 19⟩],
    [⟨28, 3, 113, 4⟩, ⟨26, 3, 44, 11⟩, ⟨26, 17, 21, 4⟩, ⟨26, 9, 13, 16⟩],
    [⟨28, 3, 107, 5⟩, ⟨26, 3, 41, 13⟩, ⟨30, 15, 24, 5⟩, ⟨28, 15, 15, 10⟩],
    [⟨28, 4, 116, 4⟩, ⟨26, 17, 42, 0⟩, ⟨28, 17, 22, 6⟩, ⟨30, 19, 16, 6⟩],
    [⟨28, 2, 111, 7⟩, ⟨28, 17, 46, 0⟩, ⟨30, 7, 24, 16⟩, ⟨24, 34, 13, 0⟩],
    [⟨30, 4, 121, 5⟩, ⟨28, 4, 47, 14⟩, ⟨30, 11, 24, 14⟩, ⟨30, 16, 15, 14⟩],
    [⟨30, 6, 117, 4⟩, ⟨28, 6, 45, 14⟩, ⟨30, 11, 24, 16⟩, ⟨30, 30, 16, 2⟩],
    [⟨26, 8, 106, 4⟩, ⟨28, 8, 47, 13⟩, ⟨30, 7, 24, 22⟩, ⟨30, 22, 15, 13⟩],
    [⟨28, 10, 114, 2⟩, ⟨28, 19, 46, 4⟩, ⟨28, 28, 22, 6⟩, ⟨30, 33, 16, 4⟩],
    [⟨30, 8, 122, 4⟩, ⟨28, 22, 45, 3⟩, ⟨30, 8, 23, 26⟩, ⟨30, 12, 15, 28⟩],
    [⟨30, 3, 117, 10⟩, ⟨28, 3, 45, 23⟩, ⟨30, 4, 24, 31⟩, ⟨30, 11, 15, 31⟩],
    [⟨30, 7, 116, 7⟩, ⟨28, 21, 45, 7⟩, ⟨30, 1, 23, 37⟩, ⟨30, 19, 15, 26⟩],
    [⟨30, 5, 115, 10⟩, ⟨28, 19, 47, 10⟩, ⟨30, 15, 24, 25⟩, ⟨30, 23, 15, 25⟩],
    [⟨30, 13, 115, 3⟩, ⟨28, 2, 46, 29⟩, ⟨30, 42, 24, 1⟩, ⟨30, 23, 15, 28⟩],
    [⟨30, 17, 115, 0⟩, ⟨28, 10, 46, 23⟩, ⟨30, 10, 24, 35⟩, ⟨30, 19, 15, 35⟩],
    [⟨30, 17, 115, 1⟩, ⟨28, 14, 46, 21⟩, ⟨30, 29, 24, 19⟩, ⟨30, 11, 15, 46⟩],
    [⟨30, 13, 115, 6⟩, ⟨28, 14, 46, 23⟩, ⟨30, 44, 24, 7⟩, ⟨30, 59, 16, 1⟩],
    [⟨30, 12, 121, 7⟩, ⟨28, 12, 47, 26⟩, ⟨30, 39, 24, 14⟩, ⟨30, 22, 15, 41⟩],
    [⟨30, 6, 121, 14⟩, ⟨28, 6, 47, 34⟩, ⟨30, 46, 24, 10⟩, ⟨30, 2, 15, 64⟩],
    [⟨30, 17, 122, 4⟩, ⟨28, 29, 46, 14⟩, ⟨30, 49, 24, 10⟩, ⟨30, 24, 15, 46⟩],
    [⟨30, 4, 122, 18⟩, ⟨28, 13, 46, 32⟩, ⟨30, 48, 24, 14⟩, ⟨30, 42, 15, 32⟩],
    [⟨30, 20, 117, 4⟩, ⟨28, 40, 47, 7⟩, ⟨30, 43, 24, 22⟩, ⟨30, 10, 15, 67⟩],
    [⟨30, 19, 118, 6⟩, ⟨28, 18, 47, 31⟩, ⟨30, 34, 24, 34⟩, ⟨30, 20, 15, 61⟩]]

def level : Ecc → ℕ
  | .low => 0
  | .medium => 1
  | .quartile => 2
  | .high => 3

end Tables
section Patterns

def stamp (rows : List ℕ) (corner : Place) : List (Place × Bool) :=
  -- the rows of a picture, as numbers whose bits are the dark modules, with its corner at a
  -- place
  (List.range rows.length).flatMap fun y => (List.range rows.length).map fun x =>
    ((corner.1 + x, corner.2 + y), (rows.getD y 0).testBit x)

def finder : List ℕ :=
  [0b1111111, 0b1000001, 0b1011101, 0b1011101, 0b1011101, 0b1000001, 0b1111111]

def alignment : List ℕ := [0b11111, 0b10001, 0b10101, 0b10001, 0b11111]

def side (ver : Version) : ℕ := 17 + 4 * ver.number

def finderCorners (ver : Version) : List Place := [(0, 0), (side ver - 7, 0), (0, side ver - 7)]

def separators (ver : Version) : List Place :=
  (List.range 8).flatMap fun i => [(7, i), (i, 7), (side ver - 8, i), (side ver - 8 + i, 7),
    (i, side ver - 8), (7, side ver - 8 + i)]

def alignmentCenters (ver : Version) : List Place :=
  -- wherever the coordinates cross, but for the three finders
  let coordinates := alignmentCoordinates.getD ver []
  (coordinates ×ˢ coordinates).filter fun c =>
    c ≠ (6, 6) ∧ c ≠ (6, side ver - 7) ∧ c ≠ (side ver - 7, 6)

def patterns (ver : Version) : List (Place × Bool) :=
  -- what every symbol of a version looks like
  (finderCorners ver).flatMap (stamp finder) ++ (separators ver).map (·, false) ++
    ((List.range (side ver - 16)).flatMap fun i =>
      [((8 + i, 6), decide (i % 2 = 0)), ((6, 8 + i), decide (i % 2 = 0))]) ++
    ((alignmentCenters ver).flatMap fun c => stamp alignment (c.1 - 2, c.2 - 2)) ++
    [((8, side ver - 8), true)]

def versionCopies (ver : Version) : List (List Place) :=
  -- the two copies of the version, from the lowest bit on
  [(List.range 18).map fun i => (side ver - 11 + i % 3, i / 3),
    (List.range 18).map fun i => (i / 3, side ver - 11 + i % 3)]

def formatCopies (ver : Version) : List (List Place) :=
  -- the two copies of the format, from the lowest bit on
  [[(8, 0), (8, 1), (8, 2), (8, 3), (8, 4), (8, 5), (8, 7), (8, 8), (7, 8), (5, 8), (4, 8), (3, 8),
      (2, 8), (1, 8), (0, 8)],
    ((List.range 8).map fun i => (side ver - 1 - i, 8)) ++
      (List.range 7).map fun i => (8, side ver - 7 + i)]

def versionInformation (ver : Version) : List Bool :=
  (List.range 18).map (versionWords.getD (ver.number - 7) 0).testBit

def formatInformation (ecl : Ecc) (msk : ℕ) : List Bool :=
  (List.range 15).map ((formatWords ecl).getD msk 0).testBit

end Patterns
section Codewords

def Reserved (ver : Version) (p : Place) : Prop :=
  p.1 = 6 ∨ p.2 = 6 ∨ (p.1 < 9 ∧ p.2 < 9) ∨ (side ver - 8 ≤ p.1 ∧ p.2 < 9) ∨
    (p.1 < 9 ∧ side ver - 8 ≤ p.2) ∨
    (∃ c ∈ alignmentCenters ver,
      (c.1 ≤ p.1 + 2 ∧ p.1 ≤ c.1 + 2) ∧ c.2 ≤ p.2 + 2 ∧ p.2 ≤ c.2 + 2) ∨
    (7 ≤ ver.number ∧ ((p.1 < 6 ∧ side ver - 11 ≤ p.2 ∧ p.2 < side ver - 8) ∨
      (side ver - 11 ≤ p.1 ∧ p.1 < side ver - 8 ∧ p.2 < 6)))

instance (ver : Version) (p : Place) : Decidable (Reserved ver p) :=
  inferInstanceAs (Decidable (_ ∨ _ ∨ _ ∨ _ ∨ _ ∨ _ ∨ _))

def scan (side : ℕ) : List Place :=
  -- the pairs of columns from the right, the first one upwards and every other one back; the
  -- column of the timing pattern belongs to none
  (List.range ((side - 1) / 2)).flatMap fun k =>
    let right := if side - 1 - 2 * k ≤ 6 then side - 2 - 2 * k else side - 1 - 2 * k
    let rows := if k % 2 = 0 then (List.range side).reverse else List.range side
    rows.flatMap fun y => [(right, y), (right - 1, y)]

def dataModules (ver : Version) : List Place := (scan (side ver)).filter fun p => ¬ Reserved ver p

def bytes : List Bool → List UInt8
  -- bytes from the highest bit on; what fills none at the end is left out
  | b7 :: b6 :: b5 :: b4 :: b3 :: b2 :: b1 :: b0 :: bits =>
    (ofBits [b7, b6, b5, b4, b3, b2, b1, b0]).toUInt8 :: bytes bits
  | _ => []

def codewords (ver : Version) (msk : ℕ) (modules : Place → Bool) : List UInt8 :=
  bytes ((dataModules ver).map fun p =>
    modules p ^^ (conditions.getD msk fun _ _ => false) p.2 p.1)

namespace Blocks
variable (b : Blocks)

def count : ℕ := b.short + b.long

def size (j : ℕ) : ℕ := if j < b.short then b.data else b.data + 1

def order : List (ℕ × ℕ) :=
  -- every codeword by block and index: the data of the blocks in turn, and then their error
  -- correction
  ((List.range (b.data + 1)).flatMap fun i =>
    ((List.range b.count).filter fun j => i < b.size j).map (·, i)) ++
  (List.range b.ecc).flatMap fun i => (List.range b.count).map fun j => (j, b.size j + i)

def block (codewords : List UInt8) (j : ℕ) : List UInt8 :=
  (List.range (b.size j + b.ecc)).map fun i =>
    Placement.place (fun _ => 0) b.order codewords (j, i)

def Corrected (codewords data : List UInt8) : Prop :=
  -- every block of the codewords is taken for the word of the code that is near enough
  ∃ dats : ℕ → List UInt8, (List.range b.count).flatMap dats = data ∧
    ∀ j < b.count, (dats j).length = b.size j ∧
      2 * distance (codeword (divisor Galois.two b.ecc) (word (dats j)))
        (word (b.block codewords j)) ≤ b.ecc

end Blocks

def blocks (ver : Version) (ecl : Ecc) : Blocks :=
  (blockTable.getD ver []).getD (level ecl) ⟨0, 0, 0, 0⟩

/-- The modules of a square say this text: the patterns are there, and the version, the format and
every block are taken for what is near enough. -/
def Reads (size : ℕ) (modules : Place → Bool) (text : List UInt8) : Prop :=
  ∃ ver, size = side ver ∧ (∀ pattern ∈ patterns ver, modules pattern.1 = pattern.2) ∧
    (7 ≤ ver.number → ∀ copy ∈ versionCopies ver,
      distance (versionInformation ver) (copy.map modules) ≤ 3) ∧
    ∃ ecl, ∃ msk < 8,
      (∀ copy ∈ formatCopies ver, distance (formatInformation ecl msk) (copy.map modules) ≤ 3) ∧
      ∃ data, (blocks ver ecl).Corrected (codewords ver msk modules) data ∧
        readData ver data = some text

end Codewords
end Ppm.QrCode.Scanner

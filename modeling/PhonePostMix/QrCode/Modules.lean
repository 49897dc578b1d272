import Mathlib.Data.Int.Order.Basic
import PhonePostMix.QrCode.Segments

/-! The modules of a symbol: the function patterns, the codewords in a zigzag, and the mask with the
least penalty. -/

namespace Ppm.QrCode

abbrev Place := ℕ × ℕ

/-- A square of modules is dark or light at its places; nothing is read outside of it. -/
@[ext]
structure Grid where
  modules : Place → Bool
  isFunction : Place → Bool

structure Call where
  x : ℤ
  y : ℤ
  isDark : Bool

def Call.place (c : Call) : Place := (c.x.toNat, c.y.toNat)

def Inside (size : ℕ) (x y : ℤ) : Prop := 0 ≤ x ∧ x < size ∧ 0 ≤ y ∧ y < size

instance (size : ℕ) (x y : ℤ) : Decidable (Inside size x y) := inferInstanceAs (Decidable (_ ∧ _))

def setFunctionModule (size : ℕ) (g : Grid) (c : Call) : Except Error Grid :=
  if Inside size c.x c.y then
    .ok ⟨Function.update g.modules c.place c.isDark, Function.update g.isFunction c.place true⟩
  else .error .outOfRange

def setFunctionModules (size : ℕ) (g : Grid) (calls : List Call) : Except Error Grid :=
  calls.foldlM (setFunctionModule size) g

def Version.size (ver : Version) : ℕ := ver.number * 4 + 17

section FunctionPatterns

def offsets (r : ℕ) : List ℤ := (List.range (2 * r + 1)).map fun i : ℕ => (i : ℤ) - r

def chebyshev (dx dy : ℤ) : ℤ := max |dx| |dy|

def drawTimingPatterns (size : ℕ) : List Call :=
  (List.range size).flatMap fun i : ℕ => [⟨6, i, i % 2 = 0⟩, ⟨i, 6, i % 2 = 0⟩]

def drawFinderPattern (size : ℕ) (x y : ℤ) : List Call :=
  (offsets 4).flatMap fun dy => (offsets 4).flatMap fun dx =>
    if Inside size (x + dx) (y + dy) then
      [⟨x + dx, y + dy, chebyshev dx dy ≠ 2 ∧ chebyshev dx dy ≠ 4⟩]
    else []

def drawAlignmentPattern (x y : ℤ) : List Call :=
  (offsets 2).flatMap fun dy => (offsets 2).map fun dx => ⟨x + dx, y + dy, chebyshev dx dy ≠ 1⟩

def getAlignmentPatternPositions (ver : Version) : List ℤ :=
  if ver.number = 1 then []
  else
    let numAlign := ver.number / 7 + 2
    let step := (ver.number * 8 + numAlign * 3 + 5) / (numAlign * 4 - 4) * 2
    6 :: ((List.range (numAlign - 1)).foldl
      (fun (s : List ℤ × ℤ) _ => (s.2 :: s.1, s.2 - step)) ([], (ver.size : ℤ) - 7)).1

def drawAlignmentPatterns (alignPatPos : List ℤ) : List Call :=
  let numAlign := alignPatPos.length
  (List.range numAlign).flatMap fun i => (List.range numAlign).flatMap fun j =>
    -- not on the three finder corners
    if ¬ ((i = 0 ∧ j = 0) ∨ (i = 0 ∧ j = numAlign - 1) ∨ (i = numAlign - 1 ∧ j = 0)) then
      drawAlignmentPattern (alignPatPos.getD i 0) (alignPatPos.getD j 0)
    else []

def getFormatBits : Ecc → ℕ
  | .low => 1
  | .medium => 0
  | .quartile => 3
  | .high => 2

def formatBits (ecl : Ecc) (msk : ℕ) : ℕ :=
  let data := getFormatBits ecl <<< 3 ||| msk
  let rem := (List.range 10).foldl (fun rem _ => rem <<< 1 ^^^ (rem >>> 9) * 0x537) data
  (data <<< 10 ||| rem) ^^^ 0x5412

def drawFormatBits (size : ℕ) (ecl : Ecc) (msk : ℕ) : List Call :=
  let bit := (formatBits ecl msk).testBit
  (List.range 6).map (fun i : ℕ => ⟨8, i, bit i⟩) ++
    [⟨8, 7, bit 6⟩, ⟨8, 8, bit 7⟩, ⟨7, 8, bit 8⟩] ++
    (List.range 6).map (fun i : ℕ => ⟨14 - (9 + i : ℕ), 8, bit (9 + i)⟩) ++
    (List.range 8).map (fun i : ℕ => ⟨(size : ℤ) - 1 - i, 8, bit i⟩) ++
    (List.range 7).map (fun i : ℕ => ⟨8, (size : ℤ) - 15 + (8 + i : ℕ), bit (8 + i)⟩) ++
    [⟨8, (size : ℤ) - 8, true⟩]

def versionBits (ver : Version) : ℕ :=
  let rem := (List.range 12).foldl (fun rem _ => rem <<< 1 ^^^ (rem >>> 11) * 0x1F25) ver.number
  ver.number <<< 12 ||| rem

def drawVersion (ver : Version) : List Call :=
  if ver.number < 7 then []
  else
    (List.range 18).flatMap fun i : ℕ =>
      let bit := (versionBits ver).testBit i
      let a := (ver.size : ℤ) - 11 + (i % 3 : ℕ)
      let b := ((i / 3 : ℕ) : ℤ)
      [⟨a, b, bit⟩, ⟨b, a, bit⟩]

def drawFunctionPatterns (ver : Version) (ecl : Ecc) : List Call :=
  drawTimingPatterns ver.size ++
    drawFinderPattern ver.size 3 3 ++
    drawFinderPattern ver.size ((ver.size : ℤ) - 4) 3 ++
    drawFinderPattern ver.size 3 ((ver.size : ℤ) - 4) ++
    drawAlignmentPatterns (getAlignmentPatternPositions ver) ++
    drawFormatBits ver.size ecl 0 ++
    drawVersion ver

end FunctionPatterns
section Codewords

def columnPairs (right : ℕ) : List ℕ :=
  -- the right columns of the pairs, from right to left, without the column of the timing pattern
  if hright : right < 1 then []
  else
    let right' := if right = 6 then 5 else right
    right' :: columnPairs (right' - 2)
termination_by right
decreasing_by
  show (if right = 6 then 5 else right) - 2 < right
  split_ifs <;> omega

def zigzag (size : ℕ) : List Place :=
  (columnPairs (size - 1)).flatMap fun right => (List.range size).flatMap fun vert =>
    (List.range 2).map fun j =>
      (right - j, if (right + 1) &&& 2 = 0 then size - 1 - vert else vert)

def drawCodewordStep (isFunction : Place → Bool) (data : List UInt8)
    (s : (Place → Bool) × ℕ) (p : Place) : (Place → Bool) × ℕ :=
  -- one place of the scan; `s.2` is the bit index into the data
  if !isFunction p ∧ s.2 < data.length * 8 then
    (Function.update s.1 p ((data.getD (s.2 >>> 3) 0).toNat.testBit (7 - (s.2 &&& 7))), s.2 + 1)
  else s

def drawCodewords (ver : Version) (g : Grid) (data : List UInt8) : Except Error Grid :=
  if data.length ≠ getNumRawDataModules ver / 8 then .error (.invalidArgument "Invalid argument")
  else
    .ok { g with modules :=
      ((zigzag ver.size).foldl (drawCodewordStep g.isFunction data) (g.modules, 0)).1 }

end Codewords
section Masks

def invert (msk : ℕ) (p : Place) : Bool :=
  let (x, y) := p
  match msk with
  | 0 => (x + y) % 2 = 0
  | 1 => y % 2 = 0
  | 2 => x % 3 = 0
  | 3 => (x + y) % 3 = 0
  | 4 => (x / 3 + y / 2) % 2 = 0
  | 5 => x * y % 2 + x * y % 3 = 0
  | 6 => (x * y % 2 + x * y % 3) % 2 = 0
  | 7 => ((x + y) % 2 + x * y % 3) % 2 = 0
  | _ => false

def applyMask (msk : ℕ) (g : Grid) : Except Error Grid :=
  if 7 < msk then .error (.domainError "Mask value out of range")
  else .ok { g with modules := fun p => g.modules p ^^ (invert msk p && !g.isFunction p) }

def penaltyN1 : ℤ := 3
def penaltyN2 : ℤ := 3
def penaltyN3 : ℤ := 40
def penaltyN4 : ℤ := 10

section Penalty
variable (size : ℕ)

def finderPenaltyAddHistory (currentRunLength : ℕ) (runHistory : List ℕ) : List ℕ :=
  (if runHistory.getD 0 0 = 0 then currentRunLength + size else currentRunLength) ::
    runHistory.take 6

def finderPenaltyCountPatterns (runHistory : List ℕ) : ℤ :=
  let h := fun i => runHistory.getD i 0
  let n := h 1
  let core := 0 < n ∧ h 2 = n ∧ h 3 = n * 3 ∧ h 4 = n ∧ h 5 = n
  (if core ∧ n * 4 ≤ h 0 ∧ n ≤ h 6 then 1 else 0) + (if core ∧ n * 4 ≤ h 6 ∧ n ≤ h 0 then 1 else 0)

def finderPenaltyTerminateAndCount (currentRunColor : Bool) (currentRunLength : ℕ)
    (runHistory : List ℕ) : ℤ :=
  let (currentRunLength, runHistory) :=
    if currentRunColor then (0, finderPenaltyAddHistory size currentRunLength runHistory)
    else (currentRunLength, runHistory)
  finderPenaltyCountPatterns (finderPenaltyAddHistory size (currentRunLength + size) runHistory)

structure Run where
  runColor : Bool := false
  length : ℕ := 0
  runHistory : List ℕ := List.replicate 7 0
  result : ℤ := 0

def runStep (s : Run) (color : Bool) : Run :=
  if color = s.runColor then
    let length := s.length + 1
    { s with
      length
      result :=
        if length = 5 then s.result + penaltyN1
        else if 5 < length then s.result + 1
        else s.result }
  else
    let runHistory := finderPenaltyAddHistory size s.length s.runHistory
    { runColor := color
      length := 1
      runHistory
      result :=
        if !s.runColor then s.result + finderPenaltyCountPatterns runHistory * penaltyN3
        else s.result }

def linePenalty (line : List Bool) : ℤ :=
  let s := line.foldl (runStep size) {}
  s.result + finderPenaltyTerminateAndCount size s.runColor s.length s.runHistory * penaltyN3

def getPenaltyScore (module : Place → Bool) : ℤ :=
  let rows := ((List.range size).map fun y =>
    linePenalty size ((List.range size).map fun x => module (x, y))).sum
  let columns := ((List.range size).map fun x =>
    linePenalty size ((List.range size).map fun y => module (x, y))).sum
  let blocks := ((List.range (size - 1)).map fun y => ((List.range (size - 1)).map fun x =>
    if module (x, y) = module (x + 1, y) ∧ module (x, y) = module (x, y + 1) ∧
        module (x, y) = module (x + 1, y + 1) then penaltyN2 else 0).sum).sum
  let dark : ℤ := ((List.range size).map fun y =>
    (List.range size).countP fun x => module (x, y)).sum
  let total : ℤ := size * size
  let k := (|dark * 20 - total * 10| + total - 1).tdiv total - 1
  rows + columns + blocks + k * penaltyN4

end Penalty

def longMax : ℤ :=
  -- what `LONG_MAX` is at least
  2 ^ 31 - 1

structure MaskChoice where
  grid : Grid
  msk : ℤ
  minPenalty : ℤ

def tryMask (ver : Version) (ecl : Ecc) (s : MaskChoice) (i : ℕ) : Except Error MaskChoice := do
  let grid ← applyMask i s.grid
  let grid ← setFunctionModules ver.size grid (drawFormatBits ver.size ecl i)
  let penalty := getPenaltyScore ver.size grid.modules
  let (msk, minPenalty) :=
    if penalty < s.minPenalty then ((i : ℤ), penalty) else (s.msk, s.minPenalty)
  return ⟨← applyMask i grid, msk, minPenalty⟩

def chooseMask (ver : Version) (ecl : Ecc) (g : Grid) : Except Error MaskChoice :=
  (List.range 8).foldlM (tryMask ver ecl) ⟨g, -1, longMax⟩

end Masks

structure Symbol where
  version : Version
  errorCorrectionLevel : Ecc
  mask : ℕ
  modules : Place → Bool

namespace Symbol

def draw (ver : Version) (ecl : Ecc) (dataCodewords : List UInt8) (msk : ℤ) :
    Except Error Symbol := do
  if msk < -1 ∨ 7 < msk then throw (.domainError "Mask value out of range")
  let g ← setFunctionModules ver.size ⟨fun _ => false, fun _ => false⟩
    (drawFunctionPatterns ver ecl)
  let allCodewords ← addEccAndInterleave ver ecl dataCodewords
  let g ← drawCodewords ver g allCodewords
  let (g, msk) ←
    if msk = -1 then do
      let choice ← chooseMask ver ecl g
      pure (choice.grid, choice.msk)
    else pure (g, msk)
  let g ← applyMask msk.toNat g
  let g ← setFunctionModules ver.size g (drawFormatBits ver.size ecl msk.toNat)
  return ⟨ver, ecl, msk.toNat, g.modules⟩

def getModule (code : Symbol) (x y : ℤ) : Bool :=
  Inside code.version.size x y && code.modules (x.toNat, y.toNat)

end Symbol

def encodeSegments (segs : List QrSegment) (ecl : Ecc) (minVersion maxVersion mask : ℤ)
    (boostEcl : Bool) : Except Error Symbol := do
  let (ver, ecl, dataCodewords) ← encodeData segs ecl minVersion maxVersion mask boostEcl
  Symbol.draw ver ecl dataCodewords mask

def encodeText (text : List UInt8) (ecl : Ecc) : Except Error Symbol := do
  encodeSegments (← makeSegments text) ecl 1 40 (-1) true

end Ppm.QrCode

import Mathlib.Data.Fintype.Basic
import PhonePostMix.Library.Placement
import PhonePostMix.Library.ReedSolomon
import PhonePostMix.QrCode.Galois

/-! The codewords of a symbol: the data in blocks, each with its error correction, interleaved. -/

namespace Ppm.QrCode
open ReedSolomon

inductive Error where
  | domainError (what : String)
  | lengthError (what : String)
  | invalidArgument (what : String)
  | dataTooLong (what : String)
  -- `std::out_of_range`, from `std::vector::at`.
  | outOfRange
  deriving DecidableEq, Repr

inductive Ecc where
  | low
  | medium
  | quartile
  | high
  deriving DecidableEq, Repr

instance : Fintype Ecc := ⟨{.low, .medium, .quartile, .high}, fun ecl => by cases ecl <;> decide⟩

abbrev Version := Fin 40

def Version.number (ver : Version) : ℕ := ver.val + 1

def eccCodewordsPerBlock : Ecc → List ℕ
  -- the rows of the table, without the entry at index zero, which no version has
  | .low => [7, 10, 15, 20, 26, 18, 20, 24, 30, 18, 20, 24, 26, 30, 22, 24, 28, 30, 28, 28, 28, 28,
    30, 30, 26, 28, 30, 30, 30, 30, 30, 30, 30, 30, 30, 30, 30, 30, 30, 30]
  | .medium => [10, 16, 26, 18, 24, 16, 18, 22, 22, 26, 30, 22, 22, 24, 24, 28, 28, 26, 26, 26, 26,
    28, 28, 28, 28, 28, 28, 28, 28, 28, 28, 28, 28, 28, 28, 28, 28, 28, 28, 28]
  | .quartile => [13, 22, 18, 26, 18, 24, 18, 22, 20, 24, 28, 26, 24, 20, 30, 24, 28, 28, 26, 30,
    28, 30, 30, 30, 30, 28, 30, 30, 30, 30, 30, 30, 30, 30, 30, 30, 30, 30, 30, 30]
  | .high => [17, 28, 22, 16, 22, 28, 26, 26, 24, 28, 24, 28, 22, 24, 24, 30, 28, 28, 26, 28, 30,
    24, 30, 30, 30, 30, 30, 30, 30, 30, 30, 30, 30, 30, 30, 30, 30, 30, 30, 30]

def numErrorCorrectionBlocks : Ecc → List ℕ
  | .low => [1, 1, 1, 1, 1, 2, 2, 2, 2, 4, 4, 4, 4, 4, 6, 6, 6, 6, 7, 8, 8, 9, 9, 10, 12, 12, 12,
    13, 14, 15, 16, 17, 18, 19, 19, 20, 21, 22, 24, 25]
  | .medium => [1, 1, 1, 2, 2, 4, 4, 4, 5, 5, 5, 8, 9, 9, 10, 10, 11, 13, 14, 16, 17, 17, 18, 20,
    21, 23, 25, 26, 28, 29, 31, 33, 35, 37, 38, 40, 43, 45, 47, 49]
  | .quartile => [1, 1, 2, 2, 4, 4, 6, 6, 8, 8, 8, 10, 12, 16, 12, 17, 16, 18, 21, 20, 23, 23, 25,
    27, 29, 34, 34, 35, 38, 40, 43, 45, 48, 51, 53, 56, 59, 62, 65, 68]
  | .high => [1, 1, 2, 4, 4, 4, 5, 6, 8, 8, 11, 11, 16, 16, 18, 16, 19, 21, 25, 25, 25, 34, 30, 32,
    35, 37, 40, 42, 45, 48, 51, 54, 57, 60, 63, 66, 70, 74, 77, 81]

def getNumRawDataModules (ver : Version) : ℕ :=
  -- all modules that are left for data, with the bits that fill no codeword
  let v := ver.number
  let numAlign := v / 7 + 2
  (16 * v + 128) * v + 64 -
    (if v ≥ 2 then (25 * numAlign - 10) * numAlign - 55 + (if v ≥ 7 then 36 else 0) else 0)

section Layout
variable (ver : Version) (ecl : Ecc)

def numBlocks : ℕ := (numErrorCorrectionBlocks ecl).getD ver 0

def blockEccLen : ℕ := (eccCodewordsPerBlock ecl).getD ver 0

def rawCodewords : ℕ := getNumRawDataModules ver / 8

def getNumDataCodewords : ℕ := rawCodewords ver - blockEccLen ver ecl * numBlocks ver ecl

def numShortBlocks : ℕ := numBlocks ver ecl - rawCodewords ver % numBlocks ver ecl

def shortBlockLen : ℕ := rawCodewords ver / numBlocks ver ecl

def padIndex : ℕ :=
  -- the index at which the short blocks are padded
  shortBlockLen ver ecl - blockEccLen ver ecl

def blockDataLen (i : ℕ) : ℕ := padIndex ver ecl + if i < numShortBlocks ver ecl then 0 else 1

end Layout

def reedSolomonStep (root : UInt8) : List UInt8 → List UInt8
  | [] => []
  | [c] => [reedSolomonMultiply c root]
  | c :: d :: rest => (reedSolomonMultiply c root ^^^ d) :: reedSolomonStep root (d :: rest)

def reedSolomonComputeDivisor (degree : ℕ) : Except Error (List UInt8) :=
  -- coefficients from the highest power on, without the leading one
  if degree < 1 ∨ 255 < degree then .error (.domainError "Degree out of range")
  else
    .ok ((List.range degree).foldl
      (fun (s : List UInt8 × UInt8) _ => (reedSolomonStep s.2 s.1, reedSolomonMultiply s.2 0x02))
      (List.replicate (degree - 1) 0 ++ [1], 1)).1

def remainderPass (divisor result : List UInt8) (b : UInt8) : List UInt8 :=
  let factor := b ^^^ result.headD 0
  List.zipWith (fun r d => r ^^^ reedSolomonMultiply d factor) (result.tail ++ [0]) divisor

def reedSolomonComputeRemainder (data divisor : List UInt8) : List UInt8 :=
  data.foldl (remainderPass divisor) (List.replicate divisor.length 0)

def makeBlock (ver : Version) (ecl : Ecc) (rsDiv dat : List UInt8) (i : ℕ) : List UInt8 :=
  -- a block with its error correction; a short one with the padding between the two
  dat ++ (if i < numShortBlocks ver ecl then [0] else []) ++ reedSolomonComputeRemainder dat rsDiv

def makeBlocks (ver : Version) (ecl : Ecc) (data rsDiv : List UInt8) : List (List UInt8) :=
  -- the loop over the blocks; `k` is where the next one begins
  ((List.range (numBlocks ver ecl)).foldl
    (fun (s : List (List UInt8) × ℕ) i =>
      let dat := (data.drop s.2).take (blockDataLen ver ecl i)
      (s.1 ++ [makeBlock ver ecl rsDiv dat i], s.2 + dat.length)) ([], 0)).1

def interleave (ver : Version) (ecl : Ecc) (blocks : List (List UInt8)) : List UInt8 :=
  (List.range (blocks.headD []).length).flatMap fun i =>
    (List.range blocks.length).flatMap fun j =>
      if i ≠ padIndex ver ecl ∨ j ≥ numShortBlocks ver ecl then [(blocks.getD j []).getD i 0]
      else []

def addEccAndInterleave (ver : Version) (ecl : Ecc) (data : List UInt8) :
    Except Error (List UInt8) :=
  if data.length ≠ getNumDataCodewords ver ecl then .error (.invalidArgument "Invalid argument")
  else do
    let rsDiv ← reedSolomonComputeDivisor (blockEccLen ver ecl)
    return interleave ver ecl (makeBlocks ver ecl data rsDiv)

section Tables

theorem numBlocks_pos : ∀ ver ecl, 0 < numBlocks ver ecl := by decide +kernel

theorem blockEccLen_bounds : ∀ ver ecl, 1 ≤ blockEccLen ver ecl ∧ blockEccLen ver ecl ≤ 255 := by
  decide +kernel

theorem blockEccLen_lt : ∀ ver ecl, blockEccLen ver ecl < shortBlockLen ver ecl := by decide +kernel

theorem shortBlockLen_lt : ∀ ver ecl, shortBlockLen ver ecl < 255 := by decide +kernel

end Tables

section Arithmetic

abbrev word (l : List UInt8) : List Galois := l.map Galois.mk

theorem word_injective {l m : List UInt8} (h : word l = word m) : l = m :=
  List.map_injective_iff.mpr (fun _ _ hb => congrArg Galois.byte hb) h

theorem distance_word (l m : List UInt8) : distance (word l) (word m) = distance l m := by
  rw [distance, distance, List.zip_map, List.countP_map]
  refine List.countP_congr fun p _ => ?_
  simp [Galois.ext_iff]

theorem word_reedSolomonStep (root : UInt8) (l : List UInt8) :
    word (reedSolomonStep root l) = timesRoot ⟨root⟩ (word l) := by
  induction l using reedSolomonStep.induct with
  | case1 => rfl
  | case2 c => exact congrArg ([·]) (Galois.multiply c root)
  | case3 c d rest ih =>
    have hfirst : (⟨reedSolomonMultiply c root ^^^ d⟩ : Galois) = ⟨c⟩ * ⟨root⟩ + ⟨d⟩ := by
      rw [← Galois.multiply]
      rfl
    rw [reedSolomonStep, word, List.map_cons, ← word, ih, hfirst]
    rfl

theorem word_divisor_loop (n k : ℕ) :
    let loop := (List.range n).foldl
      (fun (s : List UInt8 × UInt8) _ => (reedSolomonStep s.2 s.1, reedSolomonMultiply s.2 0x02))
      (List.replicate k 0 ++ [1], 1)
    (word loop.1, (⟨loop.2⟩ : Galois)) = (List.range n).foldl
      (fun (s : List Galois × Galois) _ => (timesRoot s.2 s.1, s.2 * Galois.two))
      (List.replicate k 0 ++ [1], 1) := by
  induction n with
  | zero => simp [word, Galois.ext_iff]
  | succ n ih =>
    simp only [List.range_succ, List.foldl_concat] at ih ⊢
    rw [← ih, word_reedSolomonStep, Galois.multiply]
    rfl

theorem reedSolomonComputeDivisor_eq {degree : ℕ} (hpos : 1 ≤ degree) (hle : degree ≤ 255) :
    ∃ rsDiv, reedSolomonComputeDivisor degree = .ok rsDiv ∧
      word rsDiv = divisor Galois.two degree := by
  refine ⟨_, if_neg (by omega), ?_⟩
  exact congrArg Prod.fst (word_divisor_loop degree (degree - 1))

theorem word_remainderPass (rsDiv result : List UInt8) (b : UInt8) :
    word (remainderPass rsDiv result b) = remainderStep (word rsDiv) (word result) ⟨b⟩ := by
  have hhead : (word result).headD 0 = ⟨result.headD 0⟩ := by cases result <;> rfl
  have htail : (word result).tail ++ [0] = word (result.tail ++ [0]) := by
    rw [word, word, List.map_append, List.map_tail]
    rfl
  have hentry (r d : UInt8) : (⟨r ^^^ reedSolomonMultiply d (b ^^^ result.headD 0)⟩ : Galois) =
      ⟨r⟩ + ⟨d⟩ * (⟨b⟩ + ⟨result.headD 0⟩) := by
    rw [show (⟨b⟩ + ⟨result.headD 0⟩ : Galois) = ⟨b ^^^ result.headD 0⟩ from rfl,
      ← Galois.multiply]
    rfl
  rw [remainderStep, hhead, htail, word, word, word, List.zipWith_map, remainderPass,
    List.map_zipWith]
  exact congrFun (congrFun (congrArg List.zipWith (funext fun r => funext (hentry r))) _) _

theorem word_remainder (data rsDiv : List UInt8) :
    word (reedSolomonComputeRemainder data rsDiv) = remainder (word rsDiv) (word data) := by
  induction data using List.reverseRecOn with
  | nil =>
    rw [reedSolomonComputeRemainder, List.foldl_nil, word, List.map_replicate]
    simp only [word, remainder, List.map_nil, List.foldl_nil, List.length_map]
    rfl
  | append_singleton data b ih =>
    rw [reedSolomonComputeRemainder, List.foldl_concat, ← reedSolomonComputeRemainder,
      word_remainderPass, ih, ← remainder_concat]
    rw [word, word, word, List.map_append, List.map_singleton]

end Arithmetic
section Blocks
variable (ver : Version) (ecl : Ecc)

def blockStart (i : ℕ) : ℕ := i * padIndex ver ecl + (i - numShortBlocks ver ecl)

theorem blockStart_succ (i : ℕ) :
    blockStart ver ecl (i + 1) = blockStart ver ecl i + blockDataLen ver ecl i := by
  rw [blockStart, blockStart, blockDataLen, Nat.succ_mul]
  split_ifs <;> omega

theorem blockStart_numBlocks : ∀ ver ecl,
    blockStart ver ecl (numBlocks ver ecl) = getNumDataCodewords ver ecl := by decide +kernel

theorem blockStart_mono {i j : ℕ} (h : i ≤ j) : blockStart ver ecl i ≤ blockStart ver ecl j :=
  monotone_nat_of_le_succ (fun n => by rw [blockStart_succ]; exact Nat.le_add_right _ _) h

def dataBlock (data : List UInt8) (i : ℕ) : List UInt8 :=
  (data.drop (blockStart ver ecl i)).take (blockDataLen ver ecl i)

variable {ver ecl} {data rsDiv : List UInt8}

theorem length_dataBlock (hdata : data.length = getNumDataCodewords ver ecl) {i : ℕ}
    (hi : i < numBlocks ver ecl) : (dataBlock ver ecl data i).length = blockDataLen ver ecl i := by
  have hle := blockStart_mono ver ecl (Nat.succ_le_of_lt hi)
  rw [Nat.succ_eq_add_one, blockStart_succ, blockStart_numBlocks, ← hdata] at hle
  rw [dataBlock, List.length_take, List.length_drop]
  omega

theorem flatMap_dataBlock (data : List UInt8) (n : ℕ) :
    (List.range n).flatMap (dataBlock ver ecl data) = data.take (blockStart ver ecl n) := by
  induction n with
  | zero => simp [blockStart]
  | succ n ih =>
    rw [List.range_succ, List.flatMap_append, ih, List.flatMap_singleton, blockStart_succ,
      List.take_add, dataBlock]

theorem makeBlocks_loop (hdata : data.length = getNumDataCodewords ver ecl) {n : ℕ}
    (hn : n ≤ numBlocks ver ecl) :
    (List.range n).foldl (fun (s : List (List UInt8) × ℕ) i =>
        let dat := (data.drop s.2).take (blockDataLen ver ecl i)
        (s.1 ++ [makeBlock ver ecl rsDiv dat i], s.2 + dat.length)) ([], 0) =
      ((List.range n).map fun i => makeBlock ver ecl rsDiv (dataBlock ver ecl data i) i,
        blockStart ver ecl n) := by
  induction n with
  | zero => simp [blockStart]
  | succ n ih =>
    have hlength := length_dataBlock hdata (Nat.lt_of_succ_le hn)
    rw [List.range_succ, List.foldl_concat, ih (Nat.le_of_succ_le hn), List.map_append,
      List.map_singleton, blockStart_succ]
    exact congrArg (fun k => (_, blockStart ver ecl n + k)) hlength

theorem makeBlocks_eq (hdata : data.length = getNumDataCodewords ver ecl) :
    makeBlocks ver ecl data rsDiv = (List.range (numBlocks ver ecl)).map fun i =>
      makeBlock ver ecl rsDiv (dataBlock ver ecl data i) i :=
  congrArg Prod.fst (makeBlocks_loop hdata le_rfl)

end Blocks

section Interleaving
variable (ver : Version) (ecl : Ecc)

def Real (j i : ℕ) : Prop :=
  -- column `i` of block `j` holds a codeword
  i ≠ padIndex ver ecl ∨ j ≥ numShortBlocks ver ecl

instance (j i : ℕ) : Decidable (Real ver ecl j i) := inferInstanceAs (Decidable (_ ∨ _))

def transmitted : List (ℕ × ℕ) :=
  (List.range (shortBlockLen ver ecl + 1)).flatMap fun i =>
    ((List.range (numBlocks ver ecl)).filter (Real ver ecl · i)).map (·, i)

def columns (j : ℕ) : List ℕ :=
  (List.range (shortBlockLen ver ecl + 1)).filter fun i => Real ver ecl j i

def blockOf (codewords : List UInt8) (j : ℕ) : List UInt8 :=
  (columns ver ecl j).map fun i =>
    Placement.place (fun _ => 0) (transmitted ver ecl) codewords (j, i)

theorem mem_transmitted {j i : ℕ} : (j, i) ∈ transmitted ver ecl ↔
    j < numBlocks ver ecl ∧ i < shortBlockLen ver ecl + 1 ∧ Real ver ecl j i := by
  have hcolumn (k : ℕ) : (j, i) ∈ ((List.range (numBlocks ver ecl)).filter
      (Real ver ecl · k)).map (·, k) ↔ i = k ∧ j < numBlocks ver ecl ∧ Real ver ecl j k := by
    rw [List.mem_map]
    constructor
    · rintro ⟨block, hblock, hplace⟩
      obtain ⟨rfl, rfl⟩ := Prod.mk.inj hplace
      obtain ⟨hrange, hreal⟩ := List.mem_filter.mp hblock
      exact ⟨rfl, List.mem_range.mp hrange, of_decide_eq_true hreal⟩
    · rintro ⟨rfl, hrange, hreal⟩
      exact ⟨j, List.mem_filter.mpr ⟨List.mem_range.mpr hrange, decide_eq_true hreal⟩, rfl⟩
  rw [transmitted, List.mem_flatMap]
  simp only [hcolumn, List.mem_range]
  constructor
  · rintro ⟨k, hk, rfl, hj, hreal⟩
    exact ⟨hj, hk, hreal⟩
  · rintro ⟨hj, hi, hreal⟩
    exact ⟨i, hi, rfl, hj, hreal⟩

variable {ver ecl} {blocks : List (List UInt8)}

theorem interleave_eq (hcount : blocks.length = numBlocks ver ecl)
    (hlength : (blocks.headD []).length = shortBlockLen ver ecl + 1) :
    interleave ver ecl blocks =
      (transmitted ver ecl).map fun p => (blocks.getD p.1 []).getD p.2 0 := by
  rw [interleave, transmitted, hcount, hlength, List.map_flatMap]
  refine List.flatMap_congr fun i _ => ?_
  rw [List.map_map, ← List.filterMap_eq_map, ← List.filterMap_eq_filter, List.filterMap_filterMap,
    List.filterMap_eq_flatMap_toList]
  refine List.flatMap_congr fun j _ => ?_
  by_cases hreal : Real ver ecl j i
  · simp [hreal, if_pos (show i ≠ padIndex ver ecl ∨ j ≥ numShortBlocks ver ecl from hreal)]
  · simp [hreal, if_neg (show ¬ (i ≠ padIndex ver ecl ∨ j ≥ numShortBlocks ver ecl) from hreal)]

theorem blockOf_interleave (hcount : blocks.length = numBlocks ver ecl)
    (hlength : (blocks.headD []).length = shortBlockLen ver ecl + 1) {j : ℕ}
    (hj : j < numBlocks ver ecl) :
    blockOf ver ecl (interleave ver ecl blocks) j =
      (columns ver ecl j).map fun i => (blocks.getD j []).getD i 0 := by
  rw [interleave_eq hcount hlength]
  refine List.map_congr_left fun i hi => ?_
  obtain ⟨hi, hreal⟩ := List.mem_filter.mp hi
  have hmem : (j, i) ∈ transmitted ver ecl :=
    (mem_transmitted ver ecl).mpr ⟨hj, List.mem_range.mp hi, of_decide_eq_true hreal⟩
  exact Placement.place_map _ (fun p => (blocks.getD p.1 []).getD p.2 0) hmem

theorem length_computeRemainder {rsDiv : List UInt8} (hpos : 0 < rsDiv.length)
    (data : List UInt8) : (reedSolomonComputeRemainder data rsDiv).length = rsDiv.length := by
  have hword : 0 < (word rsDiv).length := by simpa using hpos
  have hlength := length_remainder hword (word data)
  rwa [← word_remainder, List.length_map, List.length_map] at hlength

theorem shortBlockLen_eq : shortBlockLen ver ecl = padIndex ver ecl + blockEccLen ver ecl :=
  (Nat.sub_add_cancel (blockEccLen_lt ver ecl).le).symm

theorem columns_makeBlock {data rsDiv : List UInt8}
    (hdata : data.length = getNumDataCodewords ver ecl) (hdiv : rsDiv.length = blockEccLen ver ecl)
    {j : ℕ} (hj : j < numBlocks ver ecl) :
    (columns ver ecl j).map
        (fun i => (makeBlock ver ecl rsDiv (dataBlock ver ecl data j) j).getD i 0) =
      dataBlock ver ecl data j ++
        reedSolomonComputeRemainder (dataBlock ver ecl data j) rsDiv := by
  have hpos : 0 < rsDiv.length := hdiv ▸ (blockEccLen_bounds ver ecl).1
  have hdat := length_dataBlock hdata hj
  have hecc := length_computeRemainder hpos (dataBlock ver ecl data j)
  rw [columns, makeBlock, shortBlockLen_eq]
  generalize dataBlock ver ecl data j = dat at *
  rw [blockDataLen] at hdat
  by_cases hshort : j < numShortBlocks ver ecl
  · rw [if_pos hshort, Nat.add_zero] at hdat
    have hreal : ∀ i, Real ver ecl j i ↔ i ≠ dat.length := fun i => by
      rw [Real, hdat]
      exact or_iff_left (Nat.not_le.mpr hshort)
    have hsize : padIndex ver ecl + blockEccLen ver ecl + 1 =
        dat.length + (1 + (reedSolomonComputeRemainder dat rsDiv).length) := by omega
    simp only [hreal, hsize, if_pos hshort, List.append_assoc, List.singleton_append]
    exact Placement.map_getD_skip _ _ _ _
  · rw [if_neg hshort] at hdat
    have hreal : ∀ i, Real ver ecl j i := fun i => .inr (Nat.le_of_not_lt hshort)
    have hsize : padIndex ver ecl + blockEccLen ver ecl + 1 =
        (dat ++ reedSolomonComputeRemainder dat rsDiv).length := by
      rw [List.length_append]
      omega
    simp only [hreal, decide_true, List.filter_true, hsize, if_neg hshort, List.append_nil]
    exact Placement.map_getD_range _ _

theorem length_columns {j : ℕ} (hj : j < numBlocks ver ecl) :
    (columns ver ecl j).length = blockDataLen ver ecl j + blockEccLen ver ecl := by
  have hdata : (List.replicate (getNumDataCodewords ver ecl) (0 : UInt8)).length =
      getNumDataCodewords ver ecl := List.length_replicate
  have hdiv : (List.replicate (blockEccLen ver ecl) (0 : UInt8)).length = blockEccLen ver ecl :=
    List.length_replicate
  have hall := congrArg List.length (columns_makeBlock hdata hdiv hj)
  rwa [List.length_map, List.length_append, length_dataBlock hdata hj,
    length_computeRemainder (by rw [hdiv]; exact (blockEccLen_bounds ver ecl).1), hdiv] at hall

theorem length_filter_ge (s k : ℕ) : ((List.range (s + k)).filter (s ≤ ·)).length = k := by
  have hfirst : (List.range s).filter (s ≤ ·) = [] :=
    List.filter_eq_nil_iff.mpr fun i hi => by simpa using List.mem_range.mp hi
  have hlast : ((List.range k).map (s + ·)).filter (s ≤ ·) = (List.range k).map (s + ·) := by
    refine List.filter_eq_self.mpr fun i hi => ?_
    obtain ⟨j, -, rfl⟩ := List.mem_map.mp hi
    simp
  rw [List.range_add, List.filter_append, hfirst, hlast, List.nil_append, List.length_map,
    List.length_range]

theorem length_transmitted : (transmitted ver ecl).length = rawCodewords ver := by
  have hpos := numBlocks_pos ver ecl
  have hrest := Nat.mod_lt (rawCodewords ver) hpos
  have hshort : numShortBlocks ver ecl + rawCodewords ver % numBlocks ver ecl =
      numBlocks ver ecl := Nat.sub_add_cancel hrest.le
  have hcolumn : ∀ i, (((List.range (numBlocks ver ecl)).filter (Real ver ecl · i)).map
      (·, i)).length + (if i = padIndex ver ecl then numShortBlocks ver ecl else 0) =
        numBlocks ver ecl := by
    intro i
    rw [List.length_map]
    by_cases hpad : i = padIndex ver ecl
    · simp only [Real, hpad, ne_eq, not_true_eq_false, false_or, ge_iff_le, if_true]
      rw [← hshort, length_filter_ge, Nat.add_comm, hshort]
    · simp [Real, hpad]
  have hin : padIndex ver ecl ∈ Finset.range (shortBlockLen ver ecl + 1) := by
    have hsize : shortBlockLen ver ecl = padIndex ver ecl + blockEccLen ver ecl := shortBlockLen_eq
    exact Finset.mem_range.mpr (by omega)
  have hall : (transmitted ver ecl).length + numShortBlocks ver ecl =
      (shortBlockLen ver ecl + 1) * numBlocks ver ecl := by
    have hlist (f : ℕ → ℕ) (n : ℕ) : ((List.range n).map f).sum = ∑ i ∈ Finset.range n, f i := rfl
    have hpads : ∑ i ∈ Finset.range (shortBlockLen ver ecl + 1),
        (if i = padIndex ver ecl then numShortBlocks ver ecl else 0) = numShortBlocks ver ecl := by
      rw [Finset.sum_ite_eq', if_pos hin]
    rw [transmitted, List.length_flatMap, hlist]
    conv_lhs => rw [← hpads]
    rw [← Finset.sum_add_distrib, Finset.sum_congr rfl fun i _ => hcolumn i, Finset.sum_const,
      Finset.card_range, smul_eq_mul]
  have hdivision := Nat.div_add_mod (rawCodewords ver) (numBlocks ver ecl)
  rw [Nat.succ_mul, Nat.mul_comm, shortBlockLen] at hall
  omega

end Interleaving

section Correction
variable (ver : Version) (ecl : Ecc)

/-- The data that a sequence of codewords stands for, when every block is taken for the word of
the code that is near enough. -/
def Corrected (received data : List UInt8) : Prop :=
  ∃ dats : ℕ → List UInt8, (List.range (numBlocks ver ecl)).flatMap dats = data ∧
    ∀ j < numBlocks ver ecl, (dats j).length = blockDataLen ver ecl j ∧
      2 * distance (codeword (divisor Galois.two (blockEccLen ver ecl)) (word (dats j)))
        (word (blockOf ver ecl received j)) ≤ blockEccLen ver ecl

variable {ver ecl}

theorem corrected_unique {received data data' : List UInt8} (h : Corrected ver ecl received data)
    (h' : Corrected ver ecl received data') : data = data' := by
  obtain ⟨dats, rfl, hdats⟩ := h
  obtain ⟨dats', rfl, hdats'⟩ := h'
  refine List.flatMap_congr fun j hj => ?_
  have hj := List.mem_range.mp hj
  obtain ⟨hlength, hnear⟩ := hdats j hj
  obtain ⟨hlength', hnear'⟩ := hdats' j hj
  have hshort := shortBlockLen_lt ver ecl
  have hsize : shortBlockLen ver ecl = padIndex ver ecl + blockEccLen ver ecl := shortBlockLen_eq
  have hle : blockDataLen ver ecl j ≤ padIndex ver ecl + 1 := by
    unfold blockDataLen
    split_ifs <;> omega
  apply word_injective
  refine message_unique (n := blockDataLen ver ecl j + blockEccLen ver ecl)
    (fun i hi k hk => Galois.two_pow_injective (by omega) (by omega))
    (blockEccLen_bounds ver ecl).1 ?_ ?_ ?_ hnear hnear'
  · rw [List.length_map, hlength]
  · rw [List.length_map, hlength']
  · rw [List.length_map, blockOf, List.length_map, length_columns hj]

theorem addEccAndInterleave_blocks {data : List UInt8}
    (hdata : data.length = getNumDataCodewords ver ecl) :
    ∃ codewords, addEccAndInterleave ver ecl data = .ok codewords ∧
      codewords.length = rawCodewords ver ∧
      ∀ j < numBlocks ver ecl, word (blockOf ver ecl codewords j) =
        codeword (divisor Galois.two (blockEccLen ver ecl)) (word (dataBlock ver ecl data j)) := by
  obtain ⟨hpos, hle⟩ := blockEccLen_bounds ver ecl
  obtain ⟨rsDiv, hrsDiv, hword⟩ := reedSolomonComputeDivisor_eq hpos hle
  have hdiv : rsDiv.length = blockEccLen ver ecl := by
    rw [← length_divisor Galois.two hpos, ← hword, List.length_map]
  have hblocks : makeBlocks ver ecl data rsDiv = (List.range (numBlocks ver ecl)).map fun i =>
      makeBlock ver ecl rsDiv (dataBlock ver ecl data i) i := makeBlocks_eq hdata
  have hcount : (makeBlocks ver ecl data rsDiv).length = numBlocks ver ecl := by
    rw [hblocks, List.length_map, List.length_range]
  have hlength : ((makeBlocks ver ecl data rsDiv).headD []).length =
      shortBlockLen ver ecl + 1 := by
    have hfirst := numBlocks_pos ver ecl
    have hhead : (makeBlocks ver ecl data rsDiv).headD [] =
        makeBlock ver ecl rsDiv (dataBlock ver ecl data 0) 0 := by
      obtain ⟨n, hn⟩ := Nat.exists_eq_succ_of_ne_zero hfirst.ne'
      rw [hblocks, hn, List.range_succ_eq_map]
      rfl
    rw [hhead, makeBlock, List.length_append, List.length_append, length_dataBlock hdata hfirst,
      length_computeRemainder (by rw [hdiv]; exact hpos), hdiv, blockDataLen, shortBlockLen_eq]
    split_ifs <;> simp <;> omega
  have hblock : ∀ j < numBlocks ver ecl,
      blockOf ver ecl (interleave ver ecl (makeBlocks ver ecl data rsDiv)) j =
        dataBlock ver ecl data j ++
          reedSolomonComputeRemainder (dataBlock ver ecl data j) rsDiv := by
    intro j hj
    rw [blockOf_interleave hcount hlength hj, ← columns_makeBlock hdata hdiv hj, hblocks,
      List.getD_eq_getElem _ _ (by simpa using hj), List.getElem_map, List.getElem_range]
  refine ⟨interleave ver ecl (makeBlocks ver ecl data rsDiv), ?_, ?_, fun j hj => ?_⟩
  · rw [addEccAndInterleave, if_neg (not_not.mpr hdata), hrsDiv]
    rfl
  · rw [interleave_eq hcount hlength, List.length_map, length_transmitted]
  · rw [hblock j hj, word, List.map_append, ← word, ← word, word_remainder, hword]
    rfl

theorem corrected_iff {data codewords received : List UInt8}
    (hdata : data.length = getNumDataCodewords ver ecl)
    (hblocks : ∀ j < numBlocks ver ecl, word (blockOf ver ecl codewords j) =
      codeword (divisor Galois.two (blockEccLen ver ecl)) (word (dataBlock ver ecl data j)))
    (hnear : ∀ j < numBlocks ver ecl, 2 * distance (blockOf ver ecl codewords j)
      (blockOf ver ecl received j) ≤ blockEccLen ver ecl) (data' : List UInt8) :
    Corrected ver ecl received data' ↔ data' = data := by
  have hcorrected : Corrected ver ecl received data := by
    refine ⟨dataBlock ver ecl data, ?_, fun j hj => ⟨length_dataBlock hdata hj, ?_⟩⟩
    · rw [flatMap_dataBlock, blockStart_numBlocks, ← hdata, List.take_length]
    · rw [← hblocks j hj, distance_word]
      exact hnear j hj
  exact ⟨fun h => corrected_unique h hcorrected, fun h => h ▸ hcorrected⟩

/-- However the data are spread over the symbol, as long as no block has more wrong codewords than
half of its error correction, there is one way to correct what is received, and it gives the data
back. -/
theorem codewords_correct {data : List UInt8} (hdata : data.length = getNumDataCodewords ver ecl) :
    ∃ codewords, addEccAndInterleave ver ecl data = .ok codewords ∧
      codewords.length = rawCodewords ver ∧
      ∀ received, (∀ j < numBlocks ver ecl, 2 * distance (blockOf ver ecl codewords j)
          (blockOf ver ecl received j) ≤ blockEccLen ver ecl) →
        ∀ data', Corrected ver ecl received data' ↔ data' = data := by
  obtain ⟨codewords, hcodewords, hlength, hblocks⟩ := addEccAndInterleave_blocks hdata
  exact ⟨codewords, hcodewords, hlength, fun received hnear => corrected_iff hdata hblocks hnear⟩

theorem codewords_correct_burst :
    let data := (List.range 62).map Nat.toUInt8
    ∃ codewords, addEccAndInterleave 4 .quartile data = .ok codewords ∧
      codewords.length = 134 ∧
      let received := List.replicate 36 255 ++ codewords.drop 36
      (∀ j < 4, distance (blockOf 4 .quartile codewords j) (blockOf 4 .quartile received j) = 9) ∧
      ∀ data', Corrected 4 .quartile received data' ↔ data' = data := by
  intro data
  obtain ⟨codewords, hcodewords, hlength, hcorrect⟩ :=
    codewords_correct (show data.length = getNumDataCodewords 4 .quartile by decide)
  have hburst : ∀ j < 4, (addEccAndInterleave 4 .quartile data).toOption.map (fun sent =>
      distance (blockOf 4 .quartile sent j)
        (blockOf 4 .quartile (List.replicate 36 255 ++ sent.drop 36) j)) = some 9 := by
    decide +kernel
  rw [hcodewords] at hburst
  have hnine : ∀ j < 4, distance (blockOf 4 .quartile codewords j) (blockOf 4 .quartile
      (List.replicate 36 255 ++ codewords.drop 36) j) = 9 :=
    fun j hj => Option.some.inj (hburst j hj)
  refine ⟨codewords, hcodewords, hlength, hnine, hcorrect _ fun j hj => ?_⟩
  rw [hnine j hj]
  decide

end Correction
end Ppm.QrCode

import Mathlib.Data.List.TakeWhile
import PhonePostMix.QrCode.Scan

/-! The picture of the symbol in the editor: the modules in their quiet zone. -/

namespace Ppm.Plugin
open QrCode ReedSolomon

structure Image where
  side : ℕ
  black : ℕ → ℕ → Bool

def quietZone : ℕ := 4

def picture (code : Symbol) : Image :=
  let side := code.version.size + quietZone * 2
  { side
    black := fun x y =>
      let inQuietZone :=
        x < quietZone ∨ y < quietZone ∨ side - quietZone ≤ x ∨ side - quietZone ≤ y
      !decide inQuietZone && code.getModule ((x : ℤ) - quietZone) ((y : ℤ) - quietZone) }

def rebuildImage (encoded : List UInt8) : Option Image :=
  -- `rebuildImage`: there is no picture of an empty text, and none when an exception is caught
  if encoded = [] then none
  else
    match encodeText encoded .medium with
    | .error _ => none
    | .ok code => some (picture code)

def Image.modules (image : Image) (p : Place) : Bool :=
  image.black (p.1 + quietZone) (p.2 + quietZone)

section Reading

theorem getModule_inside {code : Symbol} {x y : ℕ} (hx : x < code.version.size)
    (hy : y < code.version.size) : code.getModule x y = code.modules (x, y) := by
  have hinside : Inside code.version.size x y := by
    simp only [Inside]
    omega
  rw [Symbol.getModule, decide_eq_true hinside, Bool.true_and, Int.toNat_natCast,
    Int.toNat_natCast]

theorem formatCopies_inside : ∀ ver, ∀ copy ∈ Scanner.formatCopies ver, ∀ p ∈ copy,
    p.1 < ver.size ∧ p.2 < ver.size := by decide

theorem versionCopies_inside : ∀ ver, ∀ copy ∈ Scanner.versionCopies ver, ∀ p ∈ copy,
    p.1 < ver.size ∧ p.2 < ver.size := by decide

theorem near_of_agree {code : Symbol} {modules : Place → Bool}
    (h : ∀ x < code.version.size, ∀ y < code.version.size, modules (x, y) = code.modules (x, y)) :
    Near code modules := by
  have hcopy {copy : List Place}
      (hin : ∀ p ∈ copy, p.1 < code.version.size ∧ p.2 < code.version.size) :
      distance (copy.map code.modules) (copy.map modules) ≤ 3 := by
    rw [List.map_congr_left fun p hp => h p.1 (hin p hp).1 p.2 (hin p hp).2, distance_self]
    exact Nat.zero_le 3
  have hdata : Scanner.codewords code.version code.mask modules =
      Scanner.codewords code.version code.mask code.modules := by
    rw [Scanner.codewords, Scanner.codewords, dataModules_eq]
    refine congrArg Scanner.bytes (List.map_congr_left fun p hp => ?_)
    obtain ⟨hx, hy, -⟩ := (mem_dataPlaces code.version (x := p.1) (y := p.2)).mp hp
    rw [h p.1 hx p.2 hy]
  refine ⟨fun pattern hpattern => ?_, fun _ copy hmem => ?_, fun copy hmem => ?_, fun j _ => ?_⟩
  · obtain ⟨hx, hy⟩ := patterns_inside pattern hpattern
    exact h _ hx _ hy
  · exact hcopy (versionCopies_inside code.version copy hmem)
  · exact hcopy (formatCopies_inside code.version copy hmem)
  · rw [hdata, distance_self]
    exact Nat.zero_le _

theorem coding_size_le (text : List UInt8) (n : ℕ) : (coding text).size n ≤ n * 8 := by
  have hnumeric : Coding.numeric.size n ≤ n * 8 := by
    rw [Radix.Grouping.size]
    by_cases hfull : n % Coding.numeric.group = 0
    · rw [if_pos hfull]
      show n / 3 * 10 + 0 ≤ n * 8
      omega
    · have hpart : ¬ n % 3 = 0 := hfull
      rw [if_neg hfull]
      show n / 3 * 10 + (n % 3 * 3 + 1) ≤ n * 8
      omega
  have halphanumeric : Coding.alphanumeric.size n ≤ n * 8 := by
    rw [Radix.Grouping.size]
    by_cases hfull : n % Coding.alphanumeric.group = 0
    · rw [if_pos hfull]
      show n / 2 * 11 + 0 ≤ n * 8
      omega
    · have hpart : ¬ n % 2 = 0 := hfull
      rw [if_neg hfull]
      show n / 2 * 11 + 6 ≤ n * 8
      omega
  have hbyte : Coding.byte.size n ≤ n * 8 := by
    rw [Radix.Grouping.size, if_pos (show n % Coding.byte.group = 0 from Nat.mod_one n)]
    show n / 1 * 8 + 0 ≤ n * 8
    omega
  rw [coding]
  split_ifs <;> assumption

theorem fits_of_length_le {text : List UInt8} (h : text.length ≤ 2331) : Fits 39 .medium text := by
  have hcapacity : getNumDataCodewords 39 .medium * 8 = 18672 := by decide
  have hccbits := (coding_lawful text).countBits_le 39
  have hsize := coding_size_le text text.length
  have hleast : 13 ≤ (coding text).countBits (Version.number 39) := by
    rw [coding]
    split_ifs <;> decide
  refine ⟨?_, ?_⟩
  · exact (show text.length < 2 ^ 13 by omega).trans_le (Nat.pow_le_pow_right (by decide) hleast)
  · rw [hcapacity, neededBits]
    split_ifs <;> omega

theorem black_inside {code : Symbol} {x y : ℕ} (h : (picture code).black x y = true) :
    quietZone ≤ x ∧ x < code.version.size + quietZone ∧ quietZone ≤ y ∧
      y < code.version.size + quietZone := by
  obtain ⟨houter, -⟩ := Bool.and_eq_true_iff.mp h
  rw [Bool.not_eq_true', decide_eq_false_iff_not] at houter
  unfold quietZone at houter ⊢
  omega

theorem picture_modules {code : Symbol} {x y : ℕ} (hx : x < code.version.size)
    (hy : y < code.version.size) : (picture code).modules (x, y) = code.modules (x, y) := by
  have hinner : ¬ (x + quietZone < quietZone ∨ y + quietZone < quietZone ∨
      code.version.size + quietZone * 2 - quietZone ≤ x + quietZone ∨
        code.version.size + quietZone * 2 - quietZone ≤ y + quietZone) := by
    unfold quietZone
    omega
  have hplace (z : ℕ) : ((z + quietZone : ℕ) : ℤ) - quietZone = z := by
    push_cast
    exact add_sub_cancel_right _ _
  rw [Image.modules, picture]
  dsimp only
  rw [decide_eq_false hinner, Bool.not_false, Bool.true_and, hplace, hplace,
    getModule_inside hx hy]

/-- The picture of a text that is not too long is there, its quiet zone is white, and its modules
are read as the text and nothing else. -/
theorem picture_reads_back {encoded : List UInt8} (hne : encoded ≠ []) (hnul : 0 ∉ encoded)
    (hlength : encoded.length ≤ 2331) :
    ∃ image, ∃ ver : Version, rebuildImage encoded = some image ∧
      image.side = ver.size + quietZone * 2 ∧
      (∀ x y, image.black x y = true →
        quietZone ≤ x ∧ x < ver.size + quietZone ∧ quietZone ≤ y ∧ y < ver.size + quietZone) ∧
      ∀ text, Scanner.Reads ver.size image.modules text ↔ text = encoded := by
  have hwhole : cString encoded = encoded :=
    List.takeWhile_eq_self_iff.mpr fun c hc => decide_eq_true fun h => hnul (h ▸ hc)
  have hfits : Fits 39 .medium (cString encoded) := by
    rw [hwhole]
    exact fits_of_length_le hlength
  obtain ⟨code, hcode, hreads⟩ := encodeText_reads hfits
  rw [hwhole] at hreads
  refine ⟨picture code, code.version, ?_, rfl, fun x y hblack => black_inside hblack, ?_⟩
  · rw [rebuildImage, if_neg hne, hcode]
  · exact hreads _ (near_of_agree fun x hx y hy => picture_modules hx hy)

theorem picture_reads_back_url :
    let url := ascii "http://192.168.0.2:17520/#t=0123456789abcdef0123456789abcdef"
    ∃ image, ∃ ver : Version, rebuildImage url = some image ∧
      image.side = ver.size + quietZone * 2 ∧
      ∀ text, Scanner.Reads ver.size image.modules text ↔ text = url := by
  intro url
  obtain ⟨image, ver, himage, hside, -, hreads⟩ :=
    picture_reads_back (show url ≠ [] by decide) (by decide) (by decide)
  exact ⟨image, ver, himage, hside, hreads⟩

end Reading
end Ppm.Plugin

import PhonePostMix.QrCode.Drawing
import PhonePostMix.QrCode.ReadData

/-! The codewords in a symbol: there is a place for every bit, and the scan puts it there. -/

namespace Ppm.QrCode
open Radix

section Capacity

structure Rect where
  x : ℕ
  y : ℕ
  width : ℕ
  height : ℕ
  deriving DecidableEq

def Rect.places (r : Rect) : Finset Place :=
  Finset.Ico r.x (r.x + r.width) ×ˢ Finset.Ico r.y (r.y + r.height)

theorem Rect.card_places (r : Rect) : r.places.card = r.width * r.height := by
  rw [Rect.places, Finset.card_product, Nat.card_Ico, Nat.card_Ico, Nat.add_sub_cancel_left,
    Nat.add_sub_cancel_left]

def alignmentRects (c : ℤ × ℤ) : List Rect :=
  let (x, y) := (c.1.toNat, c.2.toNat)
  if x = 6 then [⟨4, y - 2, 2, 5⟩, ⟨7, y - 2, 2, 5⟩]
  else if y = 6 then [⟨x - 2, 4, 5, 2⟩, ⟨x - 2, 7, 5, 2⟩]
  else [⟨x - 2, y - 2, 5, 5⟩]

def functionRects (ver : Version) : List Rect :=
  -- rectangles over all modules that no data are drawn to
  [⟨0, 0, 9, 9⟩, ⟨ver.size - 8, 0, 8, 9⟩, ⟨0, ver.size - 8, 9, 8⟩, ⟨6, 9, 1, ver.size - 17⟩,
    ⟨9, 6, ver.size - 17, 1⟩] ++
    (alignmentCenters ver).flatMap alignmentRects ++
    if 7 ≤ ver.number then [⟨ver.size - 11, 0, 3, 6⟩, ⟨0, ver.size - 11, 6, 3⟩] else []

theorem functionRects_area : ∀ ver,
    ((functionRects ver).map fun r => r.width * r.height).sum + getNumRawDataModules ver =
      ver.size * ver.size := by decide

theorem mem_functionRects (ver : Version) {x y : ℕ} (hx : x < ver.size) (hy : y < ver.size)
    (h : FunctionArea ver x y) : ∃ r ∈ functionRects ver, (x, y) ∈ r.places := by
  have hsize : ver.size = ver.number * 4 + 17 := rfl
  have hin (r : Rect) (hr : r ∈ functionRects ver)
      (hxy : (r.x ≤ x ∧ x < r.x + r.width) ∧ r.y ≤ y ∧ y < r.y + r.height) :
      ∃ r ∈ functionRects ver, (x, y) ∈ r.places :=
    ⟨r, hr, Finset.mem_product.mpr ⟨Finset.mem_Ico.mpr hxy.1, Finset.mem_Ico.mpr hxy.2⟩⟩
  have hfixed (r : Rect) (hr : r ∈ [⟨0, 0, 9, 9⟩, ⟨ver.size - 8, 0, 8, 9⟩,
      ⟨0, ver.size - 8, 9, 8⟩, ⟨6, 9, 1, ver.size - 17⟩, ⟨9, 6, ver.size - 17, 1⟩]) :
      r ∈ functionRects ver := List.mem_append_left _ (List.mem_append_left _ hr)
  have hlower := hin _ (hfixed ⟨0, 0, 9, 9⟩ (by simp))
  have hright := hin _ (hfixed ⟨ver.size - 8, 0, 8, 9⟩ (by simp))
  have hbelow := hin _ (hfixed ⟨0, ver.size - 8, 9, 8⟩ (by simp))
  have hcolumn := hin _ (hfixed ⟨6, 9, 1, ver.size - 17⟩ (by simp))
  have hrow := hin _ (hfixed ⟨9, 6, ver.size - 17, 1⟩ (by simp))
  dsimp only at hlower hright hbelow hcolumn hrow
  have htiming (hsix : x = 6 ∨ y = 6) : ∃ r ∈ functionRects ver, (x, y) ∈ r.places := by
    by_cases hcorner : x < 9 ∧ y < 9
    · exact hlower (by omega)
    · rcases hsix with rfl | rfl
      · by_cases hend : ver.size - 8 ≤ y
        · exact hbelow (by omega)
        · exact hcolumn (by omega)
      · by_cases hend : ver.size - 8 ≤ x
        · exact hright (by omega)
        · exact hrow (by omega)
  rcases h with h | h | h | h | h | ⟨c, hc, hcx, hcy⟩ | ⟨hseven, h⟩
  · exact htiming (.inl (by omega))
  · exact htiming (.inr (by omega))
  · exact hlower (by omega)
  · exact hright (by omega)
  · exact hbelow (by omega)
  · by_cases hsix : x = 6 ∨ y = 6
    · exact htiming hsix
    · obtain ⟨hx2, hy2⟩ := alignmentCenters_bounds ver c hc
      have hcx := abs_le.mp hcx
      have hcy := abs_le.mp hcy
      have hrects (r : Rect) (hr : r ∈ alignmentRects c) : r ∈ functionRects ver :=
        List.mem_append_left _ (List.mem_append_right _ (List.mem_flatMap.mpr ⟨c, hc, hr⟩))
      by_cases hcolumn6 : c.1.toNat = 6
      · by_cases hleft : x < 6
        · exact hin ⟨4, c.2.toNat - 2, 2, 5⟩ (hrects _ (by simp [alignmentRects, hcolumn6]))
            (by dsimp only; omega)
        · exact hin ⟨7, c.2.toNat - 2, 2, 5⟩ (hrects _ (by simp [alignmentRects, hcolumn6]))
            (by dsimp only; omega)
      · by_cases hrow6 : c.2.toNat = 6
        · by_cases hupper : y < 6
          · exact hin ⟨c.1.toNat - 2, 4, 5, 2⟩
              (hrects _ (by simp [alignmentRects, hcolumn6, hrow6])) (by dsimp only; omega)
          · exact hin ⟨c.1.toNat - 2, 7, 5, 2⟩
              (hrects _ (by simp [alignmentRects, hcolumn6, hrow6])) (by dsimp only; omega)
        · exact hin ⟨c.1.toNat - 2, c.2.toNat - 2, 5, 5⟩
            (hrects _ (by simp [alignmentRects, hcolumn6, hrow6])) (by dsimp only; omega)
  · have hversion (r : Rect) (hr : r ∈ [(⟨ver.size - 11, 0, 3, 6⟩ : Rect),
        ⟨0, ver.size - 11, 6, 3⟩]) : r ∈ functionRects ver := by
      rw [functionRects, if_pos hseven]
      exact List.mem_append_right _ hr
    rcases h with h | h
    · exact hin _ (hversion ⟨ver.size - 11, 0, 3, 6⟩ (by simp)) (by dsimp only; omega)
    · exact hin _ (hversion ⟨0, ver.size - 11, 6, 3⟩ (by simp)) (by dsimp only; omega)

def dataPlaces (ver : Version) : List Place :=
  (zigzag ver.size).filter fun p => ¬ FunctionArea ver p.1 p.2

theorem nodup_dataPlaces (ver : Version) : (dataPlaces ver).Nodup :=
  (nodup_zigzag ver.size).filter _

theorem mem_dataPlaces (ver : Version) {x y : ℕ} :
    (x, y) ∈ dataPlaces ver ↔ x < ver.size ∧ y < ver.size ∧ ¬ FunctionArea ver x y := by
  have hsize : ver.size = 2 * (2 * ver.number + 4) + 9 := by
    show ver.number * 4 + 17 = 2 * (2 * ver.number + 4) + 9
    omega
  rw [dataPlaces, List.mem_filter, mem_zigzag hsize, decide_eq_true_eq]
  constructor
  · rintro ⟨⟨hx, hy, -⟩, hfree⟩
    exact ⟨hx, hy, hfree⟩
  · rintro ⟨hx, hy, hfree⟩
    refine ⟨⟨hx, hy, fun hsix => hfree (.inl ?_)⟩, hfree⟩
    rw [hsix]
    rfl

theorem card_places_le (rects : List Rect) :
    (rects.toFinset.biUnion Rect.places).card ≤ (rects.map fun r => r.width * r.height).sum := by
  induction rects with
  | nil => simp
  | cons r rects ih =>
    rw [List.toFinset_cons, Finset.biUnion_insert, List.map_cons, List.sum_cons, ← r.card_places]
    exact (Finset.card_union_le _ _).trans (Nat.add_le_add_left ih _)

theorem card_square_le {n : ℕ} {free : List Place} {rects : List Rect}
    (h : ∀ x < n, ∀ y < n, (x, y) ∈ free ∨ ∃ r ∈ rects, (x, y) ∈ r.places) :
    n * n ≤ free.length + (rects.map fun r => r.width * r.height).sum := by
  have hcover : Finset.range n ×ˢ Finset.range n ⊆
      free.toFinset ∪ rects.toFinset.biUnion Rect.places := by
    intro p hp
    obtain ⟨hx, hy⟩ := Finset.mem_product.mp hp
    rw [Finset.mem_union, List.mem_toFinset, Finset.mem_biUnion]
    refine (h p.1 (Finset.mem_range.mp hx) p.2 (Finset.mem_range.mp hy)).imp_right ?_
    rintro ⟨r, hr, hin⟩
    exact ⟨r, List.mem_toFinset.mpr hr, hin⟩
  have hcard := (Finset.card_le_card hcover).trans (Finset.card_union_le _ _)
  rw [Finset.card_product, Finset.card_range] at hcard
  exact hcard.trans (Nat.add_le_add (List.toFinset_card_le free) (card_places_le rects))

theorem le_length_dataPlaces (ver : Version) :
    getNumRawDataModules ver ≤ (dataPlaces ver).length := by
  -- what the rectangles leave of the square is exactly the formula
  have hcard := card_square_le (n := ver.size) fun x hx y hy =>
    (Decidable.em (FunctionArea ver x y)).symm.imp
      (fun harea => (mem_dataPlaces ver).mpr ⟨hx, hy, harea⟩) (mem_functionRects ver hx hy)
  have harea := functionRects_area ver
  omega

end Capacity
section Bits

def codewordBits (data : List UInt8) : List Bool := data.flatMap fun byte => bitsOf 8 byte.toNat

theorem getElem?_codewordBits (data : List UInt8) {i : ℕ} (hi : i < data.length * 8) :
    (codewordBits data)[i]? = some ((data.getD (i / 8) 0).toNat.testBit (7 - i % 8)) := by
  induction data generalizing i with
  | nil => exact absurd hi (by simp)
  | cons byte data ih =>
    have hcons : codewordBits (byte :: data) = bitsOf 8 byte.toNat ++ codewordBits data := rfl
    rw [hcons]
    rw [List.length_cons] at hi
    by_cases hfirst : i < 8
    · rw [List.getElem?_append_left (by rwa [length_bitsOf]), Nat.div_eq_of_lt hfirst,
        Nat.mod_eq_of_lt hfirst, List.getD_cons_zero]
      rw [bitsOf, List.getElem?_map, List.getElem?_reverse (by rwa [List.length_range]),
        List.length_range, List.getElem?_range (by omega)]
      rfl
    · obtain ⟨k, rfl⟩ := Nat.exists_eq_add_of_le (Nat.le_of_not_lt hfirst)
      rw [List.getElem?_append_right (by rw [length_bitsOf]; omega), length_bitsOf,
        Nat.add_sub_cancel_left, ih (by omega), Nat.add_div_left k (by decide),
        Nat.add_mod_left, List.getD_cons_succ]

theorem drop_codewordBits (data : List UInt8) {i : ℕ} (hi : i < data.length * 8) :
    (codewordBits data).drop i =
      (data.getD (i >>> 3) 0).toNat.testBit (7 - (i &&& 7)) ::
        (codewordBits data).drop (i + 1) := by
  have hlength : i < (codewordBits data).length := by
    rwa [codewordBits, length_flatMap_bytes]
  have hbit := getElem?_codewordBits data hi
  rw [List.getElem?_eq_getElem hlength] at hbit
  rw [List.drop_eq_getElem_cons hlength, Option.some.inj hbit, Nat.shiftRight_eq_div_pow,
    show i &&& 7 = i % 8 from Nat.and_two_pow_sub_one_eq_mod i 3]

theorem drawCodewords_loop (isFunction : Place → Bool) (data : List UInt8) (ps : List Place)
    (f : Place → Bool) (i : ℕ) :
    (ps.foldl (drawCodewordStep isFunction data) (f, i)).1 =
      Placement.place f (ps.filter fun p => !isFunction p) ((codewordBits data).drop i) := by
  induction ps generalizing f i with
  | nil => rfl
  | cons p ps ih =>
    rw [List.foldl_cons, drawCodewordStep]
    by_cases hfree : isFunction p = true
    · rw [if_neg (by simp [hfree]), ih, List.filter_cons_of_neg (by simp [hfree])]
    · rw [List.filter_cons_of_pos (by simp [hfree])]
      by_cases hmore : i < data.length * 8
      · rw [if_pos ⟨by simp [hfree], hmore⟩, ih, drop_codewordBits data hmore,
          Placement.place_cons]
      · have hnone : (codewordBits data).drop i = [] := by
          refine List.drop_eq_nil_of_le ?_
          rw [codewordBits, length_flatMap_bytes]
          exact Nat.le_of_not_lt hmore
        rw [if_neg (by simp [hmore]), ih, hnone, Placement.place_empty, Placement.place_empty]

end Bits
end Ppm.QrCode

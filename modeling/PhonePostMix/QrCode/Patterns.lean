import PhonePostMix.QrCode.Masks
import PhonePostMix.QrCode.Scanner

/-! The function patterns of a symbol are those that a scanner looks for. -/

namespace Ppm.QrCode

section Layers
variable {size : ℕ} {calls : List Call} {area : ℤ → ℤ → Prop} {x y : ℕ} {dark : Bool}

theorem Call.place_eq {c : Call} (h : Inside size c.x c.y) :
    c.place = (x, y) ↔ c.x = x ∧ c.y = y := by
  obtain ⟨hx, -, hy, -⟩ := h
  rw [Call.place, Prod.mk.injEq]
  omega

theorem Covers.drawn_outside (h : Covers size calls area) (g : Grid) (hout : ¬ area x y) :
    (g.drawn calls).modules (x, y) = g.modules (x, y) :=
  Placement.place_of_notMem _ (fun hmem => hout ((h.mem_place (x, y)).mp hmem)) _

theorem Covers.drawn_inside (h : Covers size calls area) (g : Grid) (harea : area x y)
    (hdark : ∀ c ∈ calls, c.x = x → c.y = y → c.isDark = dark) :
    (g.drawn calls).modules (x, y) = dark := by
  refine Placement.place_const _ (by simp) ((h.mem_place (x, y)).mpr harea) fun pv hpv hp => ?_
  rw [List.zip_map'] at hpv
  obtain ⟨c, hc, rfl⟩ := List.mem_map.mp hpv
  obtain ⟨hx, hy⟩ := (Call.place_eq (h.inside c hc)).mp hp
  exact hdark c hc hx hy

theorem drawn_append (g : Grid) (calls more : List Call) :
    g.drawn (calls ++ more) = (g.drawn calls).drawn more := by
  apply Grid.ext
  · simp only [Grid.drawn, List.map_append]
    exact Placement.place_append _ (by rw [List.length_map, List.length_map])
  · funext p
    simp only [Grid.drawn, List.map_append, List.mem_append, Bool.decide_or, Bool.or_assoc]

end Layers
section Tables

theorem alignmentCenters_eq : ∀ ver, alignmentCenters ver =
    (Scanner.alignmentCenters ver).map fun c => ((c.1 : ℤ), (c.2 : ℤ)) := by decide

theorem versionBits_eq : ∀ ver : Version, 7 ≤ ver.number →
    (List.range 18).map (versionBits ver).testBit = Scanner.versionInformation ver := by
  decide

theorem formatBits_eq : ∀ ecl, ∀ msk < 8,
    (List.range 15).map (formatBits ecl msk).testBit = Scanner.formatInformation ecl msk := by
  decide

theorem side_eq (ver : Version) : Scanner.side ver = ver.size := by
  rw [Scanner.side, Version.size, Nat.mul_comm, Nat.add_comm]

theorem blocks_eq : ∀ ver ecl, Scanner.blocks ver ecl = ⟨blockEccLen ver ecl,
    numShortBlocks ver ecl, padIndex ver ecl, numBlocks ver ecl - numShortBlocks ver ecl⟩ := by
  decide

theorem alignmentCoordinates_apart : ∀ ver : Version,
    ∀ a ∈ Scanner.alignmentCoordinates.getD ver [],
      ∀ b ∈ Scanner.alignmentCoordinates.getD ver [], a = b ∨ a + 4 < b ∨ b + 4 < a := by
  decide

theorem alignmentCenters_places : ∀ ver, ∀ c ∈ Scanner.alignmentCenters ver,
    (c.1 % 2 = 0 ∧ c.2 % 2 = 0) ∧
      ((c.1 = 6 ∧ 16 ≤ c.2 ∧ c.2 + 23 ≤ ver.size) ∨ (c.2 = 6 ∧ 16 ≤ c.1 ∧ c.1 + 23 ≤ ver.size) ∨
        (16 ≤ c.1 ∧ 16 ≤ c.2)) := by decide

theorem alignment_inside : ∀ ver, ∀ c ∈ Scanner.alignmentCenters ver,
    2 ≤ c.1 ∧ c.1 + 2 < ver.size ∧ 2 ≤ c.2 ∧ c.2 + 2 < ver.size := by decide

theorem finder_eq : ∀ y < 7, ∀ x < 7, (Scanner.finder.getD y 0).testBit x =
    decide (chebyshev (x - 3) (y - 3) ≠ 2 ∧ chebyshev (x - 3) (y - 3) ≠ 4) := by decide

theorem alignment_eq : ∀ y < 5, ∀ x < 5, (Scanner.alignment.getD y 0).testBit x =
    decide (chebyshev (x - 2) (y - 2) ≠ 1) := by decide

end Tables
section Drawn
variable {ver : Version} {ecl : Ecc} {x y : ℕ} {c : Place}

theorem alignment_unique {c c' : Place} (hc : c ∈ Scanner.alignmentCenters ver)
    (hc' : c' ∈ Scanner.alignmentCenters ver) (hx : c.1 ≤ c'.1 + 4 ∧ c'.1 ≤ c.1 + 4)
    (hy : c.2 ≤ c'.2 + 4 ∧ c'.2 ≤ c.2 + 4) : c = c' := by
  have hmem (d : Place) (hd : d ∈ Scanner.alignmentCenters ver) :
      d.1 ∈ Scanner.alignmentCoordinates.getD ver [] ∧
        d.2 ∈ Scanner.alignmentCoordinates.getD ver [] :=
    List.pair_mem_product.mp (List.mem_filter.mp hd).1
  obtain ⟨hc1, hc2⟩ := hmem c hc
  obtain ⟨hc1', hc2'⟩ := hmem c' hc'
  have hfirst := alignmentCoordinates_apart ver c.1 hc1 c'.1 hc1'
  have hsecond := alignmentCoordinates_apart ver c.2 hc2 c'.2 hc2'
  exact Prod.ext (by omega) (by omega)

theorem isDark_finder {size : ℕ} {a b : ℤ} {call : Call} (h : call ∈ drawFinderPattern size a b) :
    call.isDark = decide (chebyshev (call.x - a) (call.y - b) ≠ 2 ∧
      chebyshev (call.x - a) (call.y - b) ≠ 4) := by
  simp only [drawFinderPattern, List.mem_flatMap] at h
  obtain ⟨dy, -, dx, -, h⟩ := h
  split_ifs at h with hinside
  · obtain rfl := List.mem_singleton.mp h
    simp only [add_sub_cancel_left]
  · exact absurd h List.not_mem_nil

theorem isDark_alignment {call : Call}
    (h : call ∈ drawAlignmentPatterns (getAlignmentPatternPositions ver)) :
    ∃ c ∈ Scanner.alignmentCenters ver, (|call.x - c.1| ≤ 2 ∧ |call.y - c.2| ≤ 2) ∧
      call.isDark = decide (chebyshev (call.x - c.1) (call.y - c.2) ≠ 1) := by
  rw [drawAlignmentPatterns_eq, alignmentCenters_eq, List.flatMap_map] at h
  obtain ⟨c, hc, h⟩ := List.mem_flatMap.mp h
  simp only [drawAlignmentPattern, List.mem_flatMap, List.mem_map, mem_offsets] at h
  obtain ⟨dy, hdy, dx, hdx, rfl⟩ := h
  refine ⟨c, hc, ?_⟩
  simp only [add_sub_cancel_left]
  exact ⟨⟨hdx, hdy⟩, trivial⟩

def cornerGrid (ver : Version) : Grid :=
  (((Grid.drawn ⟨fun _ => false, fun _ => false⟩ (drawTimingPatterns ver.size)).drawn
    (drawFinderPattern ver.size 3 3)).drawn
    (drawFinderPattern ver.size ((ver.size : ℤ) - 4) 3)).drawn
    (drawFinderPattern ver.size 3 ((ver.size : ℤ) - 4))

theorem functionGrid_modules (hformat : ¬ FormatArea ver.size x y)
    (hversion : ¬ VersionArea ver x y) :
    (functionGrid ver ecl).modules (x, y) = ((cornerGrid ver).drawn
      (drawAlignmentPatterns (getAlignmentPatternPositions ver))).modules (x, y) := by
  rw [functionGrid, drawFunctionPatterns, drawn_append, (drawVersion_covers ver).drawn_outside _
    hversion, drawn_append, (drawFormatBits_covers (lt_size ver) ecl 0).drawn_outside _ hformat,
    drawn_append, drawn_append, drawn_append, drawn_append]
  rfl

theorem alignment_area (hc : c ∈ Scanner.alignmentCenters ver)
    (hx : c.1 ≤ x + 2 ∧ x ≤ c.1 + 2) (hy : c.2 ≤ y + 2 ∧ y ≤ c.2 + 2) :
    ∃ c ∈ alignmentCenters ver, |(x : ℤ) - c.1| ≤ 2 ∧ |(y : ℤ) - c.2| ≤ 2 := by
  rw [alignmentCenters_eq]
  refine ⟨_, List.mem_map_of_mem hc, ?_⟩
  simp only [abs_le]
  omega

theorem functionGrid_alignment (ecl : Ecc) (hc : c ∈ Scanner.alignmentCenters ver)
    (hx : c.1 ≤ x + 2 ∧ x ≤ c.1 + 2) (hy : c.2 ≤ y + 2 ∧ y ≤ c.2 + 2) :
    ¬ FormatArea ver.size x y ∧ (functionGrid ver ecl).modules (x, y) =
      decide (chebyshev ((x : ℤ) - c.1) ((y : ℤ) - c.2) ≠ 1) := by
  have hplaces := (alignmentCenters_places ver c hc).2
  have hformat : ¬ FormatArea ver.size x y := by
    simp only [FormatArea]
    omega
  have hversion : ¬ VersionArea ver x y := by
    simp only [VersionArea]
    omega
  refine ⟨hformat, ?_⟩
  rw [functionGrid_modules hformat hversion]
  refine (drawAlignmentPatterns_covers ver).drawn_inside _ (alignment_area hc hx hy)
    fun call hcall hcx hcy => ?_
  obtain ⟨c', hc', hnear, hdark⟩ := isDark_alignment hcall
  simp only [hcx, hcy, abs_le] at hnear hdark
  obtain rfl := alignment_unique hc hc' (by omega) (by omega)
  exact hdark

theorem alignment_outside (hout : ∀ c ∈ Scanner.alignmentCenters ver,
    ¬ ((c.1 ≤ x + 2 ∧ x ≤ c.1 + 2) ∧ c.2 ≤ y + 2 ∧ y ≤ c.2 + 2)) (g : Grid) :
    (g.drawn (drawAlignmentPatterns (getAlignmentPatternPositions ver))).modules (x, y) =
      g.modules (x, y) := by
  refine (drawAlignmentPatterns_covers ver).drawn_outside g ?_
  rw [alignmentCenters_eq]
  rintro ⟨c', hc', hx, hy⟩
  obtain ⟨c, hc, rfl⟩ := List.mem_map.mp hc'
  rw [abs_le] at hx hy
  exact hout c hc (by dsimp only at hx hy; omega)

theorem functionGrid_finder (ecl : Ecc) (hc : c ∈ Scanner.finderCorners ver) (hx : x < ver.size)
    (hy : y < ver.size) (hxc : c.1 ≤ x + 1 ∧ x ≤ c.1 + 7) (hyc : c.2 ≤ y + 1 ∧ y ≤ c.2 + 7) :
    ¬ FormatArea ver.size x y ∧ FunctionArea ver x y ∧ (functionGrid ver ecl).modules (x, y) =
      decide (chebyshev ((x : ℤ) - (c.1 + 3)) ((y : ℤ) - (c.2 + 3)) ≠ 2 ∧
        chebyshev ((x : ℤ) - (c.1 + 3)) ((y : ℤ) - (c.2 + 3)) ≠ 4) := by
  have hsize : ver.size = ver.number * 4 + 17 := rfl
  have hpos : 1 ≤ ver.number := Nat.succ_pos _
  have hcorner : (c.1 = 0 ∧ c.2 = 0) ∨ (c.1 = ver.size - 7 ∧ c.2 = 0) ∨
      (c.1 = 0 ∧ c.2 = ver.size - 7) := by
    simp only [Scanner.finderCorners, side_eq, List.mem_cons, List.not_mem_nil, or_false] at hc
    rcases hc with rfl | rfl | rfl <;> simp
  have hformat : ¬ FormatArea ver.size x y := by
    simp only [FormatArea]
    omega
  have hversion : ¬ VersionArea ver x y := by
    simp only [VersionArea]
    omega
  have halign : ∀ c ∈ Scanner.alignmentCenters ver,
      ¬ ((c.1 ≤ x + 2 ∧ x ≤ c.1 + 2) ∧ c.2 ≤ y + 2 ∧ y ≤ c.2 + 2) := by
    intro c' hc'
    have hplaces := (alignmentCenters_places ver c' hc').2
    omega
  have hfinder (a b : ℤ) (hxa : (x : ℤ) - a = x - (c.1 + 3)) (hyb : (y : ℤ) - b = y - (c.2 + 3))
      (g : Grid) : (g.drawn (drawFinderPattern ver.size a b)).modules (x, y) =
        decide (chebyshev ((x : ℤ) - (c.1 + 3)) ((y : ℤ) - (c.2 + 3)) ≠ 2 ∧
          chebyshev ((x : ℤ) - (c.1 + 3)) ((y : ℤ) - (c.2 + 3)) ≠ 4) := by
    refine (drawFinderPattern_covers a b).drawn_inside g ?_ fun call hcall hcx hcy => ?_
    · simp only [Inside, abs_le]
      omega
    · rw [isDark_finder hcall, hcx, hcy, hxa, hyb]
  refine ⟨hformat, ?_, ?_⟩
  · simp only [FunctionArea]
    omega
  · rw [functionGrid_modules hformat hversion, alignment_outside halign, cornerGrid]
    rcases hcorner with hcorner | hcorner | hcorner
    · rw [(drawFinderPattern_covers _ _).drawn_outside,
        (drawFinderPattern_covers _ _).drawn_outside, hfinder 3 3 (by omega) (by omega)]
      all_goals
        simp only [abs_le]
        omega
    · rw [(drawFinderPattern_covers _ _).drawn_outside, hfinder _ 3 (by omega) (by omega)]
      simp only [abs_le]
      omega
    · rw [hfinder 3 _ (by omega) (by omega)]

theorem functionGrid_timing (ver : Version) (ecl : Ecc) {i : ℕ} (hx : 8 ≤ i) (hy : i + 8 < ver.size)
    (hline : (x = i ∧ y = 6) ∨ (x = 6 ∧ y = i)) :
    ¬ FormatArea ver.size x y ∧ (functionGrid ver ecl).modules (x, y) = decide (i % 2 = 0) := by
  have hformat : ¬ FormatArea ver.size x y := by
    simp only [FormatArea]
    omega
  have hversion : ¬ VersionArea ver x y := by
    simp only [VersionArea]
    omega
  refine ⟨hformat, ?_⟩
  by_cases halign : ∃ c ∈ Scanner.alignmentCenters ver,
      (c.1 ≤ x + 2 ∧ x ≤ c.1 + 2) ∧ c.2 ≤ y + 2 ∧ y ≤ c.2 + 2
  · -- an alignment pattern on the line is as the timing pattern there
    obtain ⟨c, hc, hcx, hcy⟩ := halign
    have hplaces := alignmentCenters_places ver c hc
    rw [(functionGrid_alignment ecl hc hcx hcy).2, chebyshev]
    refine decide_eq_decide.mpr ?_
    rcases abs_cases ((x : ℤ) - c.1) with hdx | hdx <;>
      rcases abs_cases ((y : ℤ) - c.2) with hdy | hdy <;> omega
  · rw [functionGrid_modules hformat hversion, alignment_outside
      fun c hc h => halign ⟨c, hc, h⟩, cornerGrid,
      (drawFinderPattern_covers _ _).drawn_outside, (drawFinderPattern_covers _ _).drawn_outside,
      (drawFinderPattern_covers _ _).drawn_outside]
    · refine (drawTimingPatterns_covers (by omega)).drawn_inside _ ?_ fun call hcall hcx hcy => ?_
      · simp only [Inside]
        omega
      · simp only [drawTimingPatterns, List.mem_flatMap, List.mem_range, List.mem_cons,
          List.not_mem_nil, or_false] at hcall
        obtain ⟨k, -, rfl | rfl⟩ := hcall <;> dsimp only at hcx hcy ⊢ <;>
          exact decide_eq_decide.mpr (by omega)
    all_goals
      simp only [abs_le]
      omega

end Drawn
section Symbols
variable {ver : Version} {ecl : Ecc} {codewords : List UInt8} {m : ℕ}

theorem symbol_function {x y : ℕ} (hx : x < ver.size) (hy : y < ver.size)
    (harea : FunctionArea ver x y) (hformat : ¬ FormatArea ver.size x y) :
    (symbol ver ecl codewords m).modules (x, y) = (functionGrid ver ecl).modules (x, y) := by
  have hout : (x, y) ∉ formatPlaces ver.size := fun hmem =>
    hformat (((drawFormatBits_covers (lt_size ver) .low 0).mem_place (x, y)).mp hmem)
  have hnodata : (x, y) ∉ dataPlaces ver := fun hmem => ((mem_dataPlaces ver).mp hmem).2.2 harea
  have hfunction : (dataGrid ver ecl codewords).isFunction (x, y) = true := by
    rw [dataGrid, functionGrid_isFunction ecl hx hy, decide_eq_true harea]
  show ((dataGrid ver ecl codewords).finished ver ecl m).modules (x, y) = _
  rw [(finished_of_notMem hout).1, hfunction, Bool.not_true, Bool.and_false, Bool.xor_false]
  exact Placement.place_of_notMem _ hnodata _

theorem symbol_darkModule :
    (symbol ver ecl codewords m).modules (8, ver.size - 8) = true := by
  have hsize := lt_size ver
  refine (drawFormatBits_covers hsize ecl m).drawn_inside _ ?_ fun call hcall hcx hcy => ?_
  · simp only [FormatArea]
    omega
  · simp only [drawFormatBits, List.mem_append, List.mem_map, List.mem_range, List.mem_cons,
      List.not_mem_nil, or_false] at hcall
    rcases hcall with ((((⟨i, hi, rfl⟩ | rfl | rfl | rfl) | ⟨i, hi, rfl⟩) | ⟨i, hi, rfl⟩) |
      ⟨i, hi, rfl⟩) | rfl
    all_goals dsimp only at hcx hcy ⊢
    all_goals omega

theorem symbol_finder {c : Place} (hc : c ∈ Scanner.finderCorners ver) {x y : ℕ}
    (hx : x < ver.size) (hy : y < ver.size) (hxc : c.1 ≤ x + 1 ∧ x ≤ c.1 + 7)
    (hyc : c.2 ≤ y + 1 ∧ y ≤ c.2 + 7) : (symbol ver ecl codewords m).modules (x, y) =
      decide (chebyshev ((x : ℤ) - (c.1 + 3)) ((y : ℤ) - (c.2 + 3)) ≠ 2 ∧
        chebyshev ((x : ℤ) - (c.1 + 3)) ((y : ℤ) - (c.2 + 3)) ≠ 4) := by
  obtain ⟨hformat, harea, hmodule⟩ := functionGrid_finder ecl hc hx hy hxc hyc
  rw [symbol_function hx hy harea hformat, hmodule]

theorem symbol_separator {p : Place} (hp : p ∈ Scanner.separators ver) :
    (symbol ver ecl codewords m).modules p = false := by
  have hsize : ver.size = ver.number * 4 + 17 := rfl
  -- a separator is the outer ring of the finder at its corner
  have hlight (c : Place) (hc : c ∈ Scanner.finderCorners ver) (x y : ℕ) (hx : x < ver.size)
      (hy : y < ver.size) (hxc : c.1 ≤ x + 1 ∧ x ≤ c.1 + 7) (hyc : c.2 ≤ y + 1 ∧ y ≤ c.2 + 7)
      (houter : x + 1 = c.1 ∨ x = c.1 + 7 ∨ y + 1 = c.2 ∨ y = c.2 + 7) :
      (symbol ver ecl codewords m).modules (x, y) = false := by
    rw [symbol_finder hc hx hy hxc hyc, decide_eq_false_iff_not, not_and_not_right]
    intro _
    rw [chebyshev]
    rcases abs_cases ((x : ℤ) - (c.1 + 3)) with hdx | hdx <;>
      rcases abs_cases ((y : ℤ) - (c.2 + 3)) with hdy | hdy <;> omega
  have hcorners : Scanner.finderCorners ver =
      [(0, 0), (ver.size - 7, 0), (0, ver.size - 7)] := by rw [Scanner.finderCorners, side_eq]
  have hupper := hlight (0, 0) (by simp [hcorners])
  have hright := hlight (ver.size - 7, 0) (by simp [hcorners])
  have hlower := hlight (0, ver.size - 7) (by simp [hcorners])
  dsimp only at hupper hright hlower
  simp only [Scanner.separators, side_eq, List.mem_flatMap, List.mem_range, List.mem_cons,
    List.not_mem_nil, or_false] at hp
  obtain ⟨i, hi, rfl | rfl | rfl | rfl | rfl | rfl⟩ := hp
  · exact hupper _ _ (by omega) (by omega) (by omega) (by omega) (by omega)
  · exact hupper _ _ (by omega) (by omega) (by omega) (by omega) (by omega)
  · exact hright _ _ (by omega) (by omega) (by omega) (by omega) (by omega)
  · exact hright _ _ (by omega) (by omega) (by omega) (by omega) (by omega)
  · exact hlower _ _ (by omega) (by omega) (by omega) (by omega) (by omega)
  · exact hlower _ _ (by omega) (by omega) (by omega) (by omega) (by omega)

theorem mem_stamp {rows : List ℕ} {corner : Place} {pattern : Place × Bool} :
    pattern ∈ Scanner.stamp rows corner ↔ ∃ y < rows.length, ∃ x < rows.length,
      pattern = ((corner.1 + x, corner.2 + y), (rows.getD y 0).testBit x) := by
  simp only [Scanner.stamp, List.mem_flatMap, List.mem_map, List.mem_range, eq_comm]

theorem patterns_inside : ∀ pattern ∈ Scanner.patterns ver,
    pattern.1.1 < ver.size ∧ pattern.1.2 < ver.size := by
  have hsize := lt_size ver
  intro pattern hpattern
  simp only [Scanner.patterns, side_eq, List.mem_append, or_assoc] at hpattern
  rcases hpattern with hfinder | hseparator | htiming | halign | hdark
  · obtain ⟨c, hc, hstamp⟩ := List.mem_flatMap.mp hfinder
    obtain ⟨dy, hdy, dx, hdx, rfl⟩ := mem_stamp.mp hstamp
    have hdy : dy < 7 := hdy
    have hdx : dx < 7 := hdx
    simp only [Scanner.finderCorners, side_eq, List.mem_cons, List.not_mem_nil, or_false] at hc
    rcases hc with rfl | rfl | rfl <;> dsimp only <;> omega
  · obtain ⟨p, hp, rfl⟩ := List.mem_map.mp hseparator
    simp only [Scanner.separators, side_eq, List.mem_flatMap, List.mem_range, List.mem_cons,
      List.not_mem_nil, or_false] at hp
    obtain ⟨i, hi, rfl | rfl | rfl | rfl | rfl | rfl⟩ := hp <;> dsimp only <;> omega
  · obtain ⟨i, hi, hmem⟩ := List.mem_flatMap.mp htiming
    have hi := List.mem_range.mp hi
    simp only [List.mem_cons, List.not_mem_nil, or_false] at hmem
    rcases hmem with rfl | rfl <;> dsimp only <;> omega
  · obtain ⟨c, hc, hstamp⟩ := List.mem_flatMap.mp halign
    obtain ⟨dy, hdy, dx, hdx, rfl⟩ := mem_stamp.mp hstamp
    have hdy : dy < 5 := hdy
    have hdx : dx < 5 := hdx
    have hbounds := alignment_inside ver c hc
    dsimp only
    omega
  · obtain rfl := List.mem_singleton.mp hdark
    dsimp only
    omega

theorem symbol_patterns : ∀ pattern ∈ Scanner.patterns ver,
    (symbol ver ecl codewords m).modules pattern.1 = pattern.2 := by
  have hsize : ver.size = ver.number * 4 + 17 := rfl
  have hpos : 1 ≤ ver.number := Nat.succ_pos _
  intro pattern hpattern
  simp only [Scanner.patterns, side_eq, List.mem_append, or_assoc] at hpattern
  rcases hpattern with hfinder | hseparator | htiming | halign | hdark
  · obtain ⟨c, hc, hstamp⟩ := List.mem_flatMap.mp hfinder
    obtain ⟨dy, hdy, dx, hdx, rfl⟩ := mem_stamp.mp hstamp
    have hdy : dy < 7 := hdy
    have hdx : dx < 7 := hdx
    have hcorner : c.1 + 7 ≤ ver.size ∧ c.2 + 7 ≤ ver.size := by
      simp only [Scanner.finderCorners, side_eq, List.mem_cons, List.not_mem_nil, or_false] at hc
      rcases hc with rfl | rfl | rfl <;> dsimp only <;> omega
    have hplace (a d : ℕ) : ((a + d : ℕ) : ℤ) - (a + 3) = d - 3 := by
      push_cast
      exact add_sub_add_left_eq_sub ..
    dsimp only
    rw [symbol_finder hc (by omega) (by omega) (by omega) (by omega), hplace, hplace,
      finder_eq dy hdy dx hdx]
  · obtain ⟨p, hp, rfl⟩ := List.mem_map.mp hseparator
    exact symbol_separator hp
  · obtain ⟨i, hi, hmem⟩ := List.mem_flatMap.mp htiming
    have hi := List.mem_range.mp hi
    have hparity : decide ((8 + i) % 2 = 0) = decide (i % 2 = 0) :=
      decide_eq_decide.mpr (by omega)
    simp only [List.mem_cons, List.not_mem_nil, or_false] at hmem
    have hline {x y : ℕ} (h : (x = 8 + i ∧ y = 6) ∨ (x = 6 ∧ y = 8 + i)) :
        (symbol ver ecl codewords m).modules (x, y) = decide (i % 2 = 0) := by
      obtain ⟨hformat, hmodule⟩ :=
        functionGrid_timing ver ecl (show 8 ≤ 8 + i by omega) (by omega) h
      rw [symbol_function (by omega) (by omega) (h.elim (fun h => .inr (.inl (by omega)))
        fun h => .inl (by omega)) hformat, hmodule, hparity]
    rcases hmem with rfl | rfl
    · exact hline (.inl ⟨rfl, rfl⟩)
    · exact hline (.inr ⟨rfl, rfl⟩)
  · obtain ⟨c, hc, hstamp⟩ := List.mem_flatMap.mp halign
    obtain ⟨dy, hdy, dx, hdx, rfl⟩ := mem_stamp.mp hstamp
    have hdy : dy < 5 := hdy
    have hdx : dx < 5 := hdx
    have hplaces := (alignmentCenters_places ver c hc).2
    have harea := alignment_area hc (x := c.1 - 2 + dx) (y := c.2 - 2 + dy) (by omega) (by omega)
    have hplace {a d : ℕ} (ha : 2 ≤ a) : ((a - 2 + d : ℕ) : ℤ) - a = d - 2 := by omega
    obtain ⟨call, hcall, hcx, hcy⟩ := ((drawAlignmentPatterns_covers ver).area _ _).mpr harea
    obtain ⟨-, hx, -, hy⟩ := hcx ▸ hcy ▸ (drawAlignmentPatterns_covers ver).inside call hcall
    obtain ⟨hformat, hmodule⟩ := functionGrid_alignment ecl hc
      (show c.1 ≤ c.1 - 2 + dx + 2 ∧ c.1 - 2 + dx ≤ c.1 + 2 by omega)
      (show c.2 ≤ c.2 - 2 + dy + 2 ∧ c.2 - 2 + dy ≤ c.2 + 2 by omega)
    dsimp only
    rw [symbol_function (by omega) (by omega) (.inr (.inr (.inr (.inr (.inr (.inl harea))))))
      hformat, hmodule, hplace (by omega), hplace (by omega), alignment_eq dy hdy dx hdx]
  · obtain rfl := List.mem_singleton.mp hdark
    exact symbol_darkModule

end Symbols
end Ppm.QrCode

import PhonePostMix.QrCode.Modules

/-! What is drawn: the function patterns cover one fixed area, the scan passes every other module
once, and the mask is the first one with the least penalty. -/

namespace Ppm.QrCode
open Radix

def Grid.drawn (g : Grid) (calls : List Call) : Grid where
  modules := Placement.place g.modules (calls.map Call.place) (calls.map Call.isDark)
  isFunction p := g.isFunction p || decide (p ∈ calls.map Call.place)

theorem setFunctionModules_eq {size : ℕ} {calls : List Call}
    (h : ∀ c ∈ calls, Inside size c.x c.y) (g : Grid) :
    setFunctionModules size g calls = .ok (g.drawn calls) := by
  induction calls generalizing g with
  | nil => simp [setFunctionModules, Grid.drawn, pure, Except.pure]
  | cons c calls ih =>
    obtain ⟨hfirst, hrest⟩ := List.forall_mem_cons.mp h
    rw [setFunctionModules, List.foldlM_cons, setFunctionModule, if_pos hfirst]
    refine (ih hrest _).trans (congrArg Except.ok ?_)
    have harea : (fun p => Function.update g.isFunction c.place true p ||
        decide (p ∈ calls.map Call.place)) =
        fun p => g.isFunction p || decide (p ∈ (c :: calls).map Call.place) := by
      funext p
      by_cases hp : p = c.place <;> simp [hp]
    rw [Grid.drawn, Grid.drawn, harea, List.map_cons, List.map_cons, Placement.place_cons]

section Areas

structure Covers (size : ℕ) (calls : List Call) (area : ℤ → ℤ → Prop) : Prop where
  inside : ∀ c ∈ calls, Inside size c.x c.y
  area : ∀ x y, (∃ c ∈ calls, c.x = x ∧ c.y = y) ↔ area x y

variable {size : ℕ} {calls more : List Call} {area area' : ℤ → ℤ → Prop}

theorem Covers.append (h : Covers size calls area) (h' : Covers size more area') :
    Covers size (calls ++ more) fun x y => area x y ∨ area' x y where
  inside c hc := (List.mem_append.mp hc).elim (h.inside c) (h'.inside c)
  area x y := by
    simp only [List.mem_append, or_and_right, exists_or, h.area, h'.area]

theorem Covers.mem_place (h : Covers size calls area) (p : Place) :
    p ∈ calls.map Call.place ↔ area p.1 p.2 := by
  rw [← h.area, List.mem_map]
  refine exists_congr fun c => and_congr_right fun hc => ?_
  obtain ⟨hx, -, hy, -⟩ := h.inside c hc
  rw [Call.place, Prod.ext_iff]
  dsimp only
  omega

theorem mem_offsets {r : ℕ} {d : ℤ} : d ∈ offsets r ↔ |d| ≤ r := by
  rw [offsets, List.mem_map, abs_le]
  constructor
  · rintro ⟨i, hi, rfl⟩
    have hi := List.mem_range.mp hi
    omega
  · rintro ⟨hlow, hhigh⟩
    exact ⟨(d + r).toNat, List.mem_range.mpr (by omega), by omega⟩

theorem drawTimingPatterns_covers (hsize : 6 < size) :
    Covers size (drawTimingPatterns size) fun x y => Inside size x y ∧ (x = 6 ∨ y = 6) where
  inside c hc := by
    obtain ⟨i, hi, hc⟩ := List.mem_flatMap.mp hc
    have hi := List.mem_range.mp hi
    simp only [List.mem_cons, List.not_mem_nil, or_false] at hc
    rcases hc with rfl | rfl <;> simp only [Inside] <;> omega
  area x y := by
    simp only [drawTimingPatterns, List.mem_flatMap, List.mem_range, List.mem_cons,
      List.not_mem_nil, or_false, Inside]
    constructor
    · rintro ⟨c, ⟨i, hi, rfl | rfl⟩, rfl, rfl⟩ <;> dsimp only <;> omega
    · rintro ⟨hinside, rfl | rfl⟩
      · exact ⟨_, ⟨y.toNat, by omega, .inl rfl⟩, rfl, by dsimp only; omega⟩
      · exact ⟨_, ⟨x.toNat, by omega, .inr rfl⟩, by dsimp only; omega, rfl⟩

theorem drawFinderPattern_covers (a b : ℤ) :
    Covers size (drawFinderPattern size a b) fun x y =>
      Inside size x y ∧ |x - a| ≤ 4 ∧ |y - b| ≤ 4 := by
  have hmem (c : Call) : c ∈ drawFinderPattern size a b ↔ ∃ dy, |dy| ≤ 4 ∧ ∃ dx, |dx| ≤ 4 ∧
      Inside size (a + dx) (b + dy) ∧
      c = ⟨a + dx, b + dy, chebyshev dx dy ≠ 2 ∧ chebyshev dx dy ≠ 4⟩ := by
    simp only [drawFinderPattern, List.mem_flatMap, mem_offsets, Nat.cast_ofNat]
    refine exists_congr fun dy => and_congr_right fun _ => exists_congr fun dx =>
      and_congr_right fun _ => ?_
    split_ifs with hinside <;> simp [hinside]
  refine ⟨fun c hc => ?_, fun x y => ⟨?_, ?_⟩⟩
  · obtain ⟨dy, -, dx, -, hinside, rfl⟩ := (hmem c).mp hc
    exact hinside
  · rintro ⟨c, hc, rfl, rfl⟩
    obtain ⟨dy, hdy, dx, hdx, hinside, rfl⟩ := (hmem c).mp hc
    exact ⟨hinside, by rwa [add_sub_cancel_left], by rwa [add_sub_cancel_left]⟩
  · rintro ⟨hinside, hx, hy⟩
    refine ⟨_, (hmem _).mpr ⟨y - b, hy, x - a, hx, ?_, rfl⟩, add_sub_cancel .., add_sub_cancel ..⟩
    rwa [add_sub_cancel, add_sub_cancel]

theorem drawAlignmentPattern_covers {a b : ℤ} (ha : 2 ≤ a ∧ a + 2 < size)
    (hb : 2 ≤ b ∧ b + 2 < size) :
    Covers size (drawAlignmentPattern a b) fun x y => |x - a| ≤ 2 ∧ |y - b| ≤ 2 := by
  have hmem (c : Call) : c ∈ drawAlignmentPattern a b ↔ ∃ dy, |dy| ≤ 2 ∧ ∃ dx, |dx| ≤ 2 ∧
      ⟨a + dx, b + dy, chebyshev dx dy ≠ 1⟩ = c := by
    simp only [drawAlignmentPattern, List.mem_flatMap, List.mem_map, mem_offsets, Nat.cast_ofNat]
  refine ⟨fun c hc => ?_, fun x y => ⟨?_, ?_⟩⟩
  · obtain ⟨dy, hdy, dx, hdx, rfl⟩ := (hmem c).mp hc
    have hdx := abs_le.mp hdx
    have hdy := abs_le.mp hdy
    simp only [Inside]
    omega
  · rintro ⟨c, hc, rfl, rfl⟩
    obtain ⟨dy, hdy, dx, hdx, rfl⟩ := (hmem c).mp hc
    exact ⟨by rwa [add_sub_cancel_left], by rwa [add_sub_cancel_left]⟩
  · rintro ⟨hx, hy⟩
    exact ⟨_, (hmem _).mpr ⟨y - b, hy, x - a, hx, rfl⟩, add_sub_cancel .., add_sub_cancel ..⟩

theorem Covers.flatMap {ι : Type} {is : List ι} {f : ι → List Call} {areas : ι → ℤ → ℤ → Prop}
    (h : ∀ i ∈ is, Covers size (f i) (areas i)) :
    Covers size (is.flatMap f) fun x y => ∃ i ∈ is, areas i x y where
  inside c hc := by
    obtain ⟨i, hi, hc⟩ := List.mem_flatMap.mp hc
    exact (h i hi).inside c hc
  area x y := by
    simp only [List.mem_flatMap]
    constructor
    · rintro ⟨c, ⟨i, hi, hc⟩, hxy⟩
      exact ⟨i, hi, ((h i hi).area x y).mp ⟨c, hc, hxy⟩⟩
    · rintro ⟨i, hi, hxy⟩
      obtain ⟨c, hc, hxy⟩ := ((h i hi).area x y).mpr hxy
      exact ⟨c, ⟨i, hi, hc⟩, hxy⟩

def alignmentCenters (ver : Version) : List (ℤ × ℤ) :=
  let pos := getAlignmentPatternPositions ver
  (List.range pos.length).flatMap fun i => (List.range pos.length).flatMap fun j =>
    if ¬ ((i = 0 ∧ j = 0) ∨ (i = 0 ∧ j = pos.length - 1) ∨ (i = pos.length - 1 ∧ j = 0)) then
      [(pos.getD i 0, pos.getD j 0)]
    else []

theorem alignmentCenters_bounds : ∀ ver, ∀ c ∈ alignmentCenters ver,
    (2 ≤ c.1 ∧ c.1 + 2 < ver.size) ∧ 2 ≤ c.2 ∧ c.2 + 2 < ver.size := by decide

theorem drawAlignmentPatterns_eq (ver : Version) :
    drawAlignmentPatterns (getAlignmentPatternPositions ver) =
      (alignmentCenters ver).flatMap fun c => drawAlignmentPattern c.1 c.2 := by
  simp only [drawAlignmentPatterns, alignmentCenters, List.flatMap_assoc]
  refine List.flatMap_congr fun i _ => List.flatMap_congr fun j _ => ?_
  split_ifs <;> simp

theorem drawAlignmentPatterns_covers (ver : Version) :
    Covers ver.size (drawAlignmentPatterns (getAlignmentPatternPositions ver)) fun x y =>
      ∃ c ∈ alignmentCenters ver, |x - c.1| ≤ 2 ∧ |y - c.2| ≤ 2 := by
  rw [drawAlignmentPatterns_eq]
  refine Covers.flatMap fun c hc => ?_
  obtain ⟨hx, hy⟩ := alignmentCenters_bounds ver c hc
  exact drawAlignmentPattern_covers hx hy

def FormatArea (size : ℕ) (x y : ℤ) : Prop :=
  (x = 8 ∧ 0 ≤ y ∧ y ≤ 8 ∧ y ≠ 6) ∨ (y = 8 ∧ 0 ≤ x ∧ x < 8 ∧ x ≠ 6) ∨
    (y = 8 ∧ (size : ℤ) - 8 ≤ x ∧ x < size) ∨ (x = 8 ∧ (size : ℤ) - 8 ≤ y ∧ y < size)

theorem drawFormatBits_covers (hsize : 16 < size) (ecl : Ecc) (msk : ℕ) :
    Covers size (drawFormatBits size ecl msk) (FormatArea size) := by
  have harea : ∀ c ∈ drawFormatBits size ecl msk,
      Inside size c.x c.y ∧ FormatArea size c.x c.y := by
    intro c hc
    simp only [drawFormatBits, List.mem_append, List.mem_map, List.mem_range, List.mem_cons,
      List.not_mem_nil, or_false] at hc
    rcases hc with ((((⟨i, hi, rfl⟩ | rfl | rfl | rfl) | ⟨i, hi, rfl⟩) | ⟨i, hi, rfl⟩) |
      ⟨i, hi, rfl⟩) | rfl <;>
    · dsimp only [Inside, FormatArea]
      omega
  refine ⟨fun c hc => (harea c hc).1, fun x y => ⟨?_, fun hxy => ?_⟩⟩
  · rintro ⟨c, hc, rfl, rfl⟩
    exact (harea c hc).2
  · simp only [drawFormatBits, List.mem_append, List.mem_map, List.mem_range, List.mem_cons,
      List.not_mem_nil, or_false]
    rcases hxy with ⟨rfl, hxy⟩ | ⟨rfl, hxy⟩ | ⟨rfl, hxy⟩ | ⟨rfl, hxy⟩
    · by_cases hfirst : y < 6
      · exact ⟨_, .inl (.inl (.inl (.inl (.inl ⟨y.toNat, by omega, rfl⟩)))), rfl,
          by dsimp only; omega⟩
      · by_cases hseven : y = 7
        · exact ⟨_, .inl (.inl (.inl (.inl (.inr (.inl rfl))))), rfl, hseven.symm⟩
        · exact ⟨_, .inl (.inl (.inl (.inl (.inr (.inr (.inl rfl)))))), rfl,
            by dsimp only; omega⟩
    · by_cases hseven : x = 7
      · exact ⟨_, .inl (.inl (.inl (.inl (.inr (.inr (.inr rfl)))))), hseven.symm, rfl⟩
      · exact ⟨_, .inl (.inl (.inl (.inr ⟨(5 - x).toNat, by omega, rfl⟩))),
          by dsimp only; omega, rfl⟩
    · exact ⟨_, .inl (.inl (.inr ⟨(size - 1 - x).toNat, by omega, rfl⟩)),
        by dsimp only; omega, rfl⟩
    · by_cases hdark : y = (size : ℤ) - 8
      · exact ⟨_, .inr rfl, rfl, hdark.symm⟩
      · exact ⟨_, .inl (.inr ⟨(y - (size - 7)).toNat, by omega, rfl⟩), rfl,
          by dsimp only; omega⟩

def VersionArea (ver : Version) (x y : ℤ) : Prop :=
  7 ≤ ver.number ∧
    (((ver.size : ℤ) - 11 ≤ x ∧ x < ver.size - 8 ∧ 0 ≤ y ∧ y < 6) ∨
      (0 ≤ x ∧ x < 6 ∧ (ver.size : ℤ) - 11 ≤ y ∧ y < ver.size - 8))

instance (ver : Version) (x y : ℤ) : Decidable (VersionArea ver x y) :=
  inferInstanceAs (Decidable (_ ∧ _))

theorem drawVersion_covers (ver : Version) :
    Covers ver.size (drawVersion ver) (VersionArea ver) := by
  have hsize : ver.size = ver.number * 4 + 17 := rfl
  rw [drawVersion]
  split_ifs with hsmall
  · refine ⟨fun c hc => absurd hc List.not_mem_nil, fun x y => ?_⟩
    exact iff_of_false (by simp) fun hxy => absurd hxy.1 (by omega)
  · refine ⟨fun c hc => ?_, fun x y => ⟨?_, ?_⟩⟩
    · simp only [List.mem_flatMap, List.mem_range, List.mem_cons, List.not_mem_nil,
        or_false] at hc
      rcases hc with ⟨i, hi, rfl | rfl⟩ <;> dsimp only [Inside] <;> omega
    · simp only [List.mem_flatMap, List.mem_range, List.mem_cons, List.not_mem_nil, or_false]
      rintro ⟨c, ⟨i, hi, rfl | rfl⟩, rfl, rfl⟩ <;> dsimp only [VersionArea] <;> omega
    · simp only [List.mem_flatMap, List.mem_range, List.mem_cons, List.not_mem_nil, or_false]
      rintro ⟨-, ⟨hx, hx', hy, hy'⟩ | ⟨hx, hx', hy, hy'⟩⟩
      · refine ⟨_, ⟨3 * y.toNat + (x - (ver.size - 11)).toNat, by omega, .inl rfl⟩, ?_, ?_⟩ <;>
          dsimp only <;> omega
      · refine ⟨_, ⟨3 * x.toNat + (y - (ver.size - 11)).toNat, by omega, .inr rfl⟩, ?_, ?_⟩ <;>
          dsimp only <;> omega

def FunctionArea (ver : Version) (x y : ℤ) : Prop :=
  x = 6 ∨ y = 6 ∨ (x < 9 ∧ y < 9) ∨ ((ver.size : ℤ) - 8 ≤ x ∧ y < 9) ∨
    (x < 9 ∧ (ver.size : ℤ) - 8 ≤ y) ∨
    (∃ c ∈ alignmentCenters ver, |x - c.1| ≤ 2 ∧ |y - c.2| ≤ 2) ∨ VersionArea ver x y

instance (ver : Version) (x y : ℤ) : Decidable (FunctionArea ver x y) :=
  inferInstanceAs (Decidable (_ ∨ _ ∨ _ ∨ _ ∨ _ ∨ _ ∨ _))

theorem drawFunctionPatterns_covers (ver : Version) (ecl : Ecc) :
    Covers ver.size (drawFunctionPatterns ver ecl) fun x y =>
      Inside ver.size x y ∧ FunctionArea ver x y := by
  have hsize : ver.size = ver.number * 4 + 17 := rfl
  have hpos : 1 ≤ ver.number := Nat.succ_pos _
  have hall := (((((((drawTimingPatterns_covers (show 6 < ver.size by omega)).append
    (drawFinderPattern_covers 3 3)).append (drawFinderPattern_covers (ver.size - 4) 3)).append
    (drawFinderPattern_covers 3 (ver.size - 4))).append (drawAlignmentPatterns_covers ver)).append
    (drawFormatBits_covers (by omega) ecl 0)).append (drawVersion_covers ver))
  refine ⟨hall.inside, fun x y => (hall.area x y).trans ⟨fun hxy => ?_, fun hxy => ?_⟩⟩
  · have hinside : Inside ver.size x y := by
      obtain ⟨c, hc, rfl, rfl⟩ := (hall.area x y).mpr hxy
      exact hall.inside c hc
    refine ⟨hinside, ?_⟩
    simp only [Inside, FormatArea, abs_le] at hxy hinside
    simp only [FunctionArea, abs_le]
    rcases hxy with (((((hxy | hxy) | hxy) | hxy) | halign) | hxy) | hversion
    · exact hxy.2.elim .inl fun hy => .inr (.inl hy)
    · exact .inr (.inr (.inl (by omega)))
    · exact .inr (.inr (.inr (.inl (by omega))))
    · exact .inr (.inr (.inr (.inr (.inl (by omega)))))
    · exact .inr (.inr (.inr (.inr (.inr (.inl halign)))))
    · by_cases hleft : x < 9
      · by_cases hupper : y < 9
        · exact .inr (.inr (.inl ⟨hleft, hupper⟩))
        · exact .inr (.inr (.inr (.inr (.inl (by omega)))))
      · exact .inr (.inr (.inr (.inl (by omega))))
    · exact .inr (.inr (.inr (.inr (.inr (.inr hversion)))))
  · -- a corner has its finder pattern, and next to it the format or a timing pattern
    obtain ⟨hinside, hxy⟩ := hxy
    have htiming (h : x = 6 ∨ y = 6) : Inside ver.size x y ∧ (x = 6 ∨ y = 6) := ⟨hinside, h⟩
    have hfinder (a b : ℤ) (h : |x - a| ≤ 4 ∧ |y - b| ≤ 4) :
        Inside ver.size x y ∧ |x - a| ≤ 4 ∧ |y - b| ≤ 4 := ⟨hinside, h⟩
    have hbounds := hinside
    simp only [Inside] at hbounds
    rcases hxy with hxy | hxy | hxy | hxy | hxy | halign | hversion
    · exact .inl (.inl (.inl (.inl (.inl (.inl (htiming (.inl hxy)))))))
    · exact .inl (.inl (.inl (.inl (.inl (.inl (htiming (.inr hxy)))))))
    · by_cases hin : x < 8 ∧ y < 8
      · refine .inl (.inl (.inl (.inl (.inl (.inr (hfinder 3 3 ?_))))))
        simp only [abs_le]
        omega
      · by_cases hsix : x = 6 ∨ y = 6
        · exact .inl (.inl (.inl (.inl (.inl (.inl (htiming hsix))))))
        · refine .inl (.inr ?_)
          simp only [FormatArea]
          omega
    · by_cases hin : y < 8
      · refine .inl (.inl (.inl (.inl (.inr (hfinder (ver.size - 4) 3 ?_)))))
        simp only [abs_le]
        omega
      · refine .inl (.inr ?_)
        simp only [FormatArea]
        omega
    · by_cases hin : x < 8
      · refine .inl (.inl (.inl (.inr (hfinder 3 (ver.size - 4) ?_))))
        simp only [abs_le]
        omega
      · refine .inl (.inr ?_)
        simp only [FormatArea]
        omega
    · exact .inl (.inl (.inr halign))
    · exact .inr hversion

end Areas
section Zigzag

theorem columnPairs_spec (n : ℕ) :
    (∀ r ∈ columnPairs n, 1 ≤ r ∧ r ≤ n) ∧ (columnPairs n).Pairwise fun a b => b + 2 ≤ a := by
  induction n using columnPairs.induct with
  | case1 n hnone => simp [columnPairs, hnone]
  | case2 n hsome right ih =>
    obtain ⟨hbounds, hpairwise⟩ := ih
    have hright : 1 ≤ right ∧ right ≤ n := by
      show 1 ≤ (if n = 6 then 5 else n) ∧ (if n = 6 then 5 else n) ≤ n
      split_ifs <;> omega
    rw [columnPairs, dif_neg hsome]
    refine ⟨List.forall_mem_cons.mpr ⟨hright, fun r hr => ?_⟩,
      List.pairwise_cons.mpr ⟨fun r hr => ?_, hpairwise⟩⟩
    · have hr := hbounds r hr
      omega
    · obtain ⟨hlow, hhigh⟩ : 1 ≤ r ∧ r ≤ (if n = 6 then 5 else n) - 2 := hbounds r hr
      split_ifs at hhigh ⊢ <;> omega

theorem mem_columnPairs (k r : ℕ) : r ∈ columnPairs (2 * k + 8) ↔
    (r % 2 = 0 ∧ 8 ≤ r ∧ r ≤ 2 * k + 8) ∨ r = 5 ∨ r = 3 ∨ r = 1 := by
  induction k with
  | zero =>
    have hlist : columnPairs 8 = [8, 5, 3, 1] := by simp [columnPairs]
    rw [hlist]
    simp only [List.mem_cons, List.not_mem_nil, or_false]
    omega
  | succ k ih =>
    have hstep : columnPairs (2 * (k + 1) + 8) = (2 * (k + 1) + 8) :: columnPairs (2 * k + 8) := by
      rw [columnPairs, dif_neg (by omega), if_neg (by omega)]
      rfl
    rw [hstep, List.mem_cons, ih]
    omega

variable {size : ℕ}

theorem mem_zigzag {k x y : ℕ} (hsize : size = 2 * k + 9) :
    (x, y) ∈ zigzag size ↔ x < size ∧ y < size ∧ x ≠ 6 := by
  have hlast : size - 1 = 2 * k + 8 := by omega
  simp only [zigzag, hlast, List.mem_flatMap, List.mem_map, List.mem_range, mem_columnPairs,
    Prod.mk.injEq]
  constructor
  · rintro ⟨right, hright, vert, hvert, j, hj, rfl, rfl⟩
    refine ⟨by omega, ?_, by omega⟩
    split_ifs <;> omega
  · rintro ⟨hx, hy, hsix⟩
    obtain ⟨right, hright, j, hj, rfl⟩ : ∃ right, ((right % 2 = 0 ∧ 8 ≤ right ∧
        right ≤ 2 * k + 8) ∨ right = 5 ∨ right = 3 ∨ right = 1) ∧ ∃ j < 2, right - j = x := by
      by_cases hright : (x % 2 = 0 ∧ 8 ≤ x ∧ x ≤ 2 * k + 8) ∨ x = 5 ∨ x = 3 ∨ x = 1
      · exact ⟨x, hright, 0, by decide, rfl⟩
      · exact ⟨x + 1, by omega, 1, by decide, rfl⟩
    by_cases hupward : (right + 1) &&& 2 = 0
    · refine ⟨right, hright, size - 1 - y, by omega, j, hj, rfl, ?_⟩
      rw [if_pos hupward]
      omega
    · exact ⟨right, hright, y, hy, j, hj, rfl, if_neg hupward⟩

theorem nodup_zigzag (size : ℕ) : (zigzag size).Nodup := by
  obtain ⟨hbounds, hpairwise⟩ := columnPairs_spec (size - 1)
  rw [zigzag, List.nodup_flatMap]
  refine ⟨fun right hright => ?_, hpairwise.imp_of_mem fun {a b} ha hb hab => ?_⟩
  · have hright := hbounds right hright
    rw [List.nodup_flatMap]
    refine ⟨fun vert _ => ?_, List.nodup_range.imp_of_mem fun {v w} hv hw hne => ?_⟩
    · refine List.nodup_range.map_on fun i hi j hj h => ?_
      have hi := List.mem_range.mp hi
      have hj := List.mem_range.mp hj
      have h := congrArg Prod.fst h
      dsimp only at h
      omega
    · have hv := List.mem_range.mp hv
      have hw := List.mem_range.mp hw
      rw [Function.onFun, List.disjoint_left]
      rintro p hp hq
      obtain ⟨i, -, rfl⟩ := List.mem_map.mp hp
      obtain ⟨j, -, hq⟩ := List.mem_map.mp hq
      have hq := congrArg Prod.snd hq
      dsimp only at hq
      split_ifs at hq <;> omega
  · have ha := hbounds a ha
    have hb := hbounds b hb
    rw [Function.onFun, List.disjoint_left]
    intro p hp hq
    obtain ⟨_, -, hp⟩ := List.mem_flatMap.mp hp
    obtain ⟨_, -, hq⟩ := List.mem_flatMap.mp hq
    obtain ⟨i, hi, rfl⟩ := List.mem_map.mp hp
    obtain ⟨j, hj, hq⟩ := List.mem_map.mp hq
    have hi := List.mem_range.mp hi
    have hj := List.mem_range.mp hj
    have hq := congrArg Prod.fst hq
    dsimp only at hq
    omega

end Zigzag
end Ppm.QrCode

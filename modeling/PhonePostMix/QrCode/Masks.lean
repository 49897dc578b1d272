import PhonePostMix.QrCode.Codewords

/-! The mask that is chosen, and the symbol that is finished with it. -/

namespace Ppm.QrCode

section Finished

def Grid.masked (msk : ℕ) (g : Grid) : Grid :=
  { g with modules := fun p => g.modules p ^^ (invert msk p && !g.isFunction p) }

def Grid.finished (ver : Version) (ecl : Ecc) (g : Grid) (msk : ℕ) : Grid :=
  (g.masked msk).drawn (drawFormatBits ver.size ecl msk)

def formatPlaces (size : ℕ) : List Place := (drawFormatBits size .low 0).map Call.place

variable {ver : Version} {ecl : Ecc} {g : Grid} {m : ℕ} {p : Place}

theorem applyMask_eq (hm : m < 8) (g : Grid) : applyMask m g = .ok (g.masked m) :=
  if_neg (by omega)

theorem lt_size (ver : Version) : 16 < ver.size := by
  have hsize : ver.size = ver.number * 4 + 17 := rfl
  omega

theorem drawFormatBits_eq (ver : Version) (ecl : Ecc) (m : ℕ) (g : Grid) :
    setFunctionModules ver.size g (drawFormatBits ver.size ecl m) =
      .ok (g.drawn (drawFormatBits ver.size ecl m)) :=
  setFunctionModules_eq (drawFormatBits_covers (lt_size ver) ecl m).inside g

theorem formatPlaces_eq (size : ℕ) (ecl : Ecc) (m : ℕ) :
    (drawFormatBits size ecl m).map Call.place = formatPlaces size := by
  simp [formatPlaces, drawFormatBits, Call.place, Function.comp_def]

theorem length_formatPlaces (size : ℕ) : (formatPlaces size).length = 31 := by
  simp [formatPlaces, drawFormatBits]

theorem length_formatBits (size : ℕ) (ecl : Ecc) (m : ℕ) :
    ((drawFormatBits size ecl m).map Call.isDark).length = 31 := by
  simp [drawFormatBits]

theorem finished_modules (ver : Version) (ecl : Ecc) (g : Grid) (m : ℕ) :
    (g.finished ver ecl m).modules = Placement.place (g.masked m).modules (formatPlaces ver.size)
      ((drawFormatBits ver.size ecl m).map Call.isDark) := by
  rw [Grid.finished, Grid.drawn, formatPlaces_eq]

theorem finished_isFunction (ver : Version) (ecl : Ecc) (g : Grid) (m : ℕ) (p : Place) :
    (g.finished ver ecl m).isFunction p =
      (g.isFunction p || decide (p ∈ formatPlaces ver.size)) := by
  rw [Grid.finished, Grid.drawn, formatPlaces_eq]
  rfl

theorem finished_of_notMem (hp : p ∉ formatPlaces ver.size) :
    (g.finished ver ecl m).modules p = (g.modules p ^^ (invert m p && !g.isFunction p)) ∧
      (g.finished ver ecl m).isFunction p = g.isFunction p := by
  refine ⟨?_, ?_⟩
  · rw [finished_modules, Placement.place_of_notMem _ hp]
    rfl
  · rw [finished_isFunction, decide_eq_false hp, Bool.or_false]

theorem finished_tried (i : ℕ) :
    ((g.finished ver ecl i).masked i).finished ver ecl m = g.finished ver ecl m := by
  apply Grid.ext
  · funext p
    by_cases hp : p ∈ formatPlaces ver.size
    · rw [finished_modules, finished_modules]
      exact Placement.place_congr _ _ (by rw [length_formatPlaces, length_formatBits]) hp
    · -- off the format, the mask that was tried is undone before the next one
      obtain ⟨hmodule, hfunction⟩ : (g.finished ver ecl i).modules p =
          (g.modules p ^^ (invert i p && !g.isFunction p)) ∧
            (g.finished ver ecl i).isFunction p = g.isFunction p := finished_of_notMem hp
      rw [(finished_of_notMem hp).1, (finished_of_notMem hp).1]
      simp only [Grid.masked, hmodule, hfunction]
      rw [Bool.xor_assoc (g.modules p), Bool.xor_self, Bool.xor_false]
  · funext p
    rw [finished_isFunction, finished_isFunction, Grid.masked, finished_isFunction, Bool.or_assoc,
      Bool.or_self]

end Finished
section Penalty
variable {size : ℕ}

theorem finderPenaltyCountPatterns_le (runHistory : List ℕ) :
    finderPenaltyCountPatterns runHistory ≤ 2 := by
  rw [finderPenaltyCountPatterns]
  dsimp only
  split_ifs <;> decide

theorem runStep_le (s : Run) (color : Bool) : (runStep size s color).result ≤ s.result + 80 := by
  have hcount := finderPenaltyCountPatterns_le
    (finderPenaltyAddHistory size s.length s.runHistory)
  rw [runStep]
  dsimp only [penaltyN1, penaltyN3]
  split_ifs <;> dsimp only <;> omega

theorem linePenalty_le (line : List Bool) : linePenalty size line ≤ 80 * (line.length + 1) := by
  have hrun (s : Run) : (line.foldl (runStep size) s).result ≤ s.result + 80 * line.length := by
    induction line generalizing s with
    | nil => simp
    | cons color line ih =>
      have hstep : (runStep size s color).result ≤ s.result + 80 := runStep_le s color
      have hrest := ih (runStep size s color)
      rw [List.foldl_cons, List.length_cons]
      push_cast
      omega
  have hloop := hrun {}
  have hlast (c : Bool) (n : ℕ) (h : List ℕ) : finderPenaltyTerminateAndCount size c n h ≤ 2 :=
    finderPenaltyCountPatterns_le _
  rw [linePenalty]
  dsimp only [penaltyN3] at hloop ⊢
  have hend := hlast (line.foldl (runStep size) {}).runColor
    (line.foldl (runStep size) {}).length (line.foldl (runStep size) {}).runHistory
  omega

theorem sum_range_le {f : ℕ → ℤ} {n : ℕ} {b : ℤ} (h : ∀ i, f i ≤ b) :
    ((List.range n).map f).sum ≤ n * b := by
  induction n with
  | zero => simp
  | succ n ih =>
    rw [List.range_succ, List.map_append, List.sum_append, List.map_singleton, List.sum_singleton]
    push_cast
    have hlast := h n
    rw [add_mul, one_mul]
    omega

theorem getPenaltyScore_lt (hsize : size ≤ 177) (hpos : 0 < size) (module : Place → Bool) :
    getPenaltyScore size module < longMax := by
  have hside : (size : ℤ) ≤ 177 := by exact_mod_cast hsize
  have hnat : (0 : ℤ) < size := by exact_mod_cast hpos
  have hline (f : ℕ → ℕ → Bool) (i : ℕ) :
      linePenalty size ((List.range size).map (f i)) ≤ 80 * (size + 1) := by
    have hle : linePenalty size ((List.range size).map (f i)) ≤ _ := linePenalty_le _
    rwa [List.length_map, List.length_range] at hle
  have hrows := sum_range_le (n := size) (hline fun y x => module (x, y))
  have hcolumns := sum_range_le (n := size) (hline fun x y => module (x, y))
  have hblocks := sum_range_le (n := size - 1) (b := (size - 1 : ℕ) * penaltyN2)
    (f := fun y => ((List.range (size - 1)).map fun x =>
      if module (x, y) = module (x + 1, y) ∧ module (x, y) = module (x, y + 1) ∧
        module (x, y) = module (x + 1, y + 1) then penaltyN2 else 0).sum) fun y =>
      sum_range_le fun x => by
        split_ifs
        · exact le_rfl
        · decide
  have hbalance (dark total : ℤ) (h0 : 0 ≤ dark) (h1 : dark ≤ total) (ht : 0 < total) :
      (|dark * 20 - total * 10| + total - 1).tdiv total - 1 ≤ 10 := by
    have habs : |dark * 20 - total * 10| ≤ total * 10 := by
      rw [abs_le]
      omega
    have habs0 := abs_nonneg (dark * 20 - total * 10)
    rw [Int.tdiv_eq_ediv_of_nonneg (by omega)]
    have hnumerator : |dark * 20 - total * 10| + total - 1 < 11 * total := by omega
    have hlt := Int.ediv_lt_of_lt_mul ht hnumerator
    omega
  have hdark : ((List.range size).map fun y =>
      (List.range size).countP fun x => module (x, y)).sum ≤ size * size := by
    refine (List.sum_le_card_nsmul _ size fun n hn => ?_).trans ?_
    · obtain ⟨y, -, rfl⟩ := List.mem_map.mp hn
      exact List.countP_le_length.trans (List.length_range).le
    · rw [List.length_map, List.length_range, smul_eq_mul]
  have hlines : (size : ℤ) * (80 * (size + 1)) ≤ 177 * (80 * 178) :=
    mul_le_mul hside (by omega) (by omega) (by decide)
  have hsquares : ((size - 1 : ℕ) : ℤ) * ((size - 1 : ℕ) * penaltyN2) ≤ 176 * (176 * 3) := by
    have hless : ((size - 1 : ℕ) : ℤ) ≤ 176 := by omega
    refine mul_le_mul hless ?_ (by simp only [penaltyN2]; omega) (by decide)
    simp only [penaltyN2]
    omega
  have hk := hbalance _ (size * size) (Nat.cast_nonneg _) (by exact_mod_cast hdark)
    (mul_pos hnat hnat)
  unfold getPenaltyScore
  refine lt_of_le_of_lt (add_le_add (add_le_add (add_le_add (hrows.trans hlines)
    (hcolumns.trans hlines)) (hblocks.trans hsquares)) (mul_le_mul_of_nonneg_right hk ?_)) ?_
  · decide
  · decide

end Penalty
section Choice
variable {ver : Version} {ecl : Ecc} {g : Grid}

def penalty (ver : Version) (ecl : Ecc) (g : Grid) (m : ℕ) : ℤ :=
  getPenaltyScore ver.size (g.finished ver ecl m).modules

structure FirstLeast (f : ℕ → ℤ) (n m : ℕ) : Prop where
  lt : m < n
  least : ∀ j < n, f m ≤ f j
  first : ∀ j < m, f m < f j

theorem FirstLeast.next {f : ℕ → ℤ} {n m : ℕ} (h : FirstLeast f n m) :
    FirstLeast f (n + 1) (if f n < f m then n else m) := by
  split_ifs with hless
  · refine ⟨Nat.lt_succ_self n, fun j hj => ?_, fun j hj => hless.trans_le (h.least j hj)⟩
    rcases Nat.lt_succ_iff_lt_or_eq.mp hj with hj | rfl
    · exact hless.le.trans (h.least j hj)
    · exact le_rfl
  · refine ⟨Nat.lt_succ_of_lt h.lt, fun j hj => ?_, h.first⟩
    rcases Nat.lt_succ_iff_lt_or_eq.mp hj with hj | rfl
    · exact h.least j hj
    · exact not_lt.mp hless

structure Tried (ver : Version) (ecl : Ecc) (g : Grid) (n : ℕ) (s : MaskChoice) : Prop where
  same : ∀ m, s.grid.finished ver ecl m = g.finished ver ecl m
  best : (n = 0 ∧ s.minPenalty = longMax) ∨
    ∃ m : ℕ, s.msk = m ∧ s.minPenalty = penalty ver ecl g m ∧ FirstLeast (penalty ver ecl g) n m

theorem penalty_lt (ver : Version) (ecl : Ecc) (g : Grid) (m : ℕ) :
    penalty ver ecl g m < longMax := by
  have hsize : ver.size = ver.number * 4 + 17 := rfl
  have hnumber : ver.number = ver.val + 1 := rfl
  exact getPenaltyScore_lt (by omega) (by omega) _

theorem Tried.step {n : ℕ} {s : MaskChoice} (h : Tried ver ecl g n s) (hn : n < 8) :
    ∃ s', tryMask ver ecl s n = .ok s' ∧ Tried ver ecl g (n + 1) s' := by
  have hscore : getPenaltyScore ver.size (s.grid.finished ver ecl n).modules =
      penalty ver ecl g n := by rw [h.same, penalty]
  have htried (m : ℕ) : ((s.grid.finished ver ecl n).masked n).finished ver ecl m =
      g.finished ver ecl m := (finished_tried n).trans (h.same m)
  have hrun : tryMask ver ecl s n = .ok ⟨(s.grid.finished ver ecl n).masked n,
      if penalty ver ecl g n < s.minPenalty then (n : ℤ) else s.msk,
      if penalty ver ecl g n < s.minPenalty then penalty ver ecl g n else s.minPenalty⟩ := by
    rw [tryMask, applyMask_eq hn]
    simp only [bind, Except.bind]
    rw [drawFormatBits_eq]
    simp only [applyMask_eq hn]
    rw [← Grid.finished, hscore]
    split_ifs <;> rfl
  have hlimit := penalty_lt ver ecl g n
  obtain ⟨f, hf⟩ : ∃ f, penalty ver ecl g = f := ⟨_, rfl⟩
  have hbest := h.best
  rw [hf] at hrun hlimit hbest
  refine ⟨_, hrun, htried, .inr ?_⟩
  rw [hf]
  rcases hbest with ⟨rfl, hnone⟩ | ⟨m, hmsk, hmin, hfirst⟩
  · -- no penalty reaches `LONG_MAX`, so the first mask is always taken
    rw [hnone, if_pos hlimit, if_pos hlimit]
    refine ⟨0, rfl, rfl, Nat.one_pos, fun j hj => ?_, fun j hj => absurd hj (Nat.not_lt_zero j)⟩
    rw [Nat.lt_one_iff.mp hj]
  · refine ⟨_, ?_, ?_, hfirst.next⟩
    · rw [hmsk, hmin]
      split_ifs <;> rfl
    · rw [hmin]
      split_ifs <;> rfl

theorem chooseMask_best (ver : Version) (ecl : Ecc) (g : Grid) :
    ∃ s m, chooseMask ver ecl g = .ok s ∧ s.msk = (m : ℕ) ∧ FirstLeast (penalty ver ecl g) 8 m ∧
      ∀ i, s.grid.finished ver ecl i = g.finished ver ecl i := by
  have hrun (n : ℕ) (hn : n ≤ 8) : ∃ s,
      (List.range n).foldlM (tryMask ver ecl) ⟨g, -1, longMax⟩ = .ok s ∧ Tried ver ecl g n s := by
    induction n with
    | zero => exact ⟨_, rfl, fun _ => rfl, .inl ⟨rfl, rfl⟩⟩
    | succ n ih =>
      obtain ⟨s, hs, htried⟩ := ih (Nat.le_of_succ_le hn)
      obtain ⟨s', hs', htried'⟩ := htried.step hn
      refine ⟨s', ?_, htried'⟩
      rw [List.range_succ, List.foldlM_append, hs]
      simp only [bind, Except.bind, List.foldlM_cons, hs', List.foldlM_nil]
      rfl
  obtain ⟨s, hs, hsame, hbest⟩ := hrun 8 le_rfl
  rcases hbest with ⟨h, -⟩ | ⟨m, hm, -, hbest⟩
  · exact absurd h (by decide)
  · exact ⟨s, m, hs, hm, hbest, hsame⟩

end Choice
section Symbols
variable {ver : Version} {ecl : Ecc} {data codewords : List UInt8}

def functionGrid (ver : Version) (ecl : Ecc) : Grid :=
  Grid.drawn ⟨fun _ => false, fun _ => false⟩ (drawFunctionPatterns ver ecl)

def dataGrid (ver : Version) (ecl : Ecc) (codewords : List UInt8) : Grid :=
  { functionGrid ver ecl with
    modules :=
      Placement.place (functionGrid ver ecl).modules (dataPlaces ver) (codewordBits codewords) }

theorem drawn_isFunction (g : Grid) (calls : List Call) (p : Place) :
    (g.drawn calls).isFunction p = (g.isFunction p || decide (p ∈ calls.map Call.place)) := rfl

theorem functionGrid_isFunction (ecl : Ecc) {x y : ℕ} (hx : x < ver.size) (hy : y < ver.size) :
    (functionGrid ver ecl).isFunction (x, y) = decide (FunctionArea ver x y) := by
  have hinside : Inside ver.size x y := by
    simp only [Inside]
    omega
  have hmem := (drawFunctionPatterns_covers ver ecl).mem_place (x, y)
  rw [and_iff_right hinside] at hmem
  rw [functionGrid, drawn_isFunction, Bool.false_or]
  exact Bool.decide_congr hmem

theorem drawCodewords_eq (ecl : Ecc) (h : codewords.length = rawCodewords ver) :
    drawCodewords ver (functionGrid ver ecl) codewords = .ok (dataGrid ver ecl codewords) := by
  have hplaces : (zigzag ver.size).filter (fun p => !(functionGrid ver ecl).isFunction p) =
      dataPlaces ver := by
    have hsize : ver.size = 2 * (2 * ver.number + 4) + 9 := by
      show ver.number * 4 + 17 = 2 * (2 * ver.number + 4) + 9
      omega
    refine List.filter_congr fun p hp => ?_
    obtain ⟨hx, hy, -⟩ := (mem_zigzag hsize).mp hp
    rw [functionGrid_isFunction ecl hx hy, decide_not]
  have hcount : ¬ codewords.length ≠ getNumRawDataModules ver / 8 := not_not.mpr h
  rw [drawCodewords, if_neg hcount, drawCodewords_loop, hplaces, List.drop_zero]
  rfl

def symbol (ver : Version) (ecl : Ecc) (codewords : List UInt8) (msk : ℕ) : Symbol :=
  ⟨ver, ecl, msk, ((dataGrid ver ecl codewords).finished ver ecl msk).modules⟩

theorem draw_eq (hcodewords : addEccAndInterleave ver ecl data = .ok codewords)
    (hlength : codewords.length = rawCodewords ver) :
    (∀ m : ℕ, m < 8 → Symbol.draw ver ecl data m = .ok (symbol ver ecl codewords m)) ∧
      ∃ m, FirstLeast (penalty ver ecl (dataGrid ver ecl codewords)) 8 m ∧
        Symbol.draw ver ecl data (-1) = .ok (symbol ver ecl codewords m) := by
  have hpatterns : setFunctionModules ver.size ⟨fun _ => false, fun _ => false⟩
      (drawFunctionPatterns ver ecl) = .ok (functionGrid ver ecl) :=
    setFunctionModules_eq (drawFunctionPatterns_covers ver ecl).inside _
  refine ⟨fun m hm => ?_, ?_⟩
  · have hrange : ¬ ((m : ℤ) < -1 ∨ (7 : ℤ) < m) := by omega
    have hasked : ¬ ((m : ℤ) = -1) := by omega
    rw [Symbol.draw, if_neg hrange]
    simp only [bind, Except.bind, pure, Except.pure, hpatterns, hcodewords,
      drawCodewords_eq ecl hlength, if_neg hasked, Int.toNat_natCast, applyMask_eq hm,
      drawFormatBits_eq]
    rfl
  · obtain ⟨s, m, hs, hmsk, hbest, hsame⟩ := chooseMask_best ver ecl (dataGrid ver ecl codewords)
    refine ⟨m, hbest, ?_⟩
    have hrange : ¬ ((-1 : ℤ) < -1 ∨ (7 : ℤ) < -1) := by decide
    rw [Symbol.draw, if_neg hrange]
    simp only [bind, Except.bind, pure, Except.pure, hpatterns, hcodewords,
      drawCodewords_eq ecl hlength, if_true, hs, hmsk, Int.toNat_natCast, applyMask_eq hbest.lt,
      drawFormatBits_eq]
    rw [symbol, ← hsame m]
    rfl

end Symbols
end Ppm.QrCode

import Mathlib.Tactic.IntervalCases
import PhonePostMix.QrCode.Patterns

/-! What the scanner reads off the modules of a symbol, some of them wrong, is the text. -/

namespace Ppm.QrCode
open Radix ReedSolomon

section Format
variable {ver : Version} {ecl : Ecc} {codewords : List UInt8} {m : ℕ}

theorem formatInformation_far : ∀ ecl ecl' : Ecc, ∀ msk msk' : Fin 8, (ecl, msk) ≠ (ecl', msk') →
    7 ≤ distance (Scanner.formatInformation ecl msk) (Scanner.formatInformation ecl' msk') := by
  decide

theorem length_formatInformation (ecl : Ecc) (msk : ℕ) :
    (Scanner.formatInformation ecl msk).length = 15 := by
  rw [Scanner.formatInformation, List.length_map, List.length_range]

theorem format_unique {ecl ecl' : Ecc} {msk msk' : ℕ} (hmsk : msk < 8) (hmsk' : msk' < 8)
    {received : List Bool} (hreceived : received.length = 15)
    (h : distance (Scanner.formatInformation ecl msk) received ≤ 3)
    (h' : distance (Scanner.formatInformation ecl' msk') received ≤ 3) :
    ecl' = ecl ∧ msk' = msk := by
  have htriangle := distance_triangle ((length_formatInformation ecl msk).trans hreceived.symm)
    (hreceived.trans (length_formatInformation ecl' msk').symm)
  rw [distance_comm received] at htriangle
  by_contra hother
  have hne : (ecl, (⟨msk, hmsk⟩ : Fin 8)) ≠ (ecl', ⟨msk', hmsk'⟩) := by
    intro hsame
    obtain ⟨hecl, hmask⟩ := Prod.mk.inj hsame
    exact hother ⟨hecl.symm, (congrArg Fin.val hmask).symm⟩
  have hfar := formatInformation_far ecl ecl' ⟨msk, hmsk⟩ ⟨msk', hmsk'⟩ hne
  dsimp only at hfar
  omega

theorem formatPlaces_copies (ver : Version) : ∃ copy copy',
    Scanner.formatCopies ver = [copy, copy'] ∧ copy.length = 15 ∧ copy'.length = 15 ∧
      formatPlaces ver.size = copy ++ (copy' ++ [(8, ver.size - 8)]) := by
  have hsize := lt_size ver
  refine ⟨_, _, rfl, rfl, rfl, ?_⟩
  have hdrawn : formatPlaces ver.size =
      [(8, 0), (8, 1), (8, 2), (8, 3), (8, 4), (8, 5), (8, 7), (8, 8), (7, 8), (5, 8), (4, 8),
        (3, 8), (2, 8), (1, 8), (0, 8)] ++
      (((List.range 8).map (fun i : ℕ => (((ver.size : ℤ) - 1 - i).toNat, 8)) ++
        (List.range 7).map (fun i : ℕ => (8, ((ver.size : ℤ) - 15 + (8 + i : ℕ)).toNat))) ++
        [(8, ((ver.size : ℤ) - 8).toNat)]) := rfl
  rw [hdrawn, side_eq]
  congr 2
  · congr 1
    · refine List.map_congr_left fun i hi => Prod.ext ?_ rfl
      dsimp only
      omega
    · refine List.map_congr_left fun i hi => Prod.ext rfl ?_
      dsimp only
      omega
  · congr 2
    omega

theorem nodup_formatPlaces (ver : Version) : (formatPlaces ver.size).Nodup := by
  have hsize := lt_size ver
  obtain ⟨copy, copy', hcopies, -, -, hplaces⟩ := formatPlaces_copies ver
  obtain ⟨rfl, htail⟩ := List.cons.inj hcopies
  obtain ⟨rfl, -⟩ := List.cons.inj htail
  rw [hplaces, side_eq]
  have hrow : ((List.range 8).map fun i => (ver.size - 1 - i, 8)).Nodup := by
    refine List.nodup_range.map_on fun i hi j hj h => ?_
    have hi := List.mem_range.mp hi
    have hj := List.mem_range.mp hj
    have hx := (Prod.mk.inj h).1
    omega
  have hcolumn : ((List.range 7).map fun i => (8, ver.size - 7 + i)).Nodup := by
    refine List.nodup_range.map_on fun i hi j hj h => ?_
    have hy := (Prod.mk.inj h).2
    omega
  refine List.Nodup.append (by decide)
    ((hrow.append hcolumn ?_).append (List.nodup_singleton _) ?_) ?_
  · simp only [List.disjoint_left, List.mem_map, List.mem_range]
    rintro p ⟨i, hi, rfl⟩ ⟨j, hj, h⟩
    have hx := (Prod.mk.inj h).1
    omega
  · simp only [List.disjoint_left, List.mem_append, List.mem_map, List.mem_range,
      List.mem_singleton]
    rintro p (⟨i, hi, rfl⟩ | ⟨i, hi, rfl⟩) h
    · have hx := (Prod.mk.inj h).1
      omega
    · have hy := (Prod.mk.inj h).2
      omega
  · -- the first copy is at the top and on the left
    have hfirst : ∀ p ∈ [(8, 0), (8, 1), (8, 2), (8, 3), (8, 4), (8, 5), (8, 7), (8, 8), (7, 8),
        (5, 8), (4, 8), (3, 8), (2, 8), (1, 8), (0, 8)], p.1 ≤ 8 ∧ p.2 ≤ 8 := by decide
    simp only [List.disjoint_left, List.mem_append, List.mem_map, List.mem_range,
      List.mem_singleton]
    intro p hp h
    obtain ⟨hx, hy⟩ := hfirst p hp
    rcases h with (⟨i, hi, rfl⟩ | ⟨i, hi, rfl⟩) | rfl
    · dsimp only at hx
      omega
    · dsimp only at hy
      omega
    · dsimp only at hy
      omega
theorem symbol_modules (ver : Version) (ecl : Ecc) (codewords : List UInt8) (msk : ℕ) :
    (symbol ver ecl codewords msk).modules =
      ((dataGrid ver ecl codewords).finished ver ecl msk).modules := rfl

theorem symbol_format (hm : m < 8) : ∀ copy ∈ Scanner.formatCopies ver,
    copy.map (symbol ver ecl codewords m).modules = Scanner.formatInformation ecl m := by
  have hbits : (drawFormatBits ver.size ecl m).map Call.isDark =
      Scanner.formatInformation ecl m ++ (Scanner.formatInformation ecl m ++ [true]) := by
    rw [← formatBits_eq ecl m hm]
    rfl
  have hcount : ((drawFormatBits ver.size ecl m).map Call.isDark).length ≤
      (formatPlaces ver.size).length := by rw [length_formatBits, length_formatPlaces]
  have hread := Placement.map_place ((dataGrid ver ecl codewords).masked m).modules
    (nodup_formatPlaces ver) hcount
  rw [length_formatBits, List.take_of_length_le
    (by rw [List.length_map, length_formatPlaces]), ← finished_modules, ← symbol_modules] at hread
  obtain ⟨copy, copy', hcopies, hlength, hlength', hplaces⟩ := formatPlaces_copies ver
  have hword := length_formatInformation ecl m
  rw [hplaces, hbits, List.map_append, List.map_append] at hread
  obtain ⟨hfirst, hrest⟩ := List.append_inj hread (by rw [List.length_map, hlength, hword])
  have hsecond := List.append_inj_left hrest (by rw [List.length_map, hlength', hword])
  intro c hc
  rw [hcopies] at hc
  rcases List.mem_pair.mp hc with rfl | rfl
  · exact hfirst
  · exact hsecond

end Format
section Versions
variable {ver : Version} {ecl : Ecc} {codewords : List UInt8} {m : ℕ}

theorem functionGrid_version (ecl : Ecc) {x y i : ℕ} (hseven : 7 ≤ ver.number) (hi : i < 18)
    (hplace : (x = ver.size - 11 + i % 3 ∧ y = i / 3) ∨ (x = i / 3 ∧ y = ver.size - 11 + i % 3)) :
    VersionArea ver x y ∧ (functionGrid ver ecl).modules (x, y) = (versionBits ver).testBit i := by
  have hsize : ver.size = ver.number * 4 + 17 := rfl
  have harea : VersionArea ver x y := by
    simp only [VersionArea]
    omega
  refine ⟨harea, ?_⟩
  rw [functionGrid, drawFunctionPatterns, drawn_append]
  refine (drawVersion_covers ver).drawn_inside _ harea fun call hcall hcx hcy => ?_
  rw [drawVersion, if_neg (by omega)] at hcall
  simp only [List.mem_flatMap, List.mem_range, List.mem_cons, List.not_mem_nil, or_false] at hcall
  obtain ⟨k, hk, rfl | rfl⟩ := hcall <;> dsimp only at hcx hcy ⊢ <;>
    rw [show k = i by omega]

theorem symbol_version (hseven : 7 ≤ ver.number) : ∀ copy ∈ Scanner.versionCopies ver,
    copy.map (symbol ver ecl codewords m).modules = Scanner.versionInformation ver := by
  have hsize : ver.size = ver.number * 4 + 17 := rfl
  have hbit {x y i : ℕ} (hi : i < 18) (hplace : (x = ver.size - 11 + i % 3 ∧ y = i / 3) ∨
      (x = i / 3 ∧ y = ver.size - 11 + i % 3)) :
      (symbol ver ecl codewords m).modules (x, y) = (versionBits ver).testBit i := by
    obtain ⟨harea, hmodule⟩ := functionGrid_version ecl hseven hi hplace
    have hformat : ¬ FormatArea ver.size x y := by
      simp only [FormatArea]
      omega
    have hfunction : FunctionArea ver x y := .inr (.inr (.inr (.inr (.inr (.inr harea)))))
    rw [symbol_function (by omega) (by omega) hfunction hformat, hmodule]
  intro copy hcopy
  rw [← versionBits_eq ver hseven]
  simp only [Scanner.versionCopies, side_eq] at hcopy
  rcases List.mem_pair.mp hcopy with rfl | rfl
  · rw [List.map_map]
    exact List.map_congr_left fun i hi => hbit (List.mem_range.mp hi) (.inl ⟨rfl, rfl⟩)
  · rw [List.map_map]
    exact List.map_congr_left fun i hi => hbit (List.mem_range.mp hi) (.inr ⟨rfl, rfl⟩)

end Versions
section Layout
variable {ver : Version} {ecl : Ecc}

theorem blocks_count (ver : Version) (ecl : Ecc) :
    (Scanner.blocks ver ecl).count = numBlocks ver ecl := by
  rw [blocks_eq]
  exact Nat.add_sub_of_le (Nat.sub_le _ _)

theorem blocks_size (ver : Version) (ecl : Ecc) (j : ℕ) :
    (Scanner.blocks ver ecl).size j = blockDataLen ver ecl j := by
  rw [blocks_eq, Scanner.Blocks.size, blockDataLen]
  split_ifs <;> rfl

def columnOf (ver : Version) (ecl : Ecc) (p : ℕ × ℕ) : ℕ × ℕ :=
  (p.1, if p.2 < blockDataLen ver ecl p.1 then p.2
    else padIndex ver ecl + 1 + (p.2 - blockDataLen ver ecl p.1))

theorem blockDataLen_bounds (ver : Version) (ecl : Ecc) (j : ℕ) : padIndex ver ecl ≤ blockDataLen ver ecl j ∧
    blockDataLen ver ecl j ≤ padIndex ver ecl + 1 := by
  rw [blockDataLen]
  split_ifs <;> omega

theorem columnOf_injective : Function.Injective (columnOf ver ecl) := by
  rintro ⟨j, i⟩ ⟨j', i'⟩ h
  obtain ⟨rfl, hcolumn⟩ := Prod.mk.inj h
  have hsize := blockDataLen_bounds ver ecl j
  refine Prod.ext rfl ?_
  dsimp only at hcolumn ⊢
  split_ifs at hcolumn <;> omega

theorem real_iff {j i : ℕ} (hi : i < padIndex ver ecl + 1) :
    Real ver ecl j i ↔ i < blockDataLen ver ecl j := by
  rw [Real, blockDataLen]
  split_ifs <;> omega

theorem real_ecc (ver : Version) (ecl : Ecc) (j i : ℕ) :
    Real ver ecl j (padIndex ver ecl + 1 + i) := .inl (by omega)

theorem columns_eq (ver : Version) (ecl : Ecc) (j : ℕ) : columns ver ecl j =
    (List.range (blockDataLen ver ecl j + blockEccLen ver ecl)).map
      fun i => (columnOf ver ecl (j, i)).2 := by
  have hsize := blockDataLen_bounds ver ecl j
  have hlength : shortBlockLen ver ecl + 1 = padIndex ver ecl + 1 + blockEccLen ver ecl := by
    rw [shortBlockLen_eq]
    omega
  have hdata : (List.range (padIndex ver ecl + 1)).filter (fun i => Real ver ecl j i) =
      List.range (blockDataLen ver ecl j) := by
    obtain ⟨k, hk⟩ := Nat.exists_eq_add_of_le hsize.2
    rw [List.filter_congr fun i hi => decide_eq_decide.mpr (real_iff (List.mem_range.mp hi)), hk,
      List.range_add, List.filter_append, List.filter_eq_self.mpr, List.filter_eq_nil_iff.mpr,
      List.append_nil]
    · intro i hi
      obtain ⟨m, -, rfl⟩ := List.mem_map.mp hi
      simp
    · exact fun i hi => decide_eq_true (List.mem_range.mp hi)
  have hecc : ((List.range (blockEccLen ver ecl)).map (padIndex ver ecl + 1 + ·)).filter
      (fun i => Real ver ecl j i) =
        (List.range (blockEccLen ver ecl)).map (padIndex ver ecl + 1 + ·) :=
    List.filter_eq_self.mpr fun i hi => by
      obtain ⟨k, -, rfl⟩ := List.mem_map.mp hi
      exact decide_eq_true (real_ecc ver ecl j k)
  rw [columns, hlength, List.range_add, List.filter_append, hdata, hecc, List.range_add,
    List.map_append, List.map_map]
  congr 1
  · conv_lhs => rw [← List.map_id (List.range _)]
    refine List.map_congr_left fun i hi => ?_
    exact (if_pos (List.mem_range.mp hi)).symm
  · refine List.map_congr_left fun i _ => ?_
    rw [Function.comp_apply, columnOf, if_neg (by dsimp only; omega), Nat.add_sub_cancel_left]

theorem transmitted_eq (ver : Version) (ecl : Ecc) :
    transmitted ver ecl = (Scanner.blocks ver ecl).order.map (columnOf ver ecl) := by
  have hlength : shortBlockLen ver ecl + 1 = padIndex ver ecl + 1 + blockEccLen ver ecl := by
    rw [shortBlockLen_eq]
    omega
  have hdata : (Scanner.blocks ver ecl).data = padIndex ver ecl := by rw [blocks_eq]
  have hecc : (Scanner.blocks ver ecl).ecc = blockEccLen ver ecl := by rw [blocks_eq]
  rw [transmitted, Scanner.Blocks.order, hlength, List.range_add, List.flatMap_append,
    List.map_append, List.map_flatMap, List.map_flatMap, List.flatMap_map, hdata, hecc]
  simp only [blocks_count, blocks_size]
  congr 1
  · refine List.flatMap_congr fun i hi => ?_
    have hi := List.mem_range.mp hi
    rw [List.map_map, List.filter_congr fun j _ => decide_eq_decide.mpr (real_iff hi)]
    refine List.map_congr_left fun j hj => ?_
    have hreal := of_decide_eq_true (List.mem_filter.mp hj).2
    rw [Function.comp_apply, columnOf, if_pos hreal]
  · refine List.flatMap_congr fun i _ => ?_
    rw [List.map_map, List.filter_eq_self.mpr fun j _ => decide_eq_true (real_ecc ver ecl j i)]
    refine List.map_congr_left fun j _ => ?_
    rw [Function.comp_apply, columnOf, if_neg (by dsimp only; omega), Nat.add_sub_cancel_left]

theorem block_eq (ver : Version) (ecl : Ecc) (codewords : List UInt8) (j : ℕ) :
    (Scanner.blocks ver ecl).block codewords j = blockOf ver ecl codewords j := by
  have hecc : (Scanner.blocks ver ecl).ecc = blockEccLen ver ecl := by rw [blocks_eq]
  rw [Scanner.Blocks.block, blockOf, columns_eq, List.map_map, blocks_size, hecc, transmitted_eq]
  refine List.map_congr_left fun i _ => ?_
  exact (Placement.place_map_injective columnOf_injective (fun _ => 0) _ codewords (j, i)).symm

theorem corrected_eq (ver : Version) (ecl : Ecc) (codewords data : List UInt8) :
    (Scanner.blocks ver ecl).Corrected codewords data ↔ Corrected ver ecl codewords data := by
  have hecc : (Scanner.blocks ver ecl).ecc = blockEccLen ver ecl := by rw [blocks_eq]
  simp only [Scanner.Blocks.Corrected, Corrected, blocks_count, blocks_size, block_eq, hecc]

theorem block_more {codewords : List UInt8} (hlength : codewords.length = rawCodewords ver)
    (more : List UInt8) (j : ℕ) : (Scanner.blocks ver ecl).block (codewords ++ more) j =
      (Scanner.blocks ver ecl).block codewords j := by
  have horder : (Scanner.blocks ver ecl).order.length = rawCodewords ver := by
    rw [← List.length_map (columnOf ver ecl), ← transmitted_eq, length_transmitted]
  rw [Scanner.Blocks.block, Placement.place_more _ (by rw [horder, hlength])]
  rfl

end Layout
section Reserved
variable {ver : Version}

theorem reserved_iff {x y : ℕ} : Scanner.Reserved ver (x, y) ↔ FunctionArea ver x y := by
  have hsize : ver.size = ver.number * 4 + 17 := rfl
  have halign : (∃ c ∈ Scanner.alignmentCenters ver,
      (c.1 ≤ x + 2 ∧ x ≤ c.1 + 2) ∧ c.2 ≤ y + 2 ∧ y ≤ c.2 + 2) ↔
        ∃ c ∈ alignmentCenters ver, |(x : ℤ) - c.1| ≤ 2 ∧ |(y : ℤ) - c.2| ≤ 2 := by
    refine ⟨fun ⟨c, hc, hx, hy⟩ => alignment_area hc hx hy, ?_⟩
    rw [alignmentCenters_eq]
    rintro ⟨c', hc', hx, hy⟩
    obtain ⟨c, hc, rfl⟩ := List.mem_map.mp hc'
    simp only [abs_le] at hx hy
    exact ⟨c, hc, by omega⟩
  rw [Scanner.Reserved, halign, FunctionArea, VersionArea, side_eq]
  refine or_congr ?_ (or_congr ?_ (or_congr ?_ (or_congr ?_ (or_congr ?_ (or_congr .rfl ?_)))))
  all_goals dsimp only
  all_goals omega

theorem columnPairs_eq (n : ℕ) : columnPairs (2 * n + 8) =
    (List.range (n + 4)).map fun k => if n < k then 2 * n + 7 - 2 * k else 2 * n + 8 - 2 * k := by
  induction n with
  | zero => simp [columnPairs, List.range_succ]
  | succ n ih =>
    have hfirst : columnPairs (2 * (n + 1) + 8) = (2 * (n + 1) + 8) :: columnPairs (2 * n + 8) := by
      rw [columnPairs, dif_neg (by omega), if_neg (by omega)]
      rfl
    have hrange : List.range (n + 1 + 4) = 0 :: (List.range (n + 4)).map Nat.succ :=
      List.range_succ_eq_map
    rw [hfirst, ih, hrange, List.map_cons, List.map_map]
    congr 1
    refine List.map_congr_left fun k _ => ?_
    rw [Function.comp_apply]
    split_ifs <;> omega

theorem upward_iff {n k : ℕ} (hn : n % 2 = 0) {right : ℕ}
    (hright : right = if n < k then 2 * n + 7 - 2 * k else 2 * n + 8 - 2 * k) (hk : k < n + 4) :
    (right + 1) &&& 2 = 0 ↔ k % 2 = 0 := by
  have hbit := Nat.and_two_pow (right + 1) 1
  rw [Nat.testBit_eq_decide_div_mod_eq, pow_one] at hbit
  rw [hbit, Nat.mul_eq_zero, or_iff_left two_ne_zero, Bool.toNat_eq_zero, decide_eq_false_iff_not]
  split_ifs at hright <;> omega

theorem zigzag_eq (ver : Version) : zigzag ver.size = Scanner.scan ver.size := by
  obtain ⟨n, hn, hsize⟩ : ∃ n, n % 2 = 0 ∧ ver.size = 2 * n + 9 :=
    ⟨2 * ver.number + 4, by omega, by rw [Version.size]; omega⟩
  rw [zigzag, Scanner.scan, hsize, show 2 * n + 9 - 1 = 2 * n + 8 from rfl, columnPairs_eq,
    List.flatMap_map, show (2 * n + 8) / 2 = n + 4 by omega]
  refine List.flatMap_congr fun k hk => ?_
  have hk := List.mem_range.mp hk
  have hright : (if n < k then 2 * n + 7 - 2 * k else 2 * n + 8 - 2 * k) =
      if 2 * n + 8 - 2 * k ≤ 6 then 2 * n + 9 - 2 - 2 * k else 2 * n + 8 - 2 * k := by
    split_ifs <;> omega
  have hpair (right y : ℕ) : (List.range 2).map (fun j => (right - j, y)) =
      [(right, y), (right - 1, y)] := rfl
  have hreverse : (List.range (2 * n + 9)).reverse =
      (List.range (2 * n + 9)).map (2 * n + 8 - ·) := by
    rw [List.range_eq_range', List.reverse_range', List.range_eq_range', Nat.zero_add]
    rfl
  simp only [upward_iff hn rfl hk, hpair]
  rw [hright, hreverse]
  split_ifs
  all_goals first | rfl | rw [List.flatMap_map]

theorem dataModules_eq (ver : Version) : Scanner.dataModules ver = dataPlaces ver := by
  rw [Scanner.dataModules, dataPlaces, side_eq, zigzag_eq]
  exact List.filter_congr fun p _ => decide_eq_decide.mpr (not_congr reserved_iff)

theorem condition_eq {msk : ℕ} (hmsk : msk < 8) (p : Place) :
    (Scanner.conditions.getD msk fun _ _ => false) p.2 p.1 = invert msk p := by
  obtain ⟨x, y⟩ := p
  interval_cases msk <;> simp [Scanner.conditions, invert, Nat.add_comm, Nat.mul_comm]

end Reserved
section Data
variable {ver : Version} {ecl : Ecc} {codewords : List UInt8}

theorem bytes_codewordBits (codewords : List UInt8) (rest : List Bool) :
    Scanner.bytes (codewordBits codewords ++ rest) = codewords ++ Scanner.bytes rest := by
  induction codewords with
  | nil => rfl
  | cons byte codewords ih =>
    have hbyte : ofBits (bitsOf 8 byte.toNat) = byte.toNat := ofBits_bitsOf byte.toNat_lt
    have hcons : codewordBits (byte :: codewords) = bitsOf 8 byte.toNat ++ codewordBits codewords :=
      rfl
    have hfirst (bits : List Bool) : Scanner.bytes (bitsOf 8 byte.toNat ++ bits) =
        (ofBits (bitsOf 8 byte.toNat)).toUInt8 :: Scanner.bytes bits := rfl
    rw [hcons, List.append_assoc, hfirst, hbyte, ih, List.cons_append]
    exact congrArg (· :: _) UInt8.ofNat_toNat

theorem length_codewordBits (codewords : List UInt8) :
    (codewordBits codewords).length = codewords.length * 8 := length_flatMap_bytes codewords

theorem formatArea_function {x y : ℤ} (h : FormatArea ver.size x y) : FunctionArea ver x y := by
  simp only [FormatArea] at h
  by_cases hlower : x < 9 ∧ y < 9
  · exact .inr (.inr (.inl hlower))
  · by_cases hright : (ver.size : ℤ) - 8 ≤ x ∧ y < 9
    · exact .inr (.inr (.inr (.inl hright)))
    · exact .inr (.inr (.inr (.inr (.inl (by omega)))))

theorem unmasked_symbol {p : Place} (hp : p ∈ dataPlaces ver) (msk : ℕ) :
    ((symbol ver ecl codewords msk).modules p ^^ invert msk p) =
      (dataGrid ver ecl codewords).modules p := by
  obtain ⟨x, y⟩ := p
  obtain ⟨hx, hy, hfree⟩ := (mem_dataPlaces ver).mp hp
  have hformat : (x, y) ∉ formatPlaces ver.size := by
    rw [formatPlaces, (drawFormatBits_covers (lt_size ver) .low 0).mem_place]
    exact fun harea => hfree (formatArea_function harea)
  have hfunction : (dataGrid ver ecl codewords).isFunction (x, y) = false := by
    rw [dataGrid, functionGrid_isFunction ecl hx hy, decide_eq_false hfree]
  rw [symbol_modules, (finished_of_notMem hformat).1, hfunction, Bool.not_false, Bool.and_true,
    Bool.xor_assoc, Bool.xor_self, Bool.xor_false]

theorem codewords_symbol (ecl : Ecc) (hlength : codewords.length = rawCodewords ver) {m : ℕ} (hm : m < 8) :
    ∃ more, Scanner.codewords ver m (symbol ver ecl codewords m).modules = codewords ++ more := by
  have hroom : (codewordBits codewords).length ≤ (dataPlaces ver).length := by
    have hcapacity := le_length_dataPlaces ver
    rw [length_codewordBits, hlength, rawCodewords]
    omega
  have hread := Placement.map_place (functionGrid ver ecl).modules (nodup_dataPlaces ver) hroom
  rw [Scanner.codewords, dataModules_eq, List.map_congr_left fun p hp => by
    rw [condition_eq hm, unmasked_symbol hp m]]
  rw [dataGrid, ← List.take_append_drop (codewordBits codewords).length
    ((dataPlaces ver).map _), hread, bytes_codewordBits]
  exact ⟨_, rfl⟩

end Data
section Texts
variable {memory : List UInt8} {ecl : Ecc}

/-- The modules are near enough to those of a symbol: the patterns are the same, three modules in
every copy of the version and of the format may be wrong, and in every block as many codewords as
half of its error correction. -/
structure Near (code : Symbol) (modules : Place → Bool) : Prop where
  patterns : ∀ pattern ∈ Scanner.patterns code.version,
    modules pattern.1 = code.modules pattern.1
  version : 7 ≤ code.version.number → ∀ copy ∈ Scanner.versionCopies code.version,
    distance (copy.map code.modules) (copy.map modules) ≤ 3
  format : ∀ copy ∈ Scanner.formatCopies code.version,
    distance (copy.map code.modules) (copy.map modules) ≤ 3
  blocks : ∀ j < (Scanner.blocks code.version code.errorCorrectionLevel).count,
    2 * distance
      ((Scanner.blocks code.version code.errorCorrectionLevel).block
        (Scanner.codewords code.version code.mask code.modules) j)
      ((Scanner.blocks code.version code.errorCorrectionLevel).block
        (Scanner.codewords code.version code.mask modules) j) ≤
      (Scanner.blocks code.version code.errorCorrectionLevel).ecc

def encodeMasked (text : List UInt8) (ecl : Ecc) (mask : ℤ) : Except Error Symbol := do
  encodeSegments (← makeSegments text) ecl 1 40 mask true

theorem encodeText_eq (memory : List UInt8) (ecl : Ecc) :
    encodeText memory ecl = encodeMasked memory ecl (-1) := rfl

theorem encodeData_mask {mask : ℤ} (hmask : -1 ≤ mask ∧ mask ≤ 7) (segs : List QrSegment)
    (ecl : Ecc) : encodeData segs ecl 1 40 mask true = encodeData segs ecl 1 40 (-1) true := by
  have hrange : ¬ (mask < -1 ∨ 7 < mask) := by omega
  have hchoice : ¬ ((-1 : ℤ) < -1 ∨ (7 : ℤ) < -1) := by decide
  simp only [encodeData, hrange, hchoice]

theorem encodeMasked_ok {mask : ℤ} (hmask : -1 ≤ mask ∧ mask ≤ 7) {ver : Version} {ecl' : Ecc}
    {data : List UInt8} (h : textData memory ecl = .ok (ver, ecl', data)) :
    encodeMasked memory ecl mask = Symbol.draw ver ecl' data mask := by
  rw [textData] at h
  rw [encodeMasked]
  cases hsegs : makeSegments memory with
  | error e =>
    rw [hsegs] at h
    cases h
  | ok segs =>
    rw [hsegs] at h
    simp only [bind, Except.bind] at h ⊢
    rw [encodeSegments, encodeData_mask hmask, h]
    rfl

theorem encodeText_error {e : Error} (h : textData memory ecl = .error e) :
    encodeText memory ecl = .error e := by
  rw [textData] at h
  rw [encodeText]
  cases hsegs : makeSegments memory with
  | error e' =>
    rw [hsegs] at h
    simp only [bind, Except.bind] at h ⊢
    rw [Except.error.inj h]
  | ok segs =>
    rw [hsegs] at h
    simp only [bind, Except.bind] at h ⊢
    rw [encodeSegments, h]
    rfl

theorem encodeText_ok {ver : Version} {ecl' : Ecc} {data : List UInt8}
    (h : textData memory ecl = .ok (ver, ecl', data))
    (hdata : data.length = getNumDataCodewords ver ecl') :
    ∃ codewords m, addEccAndInterleave ver ecl' data = .ok codewords ∧
      codewords.length = rawCodewords ver ∧
      FirstLeast (penalty ver ecl' (dataGrid ver ecl' codewords)) 8 m ∧
      encodeText memory ecl = .ok (symbol ver ecl' codewords m) ∧
      ∀ i : ℕ, i < 8 → encodeMasked memory ecl i = .ok (symbol ver ecl' codewords i) := by
  obtain ⟨codewords, hcodewords, hlength, -⟩ := addEccAndInterleave_blocks hdata
  obtain ⟨hasked, m, hbest, hauto⟩ := draw_eq hcodewords hlength
  refine ⟨codewords, m, hcodewords, hlength, hbest, ?_, fun i hi => ?_⟩
  · rw [encodeText_eq, encodeMasked_ok (by decide) h, hauto]
  · rw [encodeMasked_ok (by omega) h, hasked i hi]

theorem size_injective : Function.Injective Version.size := by
  intro ver ver' h
  have hsize : ver.val.succ * 4 + 17 = ver'.val.succ * 4 + 17 := h
  exact Fin.ext (by omega)

theorem reads_iff {ver : Version} {data codewords text' : List UInt8} {m : ℕ}
    (hdata : data.length = getNumDataCodewords ver ecl)
    (hcodewords : addEccAndInterleave ver ecl data = .ok codewords) (hm : m < 8)
    (hread : readData ver data = some text') {modules : Place → Bool}
    (hnear : Near (symbol ver ecl codewords m) modules) (text : List UInt8) :
    Scanner.Reads ver.size modules text ↔ text = text' := by
  obtain ⟨codewords', hcodewords', hlength, hwords⟩ := addEccAndInterleave_blocks hdata
  obtain rfl := Except.ok.inj (hcodewords.symm.trans hcodewords')
  have hformat : ∀ copy ∈ Scanner.formatCopies ver,
      distance (Scanner.formatInformation ecl m) (copy.map modules) ≤ 3 := by
    intro copy hcopy
    rw [← symbol_format hm copy hcopy]
    exact hnear.format copy hcopy
  have hversion : 7 ≤ ver.number → ∀ copy ∈ Scanner.versionCopies ver,
      distance (Scanner.versionInformation ver) (copy.map modules) ≤ 3 := by
    intro hseven copy hcopy
    rw [← symbol_version hseven copy hcopy]
    exact hnear.version hseven copy hcopy
  have hpatterns : ∀ pattern ∈ Scanner.patterns ver, modules pattern.1 = pattern.2 := by
    intro pattern hpattern
    exact (hnear.patterns pattern hpattern).trans (symbol_patterns pattern hpattern)
  have hblocks : ∀ j < numBlocks ver ecl, 2 * distance (blockOf ver ecl codewords j)
      (blockOf ver ecl (Scanner.codewords ver m modules) j) ≤ blockEccLen ver ecl := by
    obtain ⟨more, hmore⟩ := codewords_symbol ecl hlength hm
    intro j hj
    have hecc : (Scanner.blocks ver ecl).ecc = blockEccLen ver ecl := by rw [blocks_eq]
    have hblock : 2 * distance
        ((Scanner.blocks ver ecl).block
          (Scanner.codewords ver m (symbol ver ecl codewords m).modules) j)
        ((Scanner.blocks ver ecl).block (Scanner.codewords ver m modules) j) ≤
          (Scanner.blocks ver ecl).ecc := hnear.blocks j (hj.trans_eq (blocks_count ver ecl).symm)
    rwa [hmore, block_more hlength, block_eq, block_eq, hecc] at hblock
  have hdata' (data' : List UInt8) :=
    (corrected_eq ver ecl _ data').trans (corrected_iff hdata hwords hblocks data')
  constructor
  · -- the size settles the version, the format the level and the mask, these settle the codewords
    rintro ⟨ver', hside, -, -, ecl', msk, hmsk, hword, data', hcorrected, htext⟩
    obtain rfl := size_injective (hside.trans (side_eq ver'))
    obtain ⟨copy, copy', hcopies, hcopy, -⟩ := formatPlaces_copies ver
    have hfirst : copy ∈ Scanner.formatCopies ver := hcopies ▸ List.mem_cons_self
    obtain ⟨rfl, rfl⟩ := format_unique hm hmsk (by rw [List.length_map, hcopy])
      (hformat copy hfirst) (hword copy hfirst)
    rw [(hdata' data').mp hcorrected, hread] at htext
    exact (Option.some.inj htext).symm
  · rintro rfl
    exact ⟨ver, (side_eq ver).symm, hpatterns, hversion, ecl, m, hm, hformat, data,
      (hdata' data).mpr rfl, hread⟩

theorem encodeText_reads {ver : Version} (h : Fits ver ecl (cString memory)) :
    ∃ code, encodeText memory ecl = .ok code ∧ ∀ modules, Near code modules →
      ∀ text, Scanner.Reads code.version.size modules text ↔ text = cString memory := by
  rcases textData_reads_back memory ecl with
    ⟨ver, ecl', data, htext, hread, hdata, -⟩ | ⟨-, hnone⟩
  · obtain ⟨codewords, m, hcodewords, -, hbest, hcode, -⟩ := encodeText_ok htext hdata
    exact ⟨_, hcode, fun modules hnear => reads_iff hdata hcodewords hbest.lt hread hnear⟩
  · exact absurd h (hnone ver)

/-- The symbol of a text is read as this text and no other, as long as what is received is near
enough; it is of the first version with room for the text, at the highest level that has room too,
with the first mask that has the least penalty. When no version has room, there is no symbol. -/
theorem symbol_reads_back (memory : List UInt8) (ecl : Ecc) :
    (∃ code, encodeText memory ecl = .ok code ∧
        (∀ modules, Near code modules →
          ∀ text, Scanner.Reads code.version.size modules text ↔ text = cString memory) ∧
        Fits code.version ecl (cString memory) ∧
        (∀ other < code.version, ¬ Fits other ecl (cString memory)) ∧
        Fits code.version code.errorCorrectionLevel (cString memory) ∧
        (∀ other, Fits code.version other (cString memory) →
          other.rank ≤ code.errorCorrectionLevel.rank) ∧
        code.mask < 8 ∧ ∀ i : ℕ, i < 8 → ∃ other, encodeMasked memory ecl i = .ok other ∧
          getPenaltyScore code.version.size code.modules ≤
            getPenaltyScore code.version.size other.modules ∧
          (i < code.mask → getPenaltyScore code.version.size code.modules <
            getPenaltyScore code.version.size other.modules)) ∨
      ((∃ e, encodeText memory ecl = .error e) ∧ ∀ ver, ¬ Fits ver ecl (cString memory)) := by
  rcases textData_reads_back memory ecl with
    ⟨ver, ecl', data, htext, hread, hdata, hfits, hfirst, hfits', hhighest⟩ | ⟨⟨e, herror⟩, hnone⟩
  · left
    obtain ⟨codewords, m, hcodewords, hlength, hbest, hcode, hasked⟩ := encodeText_ok htext hdata
    refine ⟨symbol ver ecl' codewords m, hcode, fun modules hnear text => ?_, hfits, hfirst, hfits',
      hhighest, hbest.lt, fun i hi => ⟨_, hasked i hi, hbest.least i hi, hbest.first i⟩⟩
    exact reads_iff hdata hcodewords hbest.lt hread hnear text
  · exact .inr ⟨⟨e, encodeText_error herror⟩, hnone⟩

end Texts
end Ppm.QrCode

import Mathlib.Algebra.Group.Nat.Defs
import Mathlib.Data.List.Infix

/-! The parts of `std::string` and `std::istream` that the core uses, on bytes, with the exceptions
that they and the containers can raise. -/

namespace Ppm

inductive Exception where
  -- `std::out_of_range`, from `std::string::substr`.
  | outOfRange
  -- `std::length_error`, from a container asked for more than `max_size` elements.
  | lengthError
  deriving DecidableEq, Repr

def sizeModulus : Nat :=
  -- one more than the largest `size_t`; sums of sizes are reduced modulo it
  2 ^ 64

def maxVectorSize : Nat := 2 ^ 63 - 1

def ascii (s : String) : List UInt8 := s.toList.map fun c => c.toNat.toUInt8

def substr (s : List UInt8) (pos : ℕ) (count : Option ℕ) : Except Exception (List UInt8) :=
  -- `std::string::substr`; no count stands for `npos`
  if s.length < pos then .error .outOfRange
  else
    match count with
    | none => .ok (s.drop pos)
    | some n => .ok ((s.drop pos).take n)

def find (pattern : List UInt8) : List UInt8 → Option ℕ
  | [] => if pattern = [] then some 0 else none
  | c :: rest => if pattern.isPrefixOf (c :: rest) then some 0 else (find pattern rest).map (· + 1)

def getlines (delimiter : UInt8) : List UInt8 → List (List UInt8)
  -- what `std::getline` extracts until it fails. A trailing delimiter adds no empty line
  | [] => []
  | c :: rest =>
    if c = delimiter then [] :: getlines delimiter rest
    else
      match getlines delimiter rest with
      | [] => [[c]]
      | line :: lines => (c :: line) :: lines

def isSpace (c : UInt8) : Bool := c = 0x20 || (0x09 ≤ c && c ≤ 0x0d)

def words : List UInt8 → List (List UInt8)
  -- what `operator>>` extracts into strings until it fails
  | [] => []
  | c :: rest =>
    if isSpace c then words rest
    else
      match rest with
      | [] => [[c]]
      | d :: _ =>
        if isSpace d then [c] :: words rest
        else
          match words rest with
          | [] => [[c]]
          | word :: more => (c :: word) :: more

def toLowerByte (c : UInt8) : UInt8 := if 0x41 ≤ c ∧ c ≤ 0x5a then c + 0x20 else c

theorem substr_ok {s : List UInt8} {pos : ℕ} (h : pos ≤ s.length) (count : Option ℕ) :
    ∃ t, substr s pos count = .ok t := by
  unfold substr
  rw [if_neg (Nat.not_lt.mpr h)]
  cases count with
  | none => exact ⟨_, rfl⟩
  | some n => exact ⟨_, rfl⟩

theorem substr_zero (s : List UInt8) (n : ℕ) : substr s 0 (some n) = .ok (s.take n) := by
  simp [substr]

theorem substr_one (s : List UInt8) :
    substr s 1 none = match s with
      | [] => .error .outOfRange
      | _ :: rest => .ok rest := by
  cases s with
  | nil => rfl
  | cons c rest => simp [substr]

theorem ne_nil_of_mem_words {s word : List UInt8} (h : word ∈ words s) : word ≠ [] := by
  induction s generalizing word with
  | nil => simp [words] at h
  | cons c rest ih =>
    simp only [words] at h
    split at h
    · exact ih h
    · cases rest with
      | nil => simp_all
      | cons d more =>
        simp only at h
        split at h
        · rcases List.mem_cons.mp h with rfl | hmore
          · simp
          · exact ih hmore
        · split at h
          · simp_all
          · rename_i hwords
            rcases List.mem_cons.mp h with rfl | hmore
            · simp
            · exact ih (by rw [hwords]; exact List.mem_cons_of_mem _ hmore)

theorem find_eq_some {pattern s : List UInt8} {pos : ℕ} (h : find pattern s = some pos) :
    pattern <+: s.drop pos ∧ pos + pattern.length ≤ s.length := by
  induction s generalizing pos with
  | nil =>
    simp only [find, Option.ite_none_right_eq_some, Option.some.injEq] at h
    obtain ⟨rfl, rfl⟩ := h
    simp
  | cons c rest ih =>
    simp only [find] at h
    split at h
    · rename_i hhere
      obtain rfl : 0 = pos := Option.some.inj h
      have hpre : pattern <+: c :: rest := List.isPrefixOf_iff_prefix.mp hhere
      exact ⟨hpre, by simpa using hpre.length_le⟩
    · obtain ⟨q, hq, rfl⟩ := Option.map_eq_some_iff.mp h
      obtain ⟨hpre, hlen⟩ := ih hq
      refine ⟨hpre, ?_⟩
      simp only [List.length_cons]
      omega

theorem find_append {pattern s : List UInt8} {pos : ℕ} (hne : pattern ≠ [])
    (h : find pattern s = some pos) (more : List UInt8) : find pattern (s ++ more) = some pos := by
  induction s generalizing pos with
  | nil => simp [find, hne] at h
  | cons c rest ih =>
    rw [List.cons_append, find]
    simp only [find] at h
    by_cases hhere : pattern.isPrefixOf (c :: rest) = true
    · have hstill : pattern.isPrefixOf (c :: (rest ++ more)) = true :=
        List.isPrefixOf_iff_prefix.mpr
          ((List.isPrefixOf_iff_prefix.mp hhere).trans (List.prefix_append (c :: rest) more))
      rw [if_pos hhere] at h
      rw [if_pos hstill, h]
    · rw [if_neg hhere] at h
      obtain ⟨q, hq, rfl⟩ := Option.map_eq_some_iff.mp h
      have hlength : pattern.length ≤ (c :: rest).length := by
        have hfits := (find_eq_some hq).2
        simp only [List.length_cons]
        omega
      have hnot : ¬ pattern.isPrefixOf (c :: (rest ++ more)) = true := fun hthere =>
        hhere (List.isPrefixOf_iff_prefix.mpr (List.prefix_of_prefix_length_le
          (List.isPrefixOf_iff_prefix.mp hthere) (List.prefix_append (c :: rest) more) hlength))
      rw [if_neg hnot, ih hq]
      rfl

theorem find_isSome_of_within {pattern s : List UInt8} (h : pattern <:+: s) :
    (find pattern s).isSome = true := by
  induction s with
  | nil =>
    obtain rfl := List.eq_nil_of_infix_nil h
    rfl
  | cons c rest ih =>
    rw [find]
    split_ifs with hhere
    · rfl
    · rw [Option.isSome_map]
      rcases List.infix_cons_iff.mp h with hpre | hin
      · exact absurd (List.isPrefixOf_iff_prefix.mpr hpre) hhere
      · exact ih hin

theorem find_prefix {pattern s more : List UInt8} {pos : ℕ} (hne : pattern ≠ [])
    (h : find pattern (s ++ more) = some pos) (hle : pos + pattern.length ≤ s.length) :
    find pattern s = some pos := by
  have hin : pattern <+: s.drop pos := by
    have hpre := (find_eq_some h).1
    rw [List.drop_append_of_le_length (by omega)] at hpre
    refine List.prefix_of_prefix_length_le hpre (List.prefix_append _ _) ?_
    rw [List.length_drop]
    omega
  obtain ⟨q, hq⟩ := Option.isSome_iff_exists.mp
    (find_isSome_of_within (hin.isInfix.trans (List.drop_suffix pos s).isInfix))
  rw [hq, ← find_append hne hq more, h]

theorem find_append_cons {pattern s more : List UInt8} {c : UInt8} (hc : c ∉ pattern)
    (hne : pattern ≠ []) (hnone : find pattern s = none) :
    find pattern (s ++ c :: more) = (find pattern more).map (· + (s.length + 1)) := by
  induction s with
  | nil =>
    have hnot : ¬ pattern.isPrefixOf (c :: more) = true := by
      cases pattern with
      | nil => exact absurd rfl hne
      | cons d rest =>
        have hcd : d ≠ c := fun h => hc (h ▸ List.mem_cons_self)
        simp [hcd]
    rw [List.nil_append, find, if_neg hnot]
    rfl
  | cons d rest ih =>
    have hfind : ¬ pattern.isPrefixOf (d :: rest) = true ∧ find pattern rest = none := by
      rw [find] at hnone
      split_ifs at hnone with hhere
      exact ⟨hhere, Option.map_eq_none_iff.mp hnone⟩
    have hnot : ¬ pattern.isPrefixOf (d :: (rest ++ c :: more)) = true := by
      intro hthere
      have hpre : pattern <+: (d :: rest) ++ c :: more := List.isPrefixOf_iff_prefix.mp hthere
      rcases Nat.lt_or_ge (d :: rest).length pattern.length with hlong | hshort
      · have hget := hpre.getElem hlong
        rw [List.getElem_append_right (Nat.le_refl _)] at hget
        simp only [Nat.sub_self, List.getElem_cons_zero] at hget
        exact hc (hget ▸ List.getElem_mem hlong)
      · exact hfind.1 (List.isPrefixOf_iff_prefix.mpr
          (List.prefix_of_prefix_length_le hpre (List.prefix_append _ _) hshort))
    rw [List.cons_append, find, if_neg hnot, ih hfind.2, Option.map_map]
    rfl

theorem getlines_cons_line {delimiter : UInt8} {line : List UInt8} (h : delimiter ∉ line)
    (rest : List UInt8) :
    getlines delimiter (line ++ delimiter :: rest) = line :: getlines delimiter rest := by
  induction line with
  | nil => simp [getlines]
  | cons c line ih =>
    obtain ⟨hne, hline⟩ := not_or.mp (List.mem_cons.not.mp h)
    rw [List.cons_append, getlines, if_neg (Ne.symm hne), ih hline]

theorem find_byte {c : UInt8} {before : List UInt8} (h : c ∉ before) (rest : List UInt8) :
    find [c] (before ++ c :: rest) = some before.length := by
  induction before with
  | nil => simp [find]
  | cons d before ih =>
    obtain ⟨hne, hbefore⟩ := not_or.mp (List.mem_cons.not.mp h)
    have hnot : ¬ [c].isPrefixOf (d :: (before ++ c :: rest)) = true := by simp [hne]
    rw [List.cons_append, find, if_neg hnot, ih hbefore]
    rfl

theorem words_append_space {word : List UInt8} (hne : word ≠ [])
    (hword : ∀ c ∈ word, isSpace c = false) {d : UInt8} (hd : isSpace d = true)
    (rest : List UInt8) : words (word ++ d :: rest) = word :: words rest := by
  have hskip : words (d :: rest) = words rest := by simp only [words, if_pos hd]
  induction word with
  | nil => exact absurd rfl hne
  | cons c word ih =>
    obtain ⟨hc, hword⟩ := List.forall_mem_cons.mp hword
    have hc' : ¬ isSpace c = true := by simp [hc]
    cases word with
    | nil =>
      show words (c :: d :: rest) = [c] :: words rest
      rw [words.eq_def]
      simp only [if_neg hc', if_pos hd, hskip]
    | cons e word =>
      have he : ¬ isSpace e = true := by simp [hword e List.mem_cons_self]
      have hrest := ih (by simp) hword
      rw [List.cons_append] at hrest
      rw [List.cons_append, List.cons_append, words.eq_def]
      simp only [if_neg hc', if_neg he, hrest]

end Ppm

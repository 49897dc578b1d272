import Mathlib.Data.List.DropRight

/-! Lists that are sent as texts: items between separators, and blanks around an item that do not
belong to it. -/

namespace ListField
variable {α : Type*} {blank blank' : α → Bool} {s : List α}

def strip (blank : α → Bool) (s : List α) : List α := (s.dropWhile blank).rdropWhile blank

structure Bare (blank : α → Bool) (s : List α) : Prop where
  first : ∀ c ∈ s.head?, blank c = false
  last : ∀ c ∈ s.getLast?, blank c = false

instance (blank : α → Bool) (s : List α) : Decidable (Bare blank s) :=
  decidable_of_iff ((∀ c ∈ s.head?, blank c = false) ∧ ∀ c ∈ s.getLast?, blank c = false)
    ⟨fun h => ⟨h.1, h.2⟩, fun h => ⟨h.first, h.last⟩⟩

theorem Bare.reverse (h : Bare blank s) : Bare blank s.reverse := by
  refine ⟨?_, ?_⟩
  · rw [List.head?_reverse]
    exact h.last
  · rw [List.getLast?_reverse]
    exact h.first

theorem exists_pad (blank : α → Bool) (s : List α) : ∃ before after,
    s = before ++ strip blank s ++ after ∧ (∀ c ∈ before, blank c = true) ∧
      ∀ c ∈ after, blank c = true := by
  refine ⟨s.takeWhile blank, (s.dropWhile blank).rtakeWhile blank, ?_, ?_, ?_⟩
  · rw [strip, List.append_assoc, List.rdropWhile_append_rtakeWhile,
      List.takeWhile_append_dropWhile]
  · exact fun c hc => List.mem_takeWhile_imp hc
  · exact fun c hc => List.mem_rtakeWhile_imp hc

theorem bare_strip (blank : α → Bool) (s : List α) : Bare blank (strip blank s) := by
  refine ⟨fun c hc => ?_, fun c hc => ?_⟩
  · obtain ⟨after, hafter⟩ : strip blank s <+: s.dropWhile blank := List.rdropWhile_prefix blank _
    have hhead : (s.dropWhile blank).head? = some c := by
      rw [← hafter, List.head?_append, Option.mem_def.mp hc]
      rfl
    have hnot := List.head?_dropWhile_not blank s
    rw [hhead] at hnot
    exact hnot
  · obtain ⟨hne, hlast⟩ := List.mem_getLast?_eq_getLast hc
    have hnot := List.rdropWhile_last_not blank (s.dropWhile blank) hne
    rw [hlast]
    exact Bool.eq_false_iff.mpr hnot

theorem Bare.congr (h : Bare blank s) (hsame : ∀ c ∈ s, blank c = blank' c) :
    Bare blank' s := by
  refine ⟨fun c hc => ?_, fun c hc => ?_⟩
  · rw [← hsame c (List.mem_of_mem_head? hc)]
    exact h.first c hc
  · rw [← hsame c (List.mem_of_mem_getLast? hc)]
    exact h.last c hc

theorem strip_congr (h : ∀ c ∈ s, blank c = blank' c) : strip blank s = strip blank' s := by
  have hdrop : ∀ l : List α, (∀ c ∈ l, blank c = blank' c) →
      l.dropWhile blank = l.dropWhile blank' := by
    intro l hl
    induction l with
    | nil => rfl
    | cons c rest ih =>
      obtain ⟨hc, hrest⟩ := List.forall_mem_cons.mp hl
      rw [List.dropWhile_cons, List.dropWhile_cons, hc, ih hrest]
  rw [strip, strip, hdrop s h, List.rdropWhile, List.rdropWhile, hdrop]
  exact fun c hc => h c ((List.dropWhile_suffix blank').subset (List.mem_reverse.mp hc))

theorem strip_map {f : α → α} (h : ∀ c, blank (f c) = blank c) (s : List α) :
    strip blank (s.map f) = (strip blank s).map f := by
  have hcomp : blank ∘ f = blank := funext h
  rw [strip, strip, List.dropWhile_map, hcomp, List.rdropWhile, List.rdropWhile, ← List.map_reverse,
    List.dropWhile_map, hcomp, List.map_reverse]

section Items
variable [DecidableEq α] {sep : α} {item : List α}

def items (sep : α) (blank : α → Bool) (value : List α) : List (List α) :=
  (value.splitOn sep).map (strip blank)

def join (sep : α) (values : List (List α)) : List α := [sep].intercalate values

theorem mem_items_join (hne : item ≠ []) (values : List (List α)) :
    item ∈ items sep blank (join sep values) ↔
      ∃ value ∈ values, item ∈ items sep blank value := by
  induction values with
  | nil =>
    have hnil : items sep blank (join sep []) = [[]] := rfl
    simp [hnil, hne]
  | cons value values ih =>
    cases values with
    | nil => simp [join]
    | cons next values =>
      have hsplit : items sep blank (join sep (value :: next :: values)) =
          items sep blank value ++ items sep blank (join sep (next :: values)) := by
        rw [items, join, List.intercalate_cons_cons, List.append_assoc, List.singleton_append,
          List.splitOn_append_cons_self, List.map_append]
        rfl
      rw [hsplit, List.mem_append, ih]
      exact (List.exists_mem_cons_iff (item ∈ items sep blank ·) value (next :: values)).symm

theorem mem_of_mem_splitOn {value part : List α} (h : part ∈ value.splitOn sep) {c : α}
    (hc : c ∈ part) : c ∈ value := by
  induction value generalizing part with
  | nil =>
    obtain rfl := List.mem_singleton.mp h
    exact hc
  | cons d rest ih =>
    rw [List.splitOn_cons_eq_if_modifyHead] at h
    obtain ⟨first, others, hrest⟩ := List.exists_cons_of_ne_nil (List.splitOn_ne_nil sep rest)
    rw [hrest] at h ih
    split_ifs at h
    · rcases List.mem_cons.mp h with rfl | hpart
      · cases hc
      · exact List.mem_cons_of_mem d (ih hpart hc)
    · rcases List.mem_cons.mp h with rfl | hpart
      · rcases List.mem_cons.mp hc with rfl | hfirst
        · exact List.mem_cons_self
        · exact List.mem_cons_of_mem d (ih List.mem_cons_self hfirst)
      · exact List.mem_cons_of_mem d (ih (List.mem_cons_of_mem first hpart) hc)

theorem items_congr {value : List α} (h : ∀ c ∈ value, blank c = blank' c) :
    items sep blank value = items sep blank' value :=
  List.map_congr_left fun _ hpart => strip_congr fun c hc => h c (mem_of_mem_splitOn hpart hc)

theorem splitOn_map {f : α → α} (h : ∀ c, f c = sep ↔ c = sep) (value : List α) :
    (value.map f).splitOn sep = (value.splitOn sep).map (List.map f) := by
  induction value with
  | nil => rfl
  | cons c rest ih =>
    rw [List.map_cons, List.splitOn_cons_eq_if_modifyHead, List.splitOn_cons_eq_if_modifyHead, ih]
    by_cases hc : c = sep
    · rw [if_pos (beq_iff_eq.mpr ((h c).mpr hc)), if_pos (beq_iff_eq.mpr hc)]
      rfl
    · rw [if_neg (mt beq_iff_eq.mp (mt (h c).mp hc)), if_neg (mt beq_iff_eq.mp hc)]
      cases rest.splitOn sep <;> rfl

theorem items_map {f : α → α} (hsep : ∀ c, f c = sep ↔ c = sep)
    (hblank : ∀ c, blank (f c) = blank c) (value : List α) :
    items sep blank (value.map f) = (items sep blank value).map (List.map f) := by
  rw [items, items, splitOn_map hsep, List.map_map, List.map_map]
  exact List.map_congr_left fun part _ => strip_map hblank part

end Items
end ListField

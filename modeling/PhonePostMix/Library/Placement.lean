import Mathlib.Data.List.GetD
import Mathlib.Data.List.Nodup
import Mathlib.Logic.Function.Basic

/-! Values that are put at the places of a list, one after the other, and read from there. -/

namespace Placement
variable {P V : Type} [DecidableEq P] (f : P → V)

def place (ps : List P) (vs : List V) : P → V :=
  (ps.zip vs).foldl (fun g pv => Function.update g pv.1 pv.2) f

@[simp] theorem place_nil (vs : List V) : place f [] vs = f := rfl

@[simp] theorem place_empty (ps : List P) : place f ps [] = f := by
  cases ps <;> rfl

@[simp] theorem place_cons (p : P) (ps : List P) (v : V) (vs : List V) :
    place f (p :: ps) (v :: vs) = place (Function.update f p v) ps vs := rfl

theorem place_of_notMem {ps : List P} {p : P} (h : p ∉ ps) (vs : List V) :
    place f ps vs p = f p := by
  induction ps generalizing f vs with
  | nil => rfl
  | cons q ps ih =>
    obtain ⟨hne, hrest⟩ := not_or.mp (mt List.mem_cons.mpr h)
    rcases vs with _ | ⟨v, vs⟩
    · rw [place_empty]
    · rw [place_cons, ih _ hrest, Function.update_of_ne hne]

theorem place_congr (g : P → V) {ps : List P} {vs : List V} (h : ps.length ≤ vs.length) {p : P}
    (hp : p ∈ ps) : place f ps vs p = place g ps vs p := by
  induction ps generalizing f g vs with
  | nil => exact absurd hp List.not_mem_nil
  | cons q ps ih =>
    rcases vs with _ | ⟨v, vs⟩
    · exact absurd h (Nat.not_succ_le_zero _)
    · rw [place_cons, place_cons]
      by_cases hmem : p ∈ ps
      · exact ih _ _ (Nat.le_of_succ_le_succ h) hmem
      · obtain rfl := (List.mem_cons.mp hp).resolve_right hmem
        rw [place_of_notMem _ hmem, place_of_notMem _ hmem, Function.update_self,
          Function.update_self]

theorem map_place {ps : List P} (hnodup : ps.Nodup) {vs : List V} (h : vs.length ≤ ps.length) :
    (ps.map (place f ps vs)).take vs.length = vs := by
  induction ps generalizing f vs with
  | nil => simpa [eq_comm] using h
  | cons p ps ih =>
    rcases vs with _ | ⟨v, vs⟩
    · rfl
    · obtain ⟨hnew, hrest⟩ := List.nodup_cons.mp hnodup
      rw [List.map_cons, place_cons, List.length_cons, List.take_succ_cons,
        place_of_notMem _ hnew, Function.update_self,
        ih _ hrest (Nat.le_of_succ_le_succ h)]

theorem place_map {ps : List P} (g : P → V) {p : P} (hp : p ∈ ps) :
    place f ps (ps.map g) p = g p := by
  induction ps generalizing f with
  | nil => exact absurd hp List.not_mem_nil
  | cons q ps ih =>
    rw [List.map_cons, place_cons]
    by_cases hmem : p ∈ ps
    · exact ih _ hmem
    · obtain rfl := (List.mem_cons.mp hp).resolve_right hmem
      rw [place_of_notMem _ hmem, Function.update_self]

theorem place_append {ps qs : List P} {vs ws : List V} (h : ps.length = vs.length) :
    place f (ps ++ qs) (vs ++ ws) = place (place f ps vs) qs ws := by
  rw [place, List.zip_append h, List.foldl_append]
  rfl

theorem place_more {ps : List P} {vs : List V} (h : ps.length ≤ vs.length) (more : List V) :
    place f ps (vs ++ more) = place f ps vs := by
  induction ps generalizing f vs with
  | nil => rfl
  | cons p ps ih =>
    rcases vs with _ | ⟨v, vs⟩
    · exact absurd h (Nat.not_succ_le_zero _)
    · rw [List.cons_append, place_cons, place_cons, ih _ (Nat.le_of_succ_le_succ h)]

theorem place_map_injective {Q : Type} [DecidableEq Q] {e : P → Q} (he : Function.Injective e)
    (f : Q → V) (ps : List P) (vs : List V) (p : P) :
    place f (ps.map e) vs (e p) = place (f ∘ e) ps vs p := by
  induction ps generalizing f vs with
  | nil => rfl
  | cons q ps ih =>
    rcases vs with _ | ⟨v, vs⟩
    · rw [place_empty, place_empty, Function.comp_apply]
    · rw [List.map_cons, place_cons, place_cons, ih, Function.update_comp_eq_of_injective f he]

theorem place_const {ps : List P} {vs : List V} (h : ps.length ≤ vs.length) {p : P} (hp : p ∈ ps)
    {v : V} (hv : ∀ pv ∈ ps.zip vs, pv.1 = p → pv.2 = v) : place f ps vs p = v := by
  induction ps generalizing f vs with
  | nil => exact absurd hp List.not_mem_nil
  | cons q ps ih =>
    rcases vs with _ | ⟨w, vs⟩
    · exact absurd h (Nat.not_succ_le_zero _)
    · rw [List.zip_cons_cons] at hv
      obtain ⟨hfirst, hrest⟩ := List.forall_mem_cons.mp hv
      rw [place_cons]
      by_cases hmem : p ∈ ps
      · exact ih _ (Nat.le_of_succ_le_succ h) hmem hrest
      · obtain rfl := (List.mem_cons.mp hp).resolve_right hmem
        rw [place_of_notMem _ hmem, Function.update_self]
        exact hfirst rfl

section Indices
variable {α : Type}

theorem map_getD_range (l : List α) (d : α) : (List.range l.length).map (l.getD · d) = l := by
  refine List.ext_getElem (by simp) fun i _ hi => ?_
  rw [List.getElem_map, List.getElem_range, List.getD_eq_getElem _ _ hi]

theorem map_getD_skip (l m : List α) (a d : α) :
    ((List.range (l.length + (1 + m.length))).filter (· ≠ l.length)).map
      ((l ++ (a :: m)).getD · d) = l ++ m := by
  have hfirst : (List.range l.length).filter (· ≠ l.length) = List.range l.length :=
    List.filter_eq_self.mpr fun i hi => by simpa using Nat.ne_of_lt (List.mem_range.mp hi)
  have hlast : (List.map (l.length + ·) (List.map (1 + ·) (List.range m.length))).filter
      (· ≠ l.length) = List.map (l.length + ·) (List.map (1 + ·) (List.range m.length)) := by
    refine List.filter_eq_self.mpr fun i hi => ?_
    obtain ⟨j, hj, rfl⟩ := List.mem_map.mp hi
    obtain ⟨k, -, rfl⟩ := List.mem_map.mp hj
    simp
  rw [List.range_add, List.range_add, List.map_append, List.filter_append, List.filter_append,
    hfirst, hlast, List.map_append, List.map_append]
  congr 1
  · conv_rhs => rw [← map_getD_range l d]
    refine List.map_congr_left fun i hi => ?_
    rw [List.getD_append _ _ _ _ (List.mem_range.mp hi)]
  · conv_rhs => rw [← map_getD_range m d]
    simp only [List.range_one, List.map_cons, List.map_nil, Nat.add_zero, ne_eq, not_true_eq_false,
      decide_false, Bool.false_eq_true, not_false_eq_true, List.filter_cons_of_neg, List.filter_nil,
      List.nil_append, List.map_map]
    refine List.map_congr_left fun i _ => ?_
    rw [Function.comp_apply, Function.comp_apply,
      List.getD_append_right _ _ _ _ (Nat.le_add_right _ _), Nat.add_sub_cancel_left,
      Nat.add_comm 1 i, List.getD_cons_succ]

end Indices
end Placement

import Mathlib.Data.List.Basic

/-! A flag that several parties set and one party takes, by an exchange that clears it: what a
taker finds, from the order of the sets and the takes. -/

namespace Latch

inductive Mark (β : Type*) where
  | set
  | take (b : β)
  deriving DecidableEq, Repr

variable {β : Type*}

def Mark.flag (m : Mark β) : Bool :=
  match m with
  | .set => true
  | .take _ => false

def pending (initial : Bool) (marks : List (Mark β)) : Bool :=
  marks.foldl (fun _ m => m.flag) initial

def takes : List (Mark β) → List β
  | [] => []
  | .set :: marks => takes marks
  | .take b :: marks => b :: takes marks

theorem takes_append (a b : List (Mark β)) : takes (a ++ b) = takes a ++ takes b := by
  induction a with
  | nil => rfl
  | cons m a ih => cases m <;> simp only [List.cons_append, takes, ih]

theorem takes_eq_append_cons {marks : List (Mark β)} {a b : List β} {x : β}
    (h : takes marks = a ++ x :: b) :
    ∃ before after, marks = before ++ .take x :: after ∧ takes before = a ∧ takes after = b := by
  induction marks generalizing a with
  | nil => simp [takes] at h
  | cons m marks ih =>
    cases m with
    | set =>
      obtain ⟨before, after, rfl, hbefore, hafter⟩ := ih h
      exact ⟨.set :: before, after, rfl, hbefore, hafter⟩
    | take y =>
      cases a with
      | nil =>
        obtain ⟨rfl, hafter⟩ := List.cons.inj h
        exact ⟨[], marks, rfl, rfl, hafter⟩
      | cons z a =>
        obtain ⟨rfl, hrest⟩ := List.cons.inj h
        obtain ⟨before, after, rfl, hbefore, hafter⟩ := ih hrest
        exact ⟨.take y :: before, after, rfl, congrArg (y :: ·) hbefore, hafter⟩

theorem pending_snoc (initial : Bool) (a : List (Mark β)) (m : Mark β) :
    pending initial (a ++ [m]) = m.flag := by
  rw [pending, List.foldl_append]
  rfl

theorem pending_append (initial : Bool) (a b : List (Mark β)) :
    pending initial (a ++ b) = pending (pending initial a) b := List.foldl_append

theorem pending_of_not_taken {b : List (Mark β)} (h : takes b = []) : pending true b = true := by
  induction b with
  | nil => rfl
  | cons m b ih =>
    cases m with
    | set => exact ih h
    | take x => cases h

theorem set_of_pending {b : List (Mark β)} (h : pending false b = true) : .set ∈ b := by
  induction b with
  | nil => cases h
  | cons m b ih =>
    cases m with
    | set => exact List.mem_cons_self
    | take x => exact List.mem_cons_of_mem _ (ih h)

theorem pending_after_set (initial : Bool) (a : List (Mark β)) {b : List (Mark β)}
    (h : takes b = []) : pending initial (a ++ .set :: b) = true := by
  rw [pending_append]
  exact pending_of_not_taken h

theorem set_of_pending_after_take {initial : Bool} {a b : List (Mark β)} {x : β}
    (h : pending initial (a ++ .take x :: b) = true) : .set ∈ b := by
  rw [pending_append] at h
  exact set_of_pending h

end Latch

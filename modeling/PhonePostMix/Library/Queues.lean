import Mathlib.Data.List.Basic
import Mathlib.Data.List.Infix
import Mathlib.Data.List.Nodup
import Mathlib.Data.List.Sublists

/-! Queues of bounded size: one that takes blocks whole or not at all, and one that may discard its
oldest droppable entry, with a ledger of what was offered, taken and discarded beside it. -/

structure BoundedFifo (β : Type*) where
  bound : ℕ
  items : List β
  length_le : items.length ≤ bound

namespace BoundedFifo
variable {β : Type*}

def empty (bound : ℕ) : BoundedFifo β := ⟨bound, [], Nat.zero_le _⟩

def room (q : BoundedFifo β) : ℕ := q.bound - q.items.length

def enqueue (q : BoundedFifo β) (block : List β) : Bool × BoundedFifo β :=
  if h : q.items.length + block.length ≤ q.bound then
    (true, ⟨q.bound, q.items ++ block, by rwa [List.length_append]⟩)
  else (false, q)

def dequeue (q : BoundedFifo β) (n : ℕ) : List β × BoundedFifo β :=
  (q.items.take n,
    ⟨q.bound, q.items.drop n, by
      have hle := q.length_le
      rw [List.length_drop]
      omega⟩)

@[simp] theorem length_add_room (q : BoundedFifo β) : q.items.length + q.room = q.bound := by
  have hle := q.length_le
  unfold room
  omega

theorem enqueue_of_le {q : BoundedFifo β} {block : List β} (h : block.length ≤ q.room) :
    (q.enqueue block).1 = true ∧ (q.enqueue block).2.bound = q.bound ∧
      (q.enqueue block).2.items = q.items ++ block := by
  have hroom := q.length_add_room
  rw [enqueue, dif_pos (by omega)]
  exact ⟨rfl, rfl, rfl⟩

theorem enqueue_of_lt {q : BoundedFifo β} {block : List β} (h : q.room < block.length) :
    q.enqueue block = (false, q) := by
  have hroom := q.length_add_room
  rw [enqueue, dif_neg (by omega)]

end BoundedFifo

namespace DropOldest
variable {α : Type*}

/-- What holds of a queue and its history: entries leave in order, only droppable ones are
lost, and of these the oldest first. -/
structure Delivery (droppable : α → Bool) (offered taken queue : List α) (discarded : ℕ) :
    Prop where
  inOrder : (taken ++ queue).Sublist offered
  kept : (taken ++ queue).filter (fun x => !droppable x) = offered.filter (fun x => !droppable x)
  newest : queue.filter droppable <:+ offered.filter droppable
  count : offered.length = taken.length + queue.length + discarded

theorem find?_split {p : α → Bool} {l : List α} {x : α} (h : l.find? p = some x) :
    ∃ before rest, l = before ++ x :: rest ∧ l.eraseP p = before ++ rest ∧
      (∀ a ∈ before, p a = false) ∧ p x = true := by
  obtain ⟨hx, before, rest, rfl, hbefore⟩ := List.find?_eq_some_iff_append.mp h
  have hnot : ∀ a ∈ before, ¬ p a = true := fun a ha => by simpa using hbefore a ha
  refine ⟨before, rest, rfl, ?_, fun a ha => by simpa using hbefore a ha, hx⟩
  rw [List.eraseP_append_right _ hnot, List.eraseP_cons_of_pos hx]

namespace Delivery
variable {droppable : α → Bool} {offered taken queue : List α} {discarded : ℕ}

theorem empty (droppable : α → Bool) : Delivery droppable [] [] [] 0 :=
  ⟨List.Sublist.refl _, rfl, List.suffix_refl _, rfl⟩

theorem offer (h : Delivery droppable offered taken queue discarded) (x : α) :
    Delivery droppable (offered ++ [x]) taken (queue ++ [x]) discarded := by
  refine ⟨?_, ?_, ?_, ?_⟩
  · rw [← List.append_assoc]
    exact h.inOrder.append (List.Sublist.refl _)
  · rw [← List.append_assoc, List.filter_append, h.kept, ← List.filter_append]
  · obtain ⟨older, hnewest⟩ := h.newest
    refine ⟨older, ?_⟩
    rw [List.filter_append, List.filter_append, ← List.append_assoc, hnewest]
  · have hcount := h.count
    simp only [List.length_append, List.length_singleton]
    omega

theorem take {x : α} (h : Delivery droppable offered taken (x :: queue) discarded) :
    Delivery droppable offered (taken ++ [x]) queue discarded := by
  have happend : (taken ++ [x]) ++ queue = taken ++ x :: queue := by simp
  refine ⟨?_, ?_, ?_, ?_⟩
  · rw [happend]
    exact h.inOrder
  · rw [happend]
    exact h.kept
  · exact ((List.suffix_cons x queue).filter droppable).trans h.newest
  · have hcount := h.count
    simp only [List.length_append, List.length_cons, List.length_nil] at hcount ⊢
    omega

theorem discard {x : α} (h : Delivery droppable offered taken queue discarded)
    (hx : queue.find? droppable = some x) :
    Delivery droppable offered taken (queue.eraseP droppable) (discarded + 1) := by
  obtain ⟨before, rest, rfl, herase, hbefore, hdrop⟩ := find?_split hx
  have hnone : before.filter droppable = [] :=
    List.filter_eq_nil_iff.mpr fun a ha => by simp [hbefore a ha]
  rw [herase]
  refine ⟨?_, ?_, ?_, ?_⟩
  · refine List.Sublist.trans ?_ h.inOrder
    refine (List.Sublist.refl taken).append ((List.Sublist.refl before).append ?_)
    exact List.sublist_cons_self x rest
  · rw [← h.kept]
    simp [hdrop]
  · refine List.IsSuffix.trans ?_ h.newest
    rw [List.filter_append, List.filter_append, hnone, List.nil_append, List.nil_append]
    exact (List.suffix_cons x rest).filter droppable
  · have hcount := h.count
    simp only [List.length_append, List.length_cons] at hcount ⊢
    omega

theorem newest_eq (h : Delivery droppable offered taken queue discarded) :
    ∃ m, queue.filter droppable =
      (offered.filter droppable).drop ((offered.filter droppable).length - m) := by
  refine ⟨(queue.filter droppable).length, ?_⟩
  exact List.suffix_iff_eq_drop.mp h.newest

end Delivery

theorem eq_filter_of_sublist [DecidableEq α] {part l : List α} (h : part.Sublist l)
    (hl : l.Nodup) : part = l.filter (fun x => decide (x ∈ part)) := by
  have hself : part.filter (fun x => decide (x ∈ part)) = part :=
    List.filter_eq_self.mpr fun x hx => decide_eq_true hx
  have hsub : part.Sublist (l.filter fun x => decide (x ∈ part)) := by
    have hfilter := h.filter fun x => decide (x ∈ part)
    rwa [hself] at hfilter
  have hperm : part.Perm (l.filter fun x => decide (x ∈ part)) := by
    rw [List.perm_ext_iff_of_nodup (hl.sublist h) (hl.filter _)]
    intro x
    exact ⟨fun hx => List.mem_filter.mpr ⟨h.subset hx, decide_eq_true hx⟩,
      fun hx => of_decide_eq_true (List.mem_filter.mp hx).2⟩
  exact hsub.eq_of_length hperm.length_eq

theorem shared_in_order [DecidableEq α] {l₁ l₂ l : List α} (h₁ : l₁.Sublist l)
    (h₂ : l₂.Sublist l) (hl : l.Nodup) :
    l₁.filter (fun x => decide (x ∈ l₂)) = l₂.filter (fun x => decide (x ∈ l₁)) := by
  have e₁ := eq_filter_of_sublist h₁ hl
  have e₂ := eq_filter_of_sublist h₂ hl
  calc l₁.filter (fun x => decide (x ∈ l₂))
      = (l.filter fun x => decide (x ∈ l₁)).filter (fun x => decide (x ∈ l₂)) := by rw [← e₁]
    _ = (l.filter fun x => decide (x ∈ l₂)).filter (fun x => decide (x ∈ l₁)) :=
        List.filter_comm ..
    _ = l₂.filter (fun x => decide (x ∈ l₁)) := by rw [← e₂]

end DropOldest

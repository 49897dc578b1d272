import Mathlib.Data.List.Basic
import Mathlib.Data.List.Range
import Mathlib.Data.Nat.ModEq
import Mathlib.Tactic.Linarith

/-! Writes to indexed memory, and the queue that a run of slots of a circular memory holds. -/

namespace CircularMemory

section Writes
variable {ι α : Type*}

theorem getElem?_foldl_set (index : ι → ℕ) (value : ι → α) (f : ℕ → α) (xs : List ι)
    (h : ∀ x ∈ xs, value x = f (index x)) (memory : List α) (k : ℕ) :
    (xs.foldl (fun m x => m.set (index x) (value x)) memory)[k]? =
      if k ∈ xs.map index then memory[k]?.map (fun _ => f k) else memory[k]? := by
  induction xs generalizing memory with
  | nil => simp
  | cons x xs ih =>
    have hx := h x List.mem_cons_self
    have hrest := ih (fun y hy => h y (List.mem_cons_of_mem x hy)) (memory.set (index x) (value x))
    rw [List.foldl_cons, hrest, List.getElem?_set', List.map_cons]
    by_cases hk : index x = k
    · subst hk
      rw [if_pos rfl, if_pos List.mem_cons_self, hx]
      split_ifs
      · rw [Option.map_eq_map, Option.map_map]
        rfl
      · rfl
    · rw [if_neg hk]
      have hmem : k ∈ index x :: xs.map index ↔ k ∈ xs.map index := by
        simp [Ne.symm hk]
      simp only [hmem]

theorem length_foldl_set (index : ι → ℕ) (value : ι → α) (xs : List ι) (memory : List α) :
    (xs.foldl (fun m x => m.set (index x) (value x)) memory).length = memory.length := by
  induction xs generalizing memory with
  | nil => rfl
  | cons x xs ih => rw [List.foldl_cons, ih, List.length_set]

end Writes

section Slots
variable {β : Type*} {total start ready n : ℕ}

def slot (total start k : ℕ) : ℕ := (start + k) % total

theorem slot_lt (h : 0 < total) (start k : ℕ) : slot total start k < total := Nat.mod_lt _ h

theorem slot_slot (total start j k : ℕ) : slot total (slot total start j) k =
    slot total start (j + k) := by
  simp only [slot, Nat.mod_add_mod, Nat.add_assoc]

theorem slot_inj {j k : ℕ} (hj : j < total) (hk : k < total)
    (h : slot total start j = slot total start k) : j = k := by
  have hmod : j ≡ k [MOD total] := Nat.ModEq.add_left_cancel' start h
  rwa [Nat.ModEq, Nat.mod_eq_of_lt hj, Nat.mod_eq_of_lt hk] at hmod

theorem slot_cases {k : ℕ} (hstart : start < total) (hk : k < total) :
    slot total start k = if k < total - start then start + k else k - (total - start) := by
  unfold slot
  split_ifs with h
  · exact Nat.mod_eq_of_lt (by omega)
  · rw [Nat.mod_eq_sub_mod (by omega), Nat.mod_eq_of_lt (by omega)]
    omega

def contents (memory : ℕ → β) (total start ready : ℕ) : List β :=
  (List.range ready).map fun k => memory (slot total start k)

@[simp] theorem length_contents (memory : ℕ → β) (total start ready : ℕ) :
    (contents memory total start ready).length = ready := by
  simp [contents]

theorem contents_add (memory : ℕ → β) (total start j k : ℕ) :
    contents memory total start (j + k) =
      contents memory total start j ++ contents memory total (slot total start j) k := by
  simp only [contents, List.range_add, List.map_append, List.map_map, Function.comp_def,
    slot_slot]

theorem contents_congr {memory memory' : ℕ → β}
    (h : ∀ k < ready, memory (slot total start k) = memory' (slot total start k)) :
    contents memory total start ready = contents memory' total start ready := by
  apply List.map_congr_left
  intro k hk
  exact h k (List.mem_range.mp hk)

theorem contents_write {memory memory' : ℕ → β} {item : ℕ → β} (hroom : ready + n ≤ total)
    (hnew : ∀ i < n, memory' (slot total start (ready + i)) = item i)
    (hold : ∀ s < total, (∀ i < n, s ≠ slot total start (ready + i)) → memory' s = memory s) :
    contents memory' total start (ready + n) =
      contents memory total start ready ++ (List.range n).map item := by
  rw [contents_add]
  congr 1
  · apply contents_congr
    intro k hk
    apply hold _ (slot_lt (by omega) start k)
    intro i hi heq
    have hsame : k = ready + i := slot_inj (by omega) (by omega) heq
    omega
  · apply List.map_congr_left
    intro i hi
    rw [slot_slot]
    exact hnew i (List.mem_range.mp hi)

theorem contents_read (memory : ℕ → β) (h : n ≤ ready) :
    contents memory total start n = (contents memory total start ready).take n ∧
      contents memory total (slot total start n) (ready - n) =
        (contents memory total start ready).drop n := by
  have hsplit : contents memory total start ready = contents memory total start n ++
      contents memory total (slot total start n) (ready - n) := by
    rw [← contents_add, Nat.add_sub_cancel' h]
  rw [hsplit]
  constructor
  · exact (List.take_left' (length_contents ..)).symm
  · exact (List.drop_left' (length_contents ..)).symm

end Slots
end CircularMemory

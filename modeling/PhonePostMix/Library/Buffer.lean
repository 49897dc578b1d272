import Mathlib.Data.List.Basic

/-! Writes into a block of memory, and the block they leave when each starts where the one before
it ended. -/

namespace Buffer
variable {α : Type*}

def blit (memory : List α) (offset : ℕ) (bytes : List α) : List α :=
  memory.take offset ++ bytes ++ memory.drop (offset + bytes.length)

def within (offset : ℕ) (f : List α → List α) (memory : List α) : List α :=
  memory.take offset ++ f (memory.drop offset)

def filled (written memory : List α) : List α := written ++ memory.drop written.length

@[simp] theorem filled_nil (memory : List α) : filled [] memory = memory := rfl

theorem blit_filled (written memory bytes : List α) {offset : ℕ} (h : offset = written.length) :
    blit (filled written memory) offset bytes = filled (written ++ bytes) memory := by
  subst h
  simp [blit, filled, List.drop_append]

theorem within_filled (written memory : List α) (f : List α → List α) {offset : ℕ}
    (h : offset = written.length) :
    within offset f (filled written memory) = written ++ f (memory.drop offset) := by
  subst h
  simp [within, filled]

theorem foldl_blit (block : ℕ → List α) (size : ℕ) (hsize : ∀ i, (block i).length = size)
    (memory : List α) (n : ℕ) :
    (List.range n).foldl (fun m i => blit m (i * size) (block i)) memory =
      filled ((List.range n).flatMap block) memory := by
  induction n with
  | zero => rfl
  | succ n ih =>
    have hlen : n * size = ((List.range n).flatMap block).length := by
      simp [List.length_flatMap, hsize]
    rw [List.range_succ, List.foldl_append, ih, List.foldl_cons, List.foldl_nil,
      blit_filled _ _ _ hlen, List.flatMap_append, List.flatMap_singleton]

theorem take_drop_flatMap (block : ℕ → List α) (size : ℕ) (hsize : ∀ i, (block i).length = size)
    (rest : List α) {n i : ℕ} (h : i < n) :
    ((((List.range n).flatMap block) ++ rest).drop (i * size)).take size = block i := by
  obtain ⟨k, rfl⟩ := Nat.exists_eq_add_of_lt h
  have hrange : List.range (i + k + 1) =
      List.range i ++ i :: (List.range k).map fun j => i + 1 + j := by
    rw [Nat.add_assoc, Nat.add_comm k 1, List.range_add, List.range_add, List.range_one]
    simp [Nat.add_assoc]
  have hlen : ((List.range i).flatMap block).length = i * size := by
    simp [List.length_flatMap, hsize]
  rw [hrange, List.flatMap_append, List.flatMap_cons, List.append_assoc, List.append_assoc,
    List.drop_left' hlen, List.take_left' (hsize i)]

theorem map_take_drop_flatten {size : ℕ} {blocks : List (List α)}
    (hsize : ∀ b ∈ blocks, b.length = size) (rest : List α) :
    ((List.range blocks.length).map fun i =>
      ((blocks.flatten ++ rest).drop (i * size)).take size) = blocks := by
  induction blocks with
  | nil => rfl
  | cons b blocks ih =>
    have hb : b.length = size := hsize b List.mem_cons_self
    have hrest := ih fun b' hb' => hsize b' (List.mem_cons_of_mem b hb')
    rw [List.length_cons, List.range_succ_eq_map, List.map_cons, List.map_map]
    congr 1
    · simp [← hb]
    · refine Eq.trans ?_ hrest
      apply List.map_congr_left
      intro i _
      rw [Function.comp, Nat.succ_mul, Nat.add_comm, ← List.drop_drop, List.flatten_cons,
        List.append_assoc, List.drop_left' hb]

end Buffer

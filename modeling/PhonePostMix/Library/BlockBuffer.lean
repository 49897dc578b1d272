import Mathlib.Data.List.Basic

/-! A machine that takes its input in blocks of one size. What does not fill a block yet is kept
back, so it does not matter in which pieces the input comes. -/

namespace BlockBuffer
variable {σ α : Type*}

def put (size : ℕ) (compress : σ → List α → σ) (p : σ × List α) (x : α) : σ × List α :=
  -- one item more: a block that it fills goes to `compress`
  if p.2.length + 1 = size then (compress p.1 (p.2 ++ [x]), []) else (p.1, p.2 ++ [x])

def absorb (size : ℕ) (compress : σ → List α → σ) (p : σ × List α) (xs : List α) : σ × List α :=
  xs.foldl (put size compress) p

variable {size : ℕ} {compress : σ → List α → σ} {p : σ × List α}

@[simp] theorem absorb_nil : absorb size compress p [] = p := rfl

theorem absorb_append (xs ys : List α) :
    absorb size compress p (xs ++ ys) = absorb size compress (absorb size compress p xs) ys :=
  List.foldl_append

theorem absorb_short {xs : List α} (h : p.2.length + xs.length < size) :
    absorb size compress p xs = (p.1, p.2 ++ xs) := by
  induction xs generalizing p with
  | nil => simp
  | cons x xs ih =>
    rw [List.length_cons] at h
    have hput : put size compress p x = (p.1, p.2 ++ [x]) := if_neg (by omega)
    have hrest := ih (p := (p.1, p.2 ++ [x])) (by simp; omega)
    rw [absorb, List.foldl_cons, hput, ← absorb, hrest]
    simp

theorem absorb_full {xs : List α} (hne : xs ≠ []) (h : p.2.length + xs.length = size) :
    absorb size compress p xs = (compress p.1 (p.2 ++ xs), []) := by
  obtain ⟨before, x, rfl⟩ := (List.eq_nil_or_concat xs).resolve_left hne
  rw [List.concat_eq_append] at h ⊢
  rw [List.length_append, List.length_singleton] at h
  have hbefore : p.2.length + before.length < size := by omega
  rw [absorb_append, absorb_short hbefore]
  show put size compress (p.1, p.2 ++ before) x = _
  rw [put, if_pos (by simp; omega), List.append_assoc]

theorem absorb_pending_length (hp : p.2.length < size) (xs : List α) :
    (absorb size compress p xs).2.length = (p.2.length + xs.length) % size := by
  induction xs generalizing p with
  | nil => exact (Nat.mod_eq_of_lt hp).symm
  | cons x xs ih =>
    rw [absorb, List.foldl_cons, ← absorb, List.length_cons]
    by_cases hfull : p.2.length + 1 = size
    · have hput : put size compress p x = (compress p.1 (p.2 ++ [x]), []) := if_pos hfull
      have hrest := ih (p := (compress p.1 (p.2 ++ [x]), [])) (Nat.zero_lt_of_lt hp)
      rw [hput, hrest, List.length_nil, Nat.zero_add, Nat.add_comm xs.length, ← Nat.add_assoc,
        hfull, Nat.add_mod_left]
    · have hput : put size compress p x = (p.1, p.2 ++ [x]) := if_neg hfull
      have hrest := ih (p := (p.1, p.2 ++ [x])) (by simp; omega)
      rw [hput, hrest, List.length_append, List.length_singleton, Nat.add_assoc,
        Nat.add_comm 1 xs.length]

theorem absorb_blocks (hsize : 0 < size) {blocks : List (List α)}
    (h : ∀ b ∈ blocks, b.length = size) (s : σ) :
    absorb size compress (s, []) blocks.flatten = (blocks.foldl compress s, []) := by
  induction blocks generalizing s with
  | nil => rfl
  | cons b blocks ih =>
    have hb : b.length = size := h b List.mem_cons_self
    have hne : b ≠ [] := List.ne_nil_of_length_pos (by omega)
    rw [List.flatten_cons, absorb_append, absorb_full hne (by simpa using hb),
      List.nil_append, ih fun b' hb' => h b' (List.mem_cons_of_mem b hb')]
    rfl

theorem absorb_aligned (hsize : 0 < size) {xs : List α} {n : ℕ} (h : xs.length = n * size)
    (s : σ) :
    absorb size compress (s, []) xs =
      (((List.range n).map fun i => (xs.drop (i * size)).take size).foldl compress s, []) := by
  have hsplit : ∀ n (xs : List α), xs.length = n * size →
      ((List.range n).map fun i => (xs.drop (i * size)).take size).flatten = xs := by
    intro n
    induction n with
    | zero =>
      intro xs hxs
      rw [Nat.zero_mul] at hxs
      simp [List.eq_nil_of_length_eq_zero hxs]
    | succ n ih =>
      intro xs hxs
      rw [Nat.succ_mul] at hxs
      have hrest := ih (xs.drop size) (by rw [List.length_drop, hxs]; omega)
      have hlater : (fun i => (xs.drop ((i + 1) * size)).take size) =
          fun i => ((xs.drop size).drop (i * size)).take size := by
        funext i
        rw [List.drop_drop, Nat.succ_mul, Nat.add_comm]
      rw [List.range_succ_eq_map, List.map_cons, List.map_map, List.flatten_cons,
        Function.comp_def, hlater, hrest]
      simp
  have hblocks : ∀ b ∈ (List.range n).map fun i => (xs.drop (i * size)).take size,
      b.length = size := by
    intro b hb
    obtain ⟨i, hi, rfl⟩ := List.mem_map.mp hb
    have hle : (i + 1) * size ≤ n * size := Nat.mul_le_mul_right _ (List.mem_range.mp hi)
    rw [Nat.succ_mul] at hle
    rw [List.length_take, List.length_drop]
    omega
  rw [← absorb_blocks hsize hblocks s, hsplit n xs h]

end BlockBuffer

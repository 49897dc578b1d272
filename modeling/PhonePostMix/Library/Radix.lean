import Mathlib.Algebra.Order.Ring.Nat
import Mathlib.Data.List.Basic
import Mathlib.Data.List.Induction
import Mathlib.Data.Nat.Bitwise

/-! Numbers as digits of a fixed count, the highest first, and bits as digits in base two. -/

namespace Radix
variable {base : ℕ}

def number (base : ℕ) (ds : List ℕ) : ℕ := ds.foldl (fun a d => a * base + d) 0

def digits (base count v : ℕ) : List ℕ :=
  (List.range count).reverse.map fun i => v / base ^ i % base

@[simp] theorem number_nil : number base [] = 0 := rfl

@[simp] theorem number_concat (ds : List ℕ) (d : ℕ) :
    number base (ds ++ [d]) = number base ds * base + d := by
  rw [number, List.foldl_concat, ← number]

theorem digits_succ (count v : ℕ) :
    digits base (count + 1) v = digits base count (v / base) ++ [v % base] := by
  rw [digits, List.range_succ_eq_map, List.reverse_cons, List.map_append, ← List.map_reverse,
    List.map_map, digits]
  congr 1
  · refine List.map_congr_left fun i _ => ?_
    rw [Function.comp_apply, Nat.succ_eq_add_one, pow_succ', Nat.div_div_eq_div_mul]
  · simp

theorem number_lt {ds : List ℕ} (h : ∀ d ∈ ds, d < base) : number base ds < base ^ ds.length := by
  induction ds using List.reverseRecOn with
  | nil => simp
  | append_singleton ds d ih =>
    have hd := h d (by simp)
    have hds := ih fun e he => h e (List.mem_append_left _ he)
    rw [number_concat, List.length_append, List.length_singleton, pow_succ]
    calc number base ds * base + d < number base ds * base + base := Nat.add_lt_add_left hd _
      _ = (number base ds + 1) * base := (Nat.succ_mul _ _).symm
      _ ≤ base ^ ds.length * base := Nat.mul_le_mul_right _ hds

theorem digits_number {ds : List ℕ} (h : ∀ d ∈ ds, d < base) :
    digits base ds.length (number base ds) = ds := by
  induction ds using List.reverseRecOn with
  | nil => rfl
  | append_singleton ds d ih =>
    have hd := h d (by simp)
    rw [List.length_append, List.length_singleton, digits_succ, number_concat, Nat.mul_comm,
      Nat.mul_add_div (Nat.zero_lt_of_lt hd), Nat.mul_add_mod, Nat.div_eq_of_lt hd,
      Nat.mod_eq_of_lt hd, Nat.add_zero, ih fun e he => h e (List.mem_append_left _ he)]

theorem number_digits {count v : ℕ} (h : v < base ^ count) :
    number base (digits base count v) = v := by
  induction count generalizing v with
  | zero =>
    rw [pow_zero, Nat.lt_one_iff] at h
    rw [h]
    rfl
  | succ count ih =>
    rw [pow_succ'] at h
    rw [digits_succ, number_concat, ih (Nat.div_lt_of_lt_mul h), Nat.mul_comm, Nat.div_add_mod]

section Bits

def ofBits (bits : List Bool) : ℕ := number 2 (bits.map Bool.toNat)

def bitsOf (count v : ℕ) : List Bool := (List.range count).reverse.map v.testBit

@[simp] theorem length_bitsOf (count v : ℕ) : (bitsOf count v).length = count := by simp [bitsOf]

theorem map_bitsOf (count v : ℕ) : (bitsOf count v).map Bool.toNat = digits 2 count v := by
  rw [bitsOf, digits, List.map_map]
  exact List.map_congr_left fun i _ => Nat.toNat_testBit v i

theorem ofBits_bitsOf {count v : ℕ} (h : v < 2 ^ count) : ofBits (bitsOf count v) = v := by
  rw [ofBits, map_bitsOf, number_digits h]

end Bits

section Slices
variable {α : Type}

theorem length_slices {f : ℕ → List α} {width : ℕ} (h : ∀ k, (f k).length = width) (n : ℕ) :
    ((List.range n).flatMap f).length = n * width := by
  induction n with
  | zero => simp
  | succ n ih =>
    rw [List.range_succ, List.flatMap_append, List.length_append, ih, List.flatMap_singleton, h,
      Nat.succ_mul]

theorem slice {f : ℕ → List α} {width : ℕ} (h : ∀ k, (f k).length = width) {n k : ℕ} (hk : k < n)
    (rest : List α) :
    (((List.range n).flatMap f ++ rest).drop (k * width)).take width = f k := by
  obtain ⟨m, rfl⟩ : ∃ m, n = k + (1 + m) := ⟨n - k - 1, by omega⟩
  rw [List.range_add, List.flatMap_append, List.append_assoc,
    List.drop_left' (length_slices h k), List.range_add, List.map_append, List.flatMap_append,
    List.append_assoc]
  simp only [List.range_one, List.map_cons, List.map_nil, Nat.add_zero, List.flatMap_singleton]
  exact List.take_left' (h k)

theorem flatMap_slices (l : List α) (width n : ℕ) :
    ((List.range n).flatMap fun k => (l.drop (k * width)).take width) = l.take (n * width) := by
  induction n with
  | zero => simp
  | succ n ih =>
    rw [List.range_succ, List.flatMap_append, ih, List.flatMap_singleton, Nat.succ_mul,
      List.take_add]

end Slices
/-- How numbers below a base are put into bits: so many in a group, and how many bits a full group
takes or a shorter one at the end. -/
structure Grouping where
  base : ℕ
  group : ℕ
  bits : ℕ
  rest : ℕ → ℕ

namespace Grouping
variable {g : Grouping}

structure Lawful (g : Grouping) : Prop where
  pos : 0 < g.group
  full : g.base ^ g.group ≤ 2 ^ g.bits
  part : ∀ r < g.group, g.base ^ r ≤ 2 ^ g.rest r

def fullBits (g : Grouping) (vs : List ℕ) : List Bool :=
  (List.range (vs.length / g.group)).flatMap fun k =>
    bitsOf g.bits (number g.base ((vs.drop (k * g.group)).take g.group))

def remaining (g : Grouping) (vs : List ℕ) : List ℕ := vs.drop (vs.length / g.group * g.group)

def packed (g : Grouping) (vs : List ℕ) : List Bool :=
  g.fullBits vs ++ if vs.length % g.group = 0 then []
    else bitsOf (g.rest (vs.length % g.group)) (number g.base (g.remaining vs))

def size (g : Grouping) (count : ℕ) : ℕ :=
  count / g.group * g.bits + if count % g.group = 0 then 0 else g.rest (count % g.group)

def unpacked (g : Grouping) (count : ℕ) (bits : List Bool) : List ℕ :=
  ((List.range (count / g.group)).flatMap fun k =>
      digits g.base g.group (ofBits ((bits.drop (k * g.bits)).take g.bits))) ++
    if count % g.group = 0 then []
    else digits g.base (count % g.group)
      (ofBits ((bits.drop (count / g.group * g.bits)).take (g.rest (count % g.group))))

theorem length_fullBits (g : Grouping) (vs : List ℕ) :
    (g.fullBits vs).length = vs.length / g.group * g.bits :=
  length_slices (fun _ => length_bitsOf ..) _

theorem length_packed (g : Grouping) (vs : List ℕ) : (g.packed vs).length = g.size vs.length := by
  rw [packed, List.length_append, length_fullBits, size]
  split_ifs <;> simp

theorem length_remaining (g : Grouping) (vs : List ℕ) :
    (g.remaining vs).length = vs.length % g.group := by
  have hdivision := Nat.div_add_mod' vs.length g.group
  rw [remaining, List.length_drop]
  omega

theorem unpacked_packed (h : g.Lawful) {vs : List ℕ} (hvs : ∀ v ∈ vs, v < g.base)
    (rest : List Bool) : g.unpacked vs.length (g.packed vs ++ rest) = vs := by
  have hdivision := Nat.div_add_mod' vs.length g.group
  have hgroups : ((List.range (vs.length / g.group)).flatMap fun k => digits g.base g.group
      (ofBits (((g.packed vs ++ rest).drop (k * g.bits)).take g.bits))) =
        vs.take (vs.length / g.group * g.group) := by
    rw [← flatMap_slices]
    refine List.flatMap_congr fun k hk => ?_
    have hk := List.mem_range.mp hk
    have hin : (k + 1) * g.group ≤ vs.length / g.group * g.group := Nat.mul_le_mul_right _ hk
    rw [Nat.succ_mul] at hin
    have hlength : ((vs.drop (k * g.group)).take g.group).length = g.group := by
      rw [List.length_take, List.length_drop]
      omega
    have hsmall : ∀ v ∈ (vs.drop (k * g.group)).take g.group, v < g.base := fun v hv =>
      hvs v (List.mem_of_mem_drop (List.mem_of_mem_take hv))
    have hnumber := number_lt hsmall
    rw [hlength] at hnumber
    rw [packed, List.append_assoc, fullBits, slice (fun _ => length_bitsOf ..) hk,
      ofBits_bitsOf (hnumber.trans_le h.full)]
    have hback := digits_number hsmall
    rwa [hlength] at hback
  have hrest : (if vs.length % g.group = 0 then [] else digits g.base (vs.length % g.group)
      (ofBits (((g.packed vs ++ rest).drop (vs.length / g.group * g.bits)).take
        (g.rest (vs.length % g.group))))) = g.remaining vs := by
    have hlength := length_remaining g vs
    split_ifs with hnone
    · rw [hnone] at hlength
      exact (List.length_eq_zero_iff.mp hlength).symm
    · have hsmall : ∀ v ∈ g.remaining vs, v < g.base := fun v hv => hvs v (List.mem_of_mem_drop hv)
      have hnumber := number_lt hsmall
      rw [hlength] at hnumber
      have hfit := hnumber.trans_le (h.part _ (Nat.mod_lt _ h.pos))
      rw [packed, if_neg hnone, List.append_assoc, List.drop_left' (length_fullBits g vs),
        List.take_left' (length_bitsOf ..), ofBits_bitsOf hfit]
      have hback := digits_number hsmall
      rwa [hlength] at hback
  rw [unpacked, hgroups, hrest, remaining, List.take_append_drop]

theorem concat_full (h : 0 < g.group) {vs : List ℕ} (hfull : vs.length % g.group + 1 = g.group)
    (v : ℕ) : g.fullBits (vs ++ [v]) = g.fullBits vs ++
        bitsOf g.bits (number g.base (g.remaining vs) * g.base + v) ∧
      g.remaining (vs ++ [v]) = [] := by
  have hdivision := Nat.div_add_mod vs.length g.group
  have hlength : (vs ++ [v]).length = g.group * (vs.length / g.group + 1) := by
    rw [List.length_append, List.length_singleton, Nat.mul_succ]
    omega
  have hmore : (vs ++ [v]).length / g.group = vs.length / g.group + 1 := by
    rw [hlength, Nat.mul_div_cancel_left _ h]
  have hrest : g.remaining vs ++ [v] = ((vs ++ [v]).drop (vs.length / g.group * g.group)).take
      g.group := by
    have hle := Nat.div_mul_le_self vs.length g.group
    rw [List.drop_append_of_le_length hle, List.take_of_length_le]
    · rfl
    · rw [List.length_append, ← remaining, length_remaining, List.length_singleton, hfull]
  constructor
  · rw [fullBits, hmore, List.range_succ, List.flatMap_append, List.flatMap_singleton, ← hrest,
      number_concat]
    congr 1
    refine List.flatMap_congr fun k hk => ?_
    have hin : (k + 1) * g.group ≤ vs.length / g.group * g.group :=
      Nat.mul_le_mul_right _ (List.mem_range.mp hk)
    have hle := Nat.div_mul_le_self vs.length g.group
    rw [Nat.succ_mul] at hin
    rw [List.drop_append_of_le_length (by omega), List.take_append_of_le_length]
    rw [List.length_drop]
    omega
  · refine List.length_eq_zero_iff.mp ?_
    rw [length_remaining, hlength, Nat.mul_mod_right]

theorem concat_part {vs : List ℕ} (hpart : vs.length % g.group + 1 < g.group) (v : ℕ) :
    g.fullBits (vs ++ [v]) = g.fullBits vs ∧ g.remaining (vs ++ [v]) = g.remaining vs ++ [v] ∧
      (vs ++ [v]).length % g.group = vs.length % g.group + 1 := by
  have hdivision := Nat.div_add_mod vs.length g.group
  have hle := Nat.div_mul_le_self vs.length g.group
  have hlength : (vs ++ [v]).length =
      vs.length % g.group + 1 + g.group * (vs.length / g.group) := by
    rw [List.length_append, List.length_singleton]
    omega
  have hsame : (vs ++ [v]).length / g.group = vs.length / g.group := by
    rw [hlength, Nat.add_mul_div_left _ _ (by omega), Nat.div_eq_of_lt hpart, Nat.zero_add]
  refine ⟨?_, ?_, ?_⟩
  · rw [fullBits, fullBits, hsame]
    refine List.flatMap_congr fun k hk => ?_
    have hin : (k + 1) * g.group ≤ vs.length / g.group * g.group :=
      Nat.mul_le_mul_right _ (List.mem_range.mp hk)
    rw [Nat.succ_mul] at hin
    rw [List.drop_append_of_le_length (by omega), List.take_append_of_le_length]
    rw [List.length_drop]
    omega
  · rw [remaining, hsame, List.drop_append_of_le_length hle]
    rfl
  · rw [hlength, Nat.add_mul_mod_self_left, Nat.mod_eq_of_lt hpart]

end Grouping
end Radix

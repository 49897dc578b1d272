import Mathlib.Algebra.Order.Group.Nat
import Mathlib.Data.List.Induction
import Mathlib.Data.Nat.Digits.Defs
import Mathlib.Tactic.Ring

/-! Big- and little-endian numbers, assembled and taken apart with shifts and masks. -/

namespace ByteOrder

def byteAt (n shift : Nat) : UInt8 := (n >>> shift &&& 0xff).toUInt8

def bigEndian (bytes : List UInt8) : Nat :=
  bytes.foldl (fun n b => n <<< 8 ||| b.toNat) 0

def bigEndianBytes (k n : Nat) : List UInt8 :=
  match k with
  | 0 => []
  | k + 1 => byteAt n (8 * k) :: bigEndianBytes k n

theorem toNat_byteAt (n shift : Nat) : (byteAt n shift).toNat = n / 2 ^ shift % 256 := by
  have hmask : n >>> shift &&& 0xff = n / 2 ^ shift % 2 ^ 8 := by
    rw [Nat.shiftRight_eq_div_pow]
    exact Nat.and_two_pow_sub_one_eq_mod _ 8
  rw [byteAt, hmask]
  simp

theorem byteAt_mod {k shift : Nat} (h : shift + 8 ≤ k) (n : Nat) :
    byteAt (n % 2 ^ k) shift = byteAt n shift := by
  obtain ⟨m, rfl⟩ := Nat.exists_eq_add_of_le h
  apply UInt8.toNat_inj.mp
  rw [toNat_byteAt, toNat_byteAt, Nat.add_assoc, pow_add, Nat.mod_mul_right_div_self,
    Nat.mod_mod_of_dvd]
  exact Dvd.intro (2 ^ m) (pow_add 2 8 m).symm

theorem shiftLeft_or_byte (n : Nat) (b : UInt8) : n <<< 8 ||| b.toNat = n * 256 + b.toNat := by
  rw [← Nat.shiftLeft_add_eq_or_of_lt b.toNat_lt, Nat.shiftLeft_eq]

theorem foldl_bigEndian (bytes : List UInt8) (n : Nat) :
    bytes.foldl (fun n b => n <<< 8 ||| b.toNat) n =
      n * 256 ^ bytes.length + bigEndian bytes := by
  unfold bigEndian
  induction bytes generalizing n with
  | nil => simp
  | cons b bytes ih =>
    rw [List.foldl_cons, List.foldl_cons, ih, ih (0 <<< 8 ||| b.toNat), shiftLeft_or_byte,
      shiftLeft_or_byte, List.length_cons]
    ring

theorem bigEndian_cons (b : UInt8) (bytes : List UInt8) :
    bigEndian (b :: bytes) = b.toNat * 256 ^ bytes.length + bigEndian bytes := by
  rw [bigEndian, List.foldl_cons, foldl_bigEndian, shiftLeft_or_byte]
  simp

@[simp] theorem length_bigEndianBytes (k n : Nat) : (bigEndianBytes k n).length = k := by
  induction k with
  | zero => rfl
  | succ k ih => rw [bigEndianBytes, List.length_cons, ih]

theorem bigEndian_bigEndianBytes (k n : Nat) : bigEndian (bigEndianBytes k n) = n % 256 ^ k := by
  induction k with
  | zero => simp [bigEndianBytes, bigEndian, Nat.mod_one]
  | succ k ih =>
    rw [bigEndianBytes, bigEndian_cons, ih, toNat_byteAt, length_bigEndianBytes, pow_mul]
    rw [Nat.mod_pow_succ]
    norm_num
    ring

def littleEndianBytes (k n : Nat) : List UInt8 := (List.range k).map fun i => byteAt n (i * 8)

def littleEndian (bytes : List UInt8) : Nat :=
  bytes.zipIdx.foldl (fun value b => value ||| b.1.toNat <<< (b.2 * 8)) 0

@[simp] theorem length_littleEndianBytes (k n : Nat) : (littleEndianBytes k n).length = k := by
  simp [littleEndianBytes]

theorem pow_mul_eight (k : Nat) : 2 ^ (k * 8) = 256 ^ k := by
  rw [mul_comm, pow_mul]
  norm_num

theorem littleEndian_aux (bytes : List UInt8) : littleEndian bytes < 256 ^ bytes.length ∧
    ∀ b, littleEndian (bytes ++ [b]) = littleEndian bytes + 256 ^ bytes.length * b.toNat := by
  have hstep (bytes : List UInt8) (b : UInt8) (h : littleEndian bytes < 256 ^ bytes.length) :
      littleEndian (bytes ++ [b]) = littleEndian bytes + 256 ^ bytes.length * b.toNat := by
    have hor : littleEndian (bytes ++ [b]) =
        littleEndian bytes ||| b.toNat <<< (bytes.length * 8) := by
      simp [littleEndian, List.zipIdx_append]
    rw [← pow_mul_eight] at h
    rw [hor, Nat.or_comm, ← Nat.shiftLeft_add_eq_or_of_lt h, Nat.shiftLeft_eq, pow_mul_eight]
    ring
  have hlt : littleEndian bytes < 256 ^ bytes.length := by
    induction bytes using List.reverseRecOn with
    | nil => simp [littleEndian]
    | append_singleton bytes b ih =>
      have hb : 256 ^ bytes.length * b.toNat ≤ 256 ^ bytes.length * 255 :=
        Nat.mul_le_mul_left _ (Nat.le_of_lt_succ b.toNat_lt)
      rw [hstep bytes b ih, List.length_append, List.length_singleton, pow_succ]
      omega
  exact ⟨hlt, fun b => hstep bytes b hlt⟩

theorem littleEndian_lt (bytes : List UInt8) : littleEndian bytes < 256 ^ bytes.length :=
  (littleEndian_aux bytes).1

theorem littleEndian_append_singleton (bytes : List UInt8) (b : UInt8) :
    littleEndian (bytes ++ [b]) = littleEndian bytes + 256 ^ bytes.length * b.toNat :=
  (littleEndian_aux bytes).2 b

theorem littleEndian_eq_ofDigits (bytes : List UInt8) :
    littleEndian bytes = Nat.ofDigits 256 (bytes.map UInt8.toNat) := by
  induction bytes using List.reverseRecOn with
  | nil => rfl
  | append_singleton bytes b ih =>
    rw [littleEndian_append_singleton, ih, List.map_append, Nat.ofDigits_append, List.length_map]
    simp

theorem littleEndianBytes_succ (k n : Nat) :
    littleEndianBytes (k + 1) n = littleEndianBytes k n ++ [byteAt n (k * 8)] := by
  simp [littleEndianBytes, List.range_succ]

theorem littleEndianBytes_add_mul (k n m : Nat) :
    littleEndianBytes k (n + 256 ^ k * m) = littleEndianBytes k n := by
  apply List.map_congr_left
  intro i hi
  have hik := List.mem_range.mp hi
  have hpow : 256 ^ k = 2 ^ (i * 8) * (256 * 256 ^ (k - i - 1)) := by
    rw [pow_mul_eight, ← pow_succ', ← pow_add]
    congr 1
    omega
  apply UInt8.toNat_inj.mp
  rw [toNat_byteAt, toNat_byteAt, hpow, mul_assoc, Nat.add_mul_div_left _ _ (by positivity),
    mul_assoc, Nat.add_mul_mod_self_left]

theorem littleEndianBytes_littleEndian (bytes : List UInt8) :
    littleEndianBytes bytes.length (littleEndian bytes) = bytes := by
  induction bytes using List.reverseRecOn with
  | nil => rfl
  | append_singleton bytes b ih =>
    have hlt := littleEndian_lt bytes
    rw [littleEndian_append_singleton, List.length_append, List.length_singleton,
      littleEndianBytes_succ, littleEndianBytes_add_mul, ih]
    congr 2
    apply UInt8.toNat_inj.mp
    rw [toNat_byteAt, pow_mul_eight, Nat.add_mul_div_left _ _ (by positivity),
      Nat.div_eq_of_lt hlt, Nat.zero_add, Nat.mod_eq_of_lt b.toNat_lt]

theorem littleEndian_littleEndianBytes (k n : Nat) :
    littleEndian (littleEndianBytes k n) = n % 256 ^ k := by
  induction k with
  | zero => simp [littleEndianBytes, littleEndian, Nat.mod_one]
  | succ k ih =>
    rw [littleEndianBytes_succ, littleEndian_append_singleton, ih, length_littleEndianBytes,
      toNat_byteAt, pow_mul_eight, Nat.mod_pow_succ]

end ByteOrder

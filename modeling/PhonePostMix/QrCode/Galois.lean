import Mathlib.Algebra.CharP.Two
import Mathlib.Data.Nat.Bitwise
import Mathlib.Data.Nat.PrimeFin
import Mathlib.GroupTheory.OrderOfElement
import PhonePostMix.Library.PeasantProduct

/-! The arithmetic of the error correction: bytes as the elements of a field. -/

namespace Ppm.QrCode

def multiplyPass (x y : ℕ) (z i : ℕ) : ℕ :=
  let z := (z <<< 1) ^^^ ((z >>> 7) * 0x11d)
  z ^^^ (((y >>> i) &&& 1) * x)

def reedSolomonMultiply (x y : UInt8) : UInt8 :=
  UInt8.ofNat ([7, 6, 5, 4, 3, 2, 1, 0].foldl (multiplyPass x.toNat y.toNat) 0)

@[ext] structure Galois where
  byte : UInt8
  deriving DecidableEq

namespace Galois

instance : Add Galois := ⟨fun x y => ⟨x.byte ^^^ y.byte⟩⟩
instance : Neg Galois := ⟨id⟩
instance : Zero Galois := ⟨⟨0⟩⟩
instance : One Galois := ⟨⟨1⟩⟩

@[simp] theorem byte_add (x y : Galois) : (x + y).byte = x.byte ^^^ y.byte := rfl
@[simp] theorem byte_zero : (0 : Galois).byte = 0 := rfl
@[simp] theorem byte_one : (1 : Galois).byte = 1 := rfl

instance : AddCommGroup Galois where
  nsmul := nsmulRec
  zsmul := zsmulRec
  add_assoc x y z := Galois.ext (UInt8.xor_assoc ..)
  zero_add x := Galois.ext UInt8.zero_xor
  add_zero x := Galois.ext UInt8.xor_zero
  add_comm x y := Galois.ext (UInt8.xor_comm ..)
  neg_add_cancel x := Galois.ext UInt8.xor_self

def doubled (z : ℕ) : ℕ := (z <<< 1) ^^^ ((z >>> 7) * 0x11d)

theorem doubled_lt : ∀ z < 256, doubled z < 256 := by decide +kernel

theorem doubled_xor {x y : ℕ} (hx : x < 256) (hy : y < 256) :
    doubled (x ^^^ y) = doubled x ^^^ doubled y := by
  have hbits : ∀ a < 2, ∀ b < 2, (a ^^^ b) * 0x11d = (a * 0x11d) ^^^ (b * 0x11d) := by decide
  have hx7 : x >>> 7 < 2 := by
    rw [Nat.shiftRight_eq_div_pow]
    omega
  have hy7 : y >>> 7 < 2 := by
    rw [Nat.shiftRight_eq_div_pow]
    omega
  rw [doubled, doubled, doubled, Nat.shiftLeft_xor_distrib, Nat.shiftRight_xor_distrib,
    hbits _ hx7 _ hy7]
  ac_rfl

def double : Galois →+ Galois where
  toFun z := ⟨UInt8.ofNat (doubled z.byte.toNat)⟩
  map_zero' := rfl
  map_add' x y := by
    refine Galois.ext (UInt8.toNat_inj.mp ?_)
    have hx := doubled_lt _ x.byte.toNat_lt
    have hy := doubled_lt _ y.byte.toNat_lt
    have hxy := doubled_lt _ (x.byte ^^^ y.byte).toNat_lt
    simp only [byte_add, UInt8.toNat_ofNat', UInt8.toNat_xor] at hxy ⊢
    rw [Nat.mod_eq_of_lt hxy, Nat.mod_eq_of_lt hx, Nat.mod_eq_of_lt hy,
      doubled_xor x.byte.toNat_lt y.byte.toNat_lt]

def bits (y : Galois) : List Bool := [7, 6, 5, 4, 3, 2, 1, 0].map y.byte.toNat.testBit

theorem times_bits_one (x : Galois) : PeasantProduct.times double x.bits 1 = x := by
  have hall : ∀ n < 256,
      PeasantProduct.times double (bits ⟨UInt8.ofNat n⟩) 1 = ⟨UInt8.ofNat n⟩ := by
    decide +kernel
  have hx := hall x.byte.toNat x.byte.toNat_lt
  rwa [UInt8.ofNat_toNat] at hx

instance : Mul Galois := ⟨PeasantProduct.product double bits⟩

instance : CommRing Galois where
  mul_assoc := PeasantProduct.product_assoc double bits times_bits_one
  mul_comm := PeasantProduct.product_comm double bits times_bits_one
  one_mul := times_bits_one
  mul_one := PeasantProduct.product_one double bits times_bits_one
  left_distrib := PeasantProduct.product_add double bits times_bits_one
  right_distrib x y z := PeasantProduct.times_add double (bits z) x y
  zero_mul x := PeasantProduct.times_zero double (bits x)
  mul_zero := PeasantProduct.product_zero double bits times_bits_one
  zsmul := zsmulRec
  neg_add_cancel := neg_add_cancel

theorem mul_eq (x y : Galois) : x * y = PeasantProduct.times double (bits y) x := rfl

instance : Nontrivial Galois := ⟨0, 1, by decide⟩

instance : CharP Galois 2 :=
  CharTwo.of_one_ne_zero_of_two_eq_zero (by decide) (by decide)

theorem foldl_multiplyPass (x y : UInt8) (is : List ℕ) {z : ℕ} (hz : z < 256) :
    UInt8.ofNat (is.foldl (multiplyPass x.toNat y.toNat) z) =
      ((is.map y.toNat.testBit).foldl (fun z b => double z + if b then (⟨x⟩ : Galois) else 0)
        ⟨UInt8.ofNat z⟩).byte := by
  induction is generalizing z with
  | nil => rfl
  | cons i is ih =>
    have hbit : (y.toNat >>> i) &&& 1 = (y.toNat.testBit i).toNat := by
      rw [Nat.toNat_testBit, Nat.and_one_is_mod, Nat.shiftRight_eq_div_pow]
    have hdouble : double ⟨UInt8.ofNat z⟩ = ⟨UInt8.ofNat (doubled z)⟩ := by
      refine Galois.ext (congrArg (fun n => UInt8.ofNat (doubled n)) ?_)
      exact UInt8.toNat_ofNat_of_lt' hz
    have hfactor : (y.toNat.testBit i).toNat * x.toNat < 256 := by
      have hx := x.toNat_lt
      cases y.toNat.testBit i <;> simp [hx]
    have hpass : multiplyPass x.toNat y.toNat z i =
        doubled z ^^^ ((y.toNat.testBit i).toNat * x.toNat) := by
      rw [← hbit]
      rfl
    rw [List.foldl_cons, List.map_cons, List.foldl_cons, hpass, hdouble,
      ih (Nat.xor_lt_two_pow (n := 8) (doubled_lt z hz) hfactor)]
    congr 3
    refine UInt8.toNat_inj.mp ?_
    cases y.toNat.testBit i <;> simp

theorem multiply (x y : UInt8) : (⟨reedSolomonMultiply x y⟩ : Galois) = ⟨x⟩ * ⟨y⟩ :=
  Galois.ext (foldl_multiplyPass x y _ (by decide))

def two : Galois := ⟨2⟩

theorem two_mul_eq_double (z : Galois) : two * z = double z := by
  rw [mul_comm, mul_eq]
  have hbits : bits two = [false, false, false, false, false, false, true, false] := by decide
  simp [hbits, PeasantProduct.times]

theorem two_pow (i : ℕ) : two ^ i = double^[i] 1 := by
  induction i with
  | zero => rfl
  | succ i ih => rw [pow_succ', ih, two_mul_eq_double, Function.iterate_succ_apply']

theorem two_pow_order : two ^ 255 = 1 := by
  have hround : double^[255] 1 = 1 := by decide +kernel
  rw [two_pow, hround]

theorem isUnit_two : IsUnit two := by
  refine IsUnit.of_mul_eq_one (two ^ 254) ?_
  rw [← pow_succ', two_pow_order]

theorem orderOf_two : orderOf two = 255 := by
  refine orderOf_eq_of_pow_and_pow_div_prime (by decide) two_pow_order fun p hp hdvd => ?_
  have hfactors : p = 3 ∨ p = 5 ∨ p = 17 := by
    have hmem := (Nat.mem_primeFactors_of_ne_zero (by decide)).mpr ⟨hp, hdvd⟩
    rw [show Nat.primeFactors 255 = {3, 5, 17} by decide +kernel] at hmem
    simpa using hmem
  have hthird : double^[255 / 3] 1 ≠ 1 := by decide +kernel
  have hfifth : double^[255 / 5] 1 ≠ 1 := by decide +kernel
  have hseventeenth : double^[255 / 17] 1 ≠ 1 := by decide +kernel
  rw [two_pow]
  rcases hfactors with rfl | rfl | rfl
  · exact hthird
  · exact hfifth
  · exact hseventeenth

theorem two_pow_injective {i j : ℕ} (hi : i < 255) (hj : j < 255) (h : two ^ i = two ^ j) :
    i = j :=
  pow_injOn_Iio_orderOf (orderOf_two.symm ▸ hi) (orderOf_two.symm ▸ hj) h

def numbered : Fin 256 ≃ Galois where
  toFun n := ⟨UInt8.ofNat n⟩
  invFun x := ⟨x.byte.toNat, x.byte.toNat_lt⟩
  left_inv n := Fin.ext (UInt8.toNat_ofNat_of_lt' n.isLt)
  right_inv _ := Galois.ext UInt8.ofNat_toNat

instance : Fintype Galois := Fintype.ofEquiv (Fin 256) numbered

theorem card_galois : Fintype.card Galois = 256 :=
  (Fintype.ofEquiv_card numbered).trans (Fintype.card_fin 256)

theorem exists_two_pow {x : Galois} (hx : x ≠ 0) : ∃ i, two ^ i = x := by
  have hsubset : (Finset.range 255).image (two ^ ·) ⊆ Finset.univ.erase 0 := by
    intro y hy
    obtain ⟨i, -, rfl⟩ := Finset.mem_image.mp hy
    exact Finset.mem_erase.mpr ⟨(isUnit_two.pow i).ne_zero, Finset.mem_univ _⟩
  have hcard : (Finset.univ.erase (0 : Galois)).card ≤
      ((Finset.range 255).image (two ^ ·)).card := by
    rw [Finset.card_erase_of_mem (Finset.mem_univ _), Finset.card_univ, card_galois,
      Finset.card_image_of_injOn fun i hi j hj h =>
        two_pow_injective (Finset.mem_range.mp hi) (Finset.mem_range.mp hj) h,
      Finset.card_range]
  have hmem : x ∈ (Finset.range 255).image (two ^ ·) := by
    rw [Finset.eq_of_subset_of_card_le hsubset hcard]
    exact Finset.mem_erase.mpr ⟨hx, Finset.mem_univ x⟩
  obtain ⟨i, -, hi⟩ := Finset.mem_image.mp hmem
  exact ⟨i, hi⟩

instance : NoZeroDivisors Galois where
  eq_zero_or_eq_zero_of_mul_eq_zero {x y} h := by
    by_contra! hne
    obtain ⟨i, rfl⟩ := exists_two_pow hne.1
    obtain ⟨j, rfl⟩ := exists_two_pow hne.2
    rw [← pow_add] at h
    exact (isUnit_two.pow (i + j)).ne_zero h

instance : IsDomain Galois := NoZeroDivisors.to_isDomain Galois

end Galois
end Ppm.QrCode

import Mathlib.Algebra.Group.Hom.Defs
import Mathlib.Data.List.Induction
import Mathlib.Tactic.Abel

/-! Multiplication bit by bit: the partial product is doubled, and one factor is added where the
other has a bit. Where every element is spelled by its bits over one of them, this is
commutative and associative. -/

namespace PeasantProduct
variable {A : Type} [AddCommMonoid A] (double : A →+ A)

def times (bits : List Bool) (x : A) : A :=
  -- the bits are those of the other factor, the highest first
  bits.foldl (fun z b => double z + if b then x else 0) 0

@[simp] theorem times_nil (x : A) : times double [] x = 0 := rfl

@[simp] theorem times_concat (bits : List Bool) (b : Bool) (x : A) :
    times double (bits ++ [b]) x = double (times double bits x) + if b then x else 0 := by
  simp [times]

theorem times_zero (bits : List Bool) : times double bits 0 = 0 := by
  induction bits using List.reverseRecOn with
  | nil => rfl
  | append_singleton bits b ih => simp [ih]

theorem times_add (bits : List Bool) (x y : A) :
    times double bits (x + y) = times double bits x + times double bits y := by
  induction bits using List.reverseRecOn with
  | nil => simp
  | append_singleton bits b ih =>
    rw [times_concat, times_concat, times_concat, ih, map_add]
    cases b with
    | false => simp
    | true =>
      simp only [if_true]
      abel

def timesHom (bits : List Bool) : A →+ A where
  toFun := times double bits
  map_zero' := times_zero double bits
  map_add' := times_add double bits

theorem map_times {f : A →+ A} (hf : ∀ z, f (double z) = double (f z)) (bits : List Bool) (x : A) :
    f (times double bits x) = times double bits (f x) := by
  induction bits using List.reverseRecOn with
  | nil => exact map_zero f
  | append_singleton bits b ih =>
    rw [times_concat, times_concat, map_add, hf, ih]
    cases b with
    | false => simp
    | true => rfl

theorem times_double (bits : List Bool) (x : A) :
    times double bits (double x) = double (times double bits x) :=
  (map_times double (fun _ => rfl) bits x).symm

theorem times_comm (bits bits' : List Bool) (x : A) :
    times double bits (times double bits' x) = times double bits' (times double bits x) :=
  map_times double (f := timesHom double bits) (times_double double bits) bits' x

section Product
variable (bits : A → List Bool) {one : A}

def product (x y : A) : A := times double (bits y) x

variable (hone : ∀ x, times double (bits x) one = x)
include hone

theorem product_comm (x y : A) : product double bits x y = product double bits y x :=
  calc times double (bits y) x
      = times double (bits y) (times double (bits x) one) := by rw [hone x]
    _ = times double (bits x) (times double (bits y) one) := times_comm double _ _ _
    _ = times double (bits x) y := by rw [hone y]

theorem product_assoc (x y z : A) :
    product double bits (product double bits x y) z =
      product double bits x (product double bits y z) := by
  rw [product_comm double bits hone x (product double bits y z)]
  calc times double (bits z) (times double (bits y) x)
      = times double (bits z) (product double bits y x) := by
        rw [product_comm double bits hone y x, product]
    _ = times double (bits z) (times double (bits x) y) := rfl
    _ = times double (bits x) (times double (bits z) y) := times_comm double _ _ _

theorem product_add (x y z : A) :
    product double bits x (y + z) = product double bits x y + product double bits x z := by
  rw [product_comm double bits hone x (y + z), product_comm double bits hone x y,
    product_comm double bits hone x z]
  exact times_add double _ y z

theorem product_zero (x : A) : product double bits x 0 = 0 := by
  rw [product_comm double bits hone]
  exact times_zero double _

theorem product_one (x : A) : product double bits x one = x := by
  rw [product_comm double bits hone]
  exact hone x

end Product
end PeasantProduct

import Mathlib.Algebra.CharP.Two
import Mathlib.Data.List.Induction
import Mathlib.LinearAlgebra.Vandermonde
import Mathlib.Tactic.LinearCombination

/-! Reed–Solomon codes over a domain of characteristic two: the remainder of a message, computed
coefficient by coefficient, and how far apart the codewords are. -/

namespace ReedSolomon

section Polynomials
variable {R : Type} [CommRing R]

def eval (l : List R) (x : R) : R :=
  -- a polynomial by its coefficients, the highest first
  l.foldl (fun acc c => acc * x + c) 0

theorem foldl_eval (l : List R) (acc x : R) :
    l.foldl (fun acc c => acc * x + c) acc = acc * x ^ l.length + eval l x := by
  induction l generalizing acc with
  | nil => simp [eval]
  | cons c l ih =>
    rw [eval, List.foldl_cons, List.foldl_cons, ih, ih, List.length_cons, pow_succ]
    ring

@[simp] theorem eval_nil (x : R) : eval [] x = 0 := rfl

theorem eval_cons (c : R) (l : List R) (x : R) :
    eval (c :: l) x = c * x ^ l.length + eval l x := by
  rw [eval, List.foldl_cons, foldl_eval, zero_mul, zero_add]

theorem eval_append (l m : List R) (x : R) :
    eval (l ++ m) x = eval l x * x ^ m.length + eval m x := by
  rw [eval, List.foldl_append, foldl_eval]
  rfl

theorem eval_concat (l : List R) (c x : R) : eval (l ++ [c]) x = eval l x * x + c := by
  rw [eval_append, eval_cons]
  simp

theorem eval_zeros (n : ℕ) (x : R) : eval (List.replicate n 0) x = 0 := by
  induction n with
  | zero => rfl
  | succ n ih => rw [List.replicate_succ, eval_cons, ih, zero_mul, zero_add]

theorem eval_zipWith {l m : List R} (h : l.length = m.length) (factor x : R) :
    eval (List.zipWith (fun s d => s + d * factor) l m) x = eval l x + eval m x * factor := by
  induction l, m using List.zipWith.induct with
  | case1 c l d m ih =>
    have hlength : l.length = m.length := Nat.succ.inj h
    rw [List.zipWith_cons_cons, eval_cons, eval_cons, eval_cons, ih hlength, List.length_zipWith,
      hlength, Nat.min_self]
    ring
  | case2 l m hne =>
    rcases l with _ | ⟨c, l⟩
    · obtain rfl : m = [] := List.length_eq_zero_iff.mp h.symm
      simp
    · rcases m with _ | ⟨d, m⟩
      · simp at h
      · exact absurd rfl (hne c l d m rfl)

def remainderStep (divisor state : List R) (b : R) : List R :=
  -- one step of the division: the state is the remainder so far, without the leading term of the
  -- divisor
  List.zipWith (fun s d => s + d * (b + state.headD 0)) (state.tail ++ [0]) divisor

def remainder (divisor data : List R) : List R :=
  data.foldl (remainderStep divisor) (List.replicate divisor.length 0)

theorem length_remainderStep {divisor state : List R} (hpos : 0 < divisor.length)
    (h : state.length = divisor.length) (b : R) :
    (remainderStep divisor state b).length = divisor.length := by
  rw [remainderStep, List.length_zipWith, List.length_append, List.length_tail, h,
    List.length_singleton, Nat.sub_add_cancel hpos, Nat.min_self]

theorem remainder_concat (divisor data : List R) (b : R) :
    remainder divisor (data ++ [b]) = remainderStep divisor (remainder divisor data) b :=
  List.foldl_concat ..

theorem length_remainder {divisor : List R} (hpos : 0 < divisor.length) (data : List R) :
    (remainder divisor data).length = divisor.length := by
  induction data using List.reverseRecOn with
  | nil => simp [remainder]
  | append_singleton data b ih =>
    rw [remainder_concat]
    exact length_remainderStep hpos ih b

def timesRoot (root : R) : List R → List R
  | [] => []
  | [c] => [c * root]
  | c :: d :: rest => (c * root + d) :: timesRoot root (d :: rest)

@[simp] theorem length_timesRoot (root : R) (l : List R) :
    (timesRoot root l).length = l.length := by
  induction l using timesRoot.induct with
  | case1 | case2 => rfl
  | case3 c d rest ih => rw [timesRoot, List.length_cons, ih]; rfl

theorem eval_timesRoot (root c : R) (l : List R) (x : R) :
    c * x ^ (l.length + 1) + eval (timesRoot root (c :: l)) x =
      eval (c :: l) x * (x + root) := by
  induction l generalizing c with
  | nil =>
    simp only [timesRoot, eval_cons, eval_nil, List.length_nil]
    ring
  | cons d rest ih =>
    have hrest := ih d
    rw [timesRoot, eval_cons, length_timesRoot, eval_cons c]
    simp only [List.length_cons] at hrest ⊢
    linear_combination hrest

theorem timesRoot_zero (root c : R) (rest : List R) :
    timesRoot root (0 :: c :: rest) = c :: timesRoot root (c :: rest) := by
  rw [timesRoot, zero_mul, zero_add]

def rooted (generator : R) : ℕ → List R
  | 0 => [1]
  | i + 1 => 1 :: timesRoot (generator ^ i) (rooted generator i)

theorem rooted_eq (generator : R) (i : ℕ) :
    ∃ low, rooted generator i = 1 :: low ∧ low.length = i := by
  induction i with
  | zero => exact ⟨[], rfl, rfl⟩
  | succ i ih =>
    obtain ⟨low, hlow, hlength⟩ := ih
    exact ⟨_, rfl, by rw [hlow, length_timesRoot, List.length_cons, hlength]⟩

theorem eval_rooted_succ (generator : R) (i : ℕ) (x : R) :
    eval (rooted generator (i + 1)) x = eval (rooted generator i) x * (x + generator ^ i) := by
  obtain ⟨low, hlow, hlength⟩ := rooted_eq generator i
  have hstep := eval_timesRoot (generator ^ i) 1 low x
  rw [rooted, hlow, eval_cons, length_timesRoot, List.length_cons, hstep]

def divisor (generator : R) (degree : ℕ) : List R :=
  -- the product without its leading term, computed in place: a shift register in which the
  -- polynomial grows from the end
  ((List.range degree).foldl (fun (s : List R × R) _ => (timesRoot s.2 s.1, s.2 * generator))
    (List.replicate (degree - 1) 0 ++ [1], 1)).1

theorem timesRoot_zeros (root : R) (k : ℕ) (low : List R) :
    timesRoot root (List.replicate (k + 1) 0 ++ 1 :: low) =
      List.replicate k 0 ++ 1 :: timesRoot root (1 :: low) := by
  induction k with
  | zero => exact timesRoot_zero root 1 low
  | succ k ih =>
    have hzero : List.replicate (k + 2) (0 : R) ++ 1 :: low =
        0 :: 0 :: (List.replicate k 0 ++ 1 :: low) := rfl
    rw [hzero, timesRoot_zero]
    exact congrArg (0 :: ·) ih

theorem divisor_loop (generator : R) (k i : ℕ) :
    (List.range i).foldl (fun (s : List R × R) _ => (timesRoot s.2 s.1, s.2 * generator))
        (List.replicate (k + i) 0 ++ [1], 1) =
      (List.replicate k 0 ++ rooted generator i, generator ^ i) := by
  induction i generalizing k with
  | zero => simp [rooted]
  | succ i ih =>
    have hmore := ih (k + 1)
    rw [Nat.add_right_comm, Nat.add_assoc] at hmore
    rw [List.range_succ, List.foldl_concat, hmore, pow_succ]
    obtain ⟨low, hlow, -⟩ := rooted_eq generator i
    dsimp only
    rw [hlow, timesRoot_zeros, rooted, hlow]

theorem divisor_eq (generator : R) (n : ℕ) :
    divisor generator (n + 1) = timesRoot (generator ^ n) (rooted generator n) := by
  have hloop := divisor_loop generator 0 n
  rw [Nat.zero_add, List.replicate_zero, List.nil_append] at hloop
  rw [divisor, List.range_succ, List.foldl_concat, Nat.add_sub_cancel, hloop]

theorem length_divisor (generator : R) {n : ℕ} (hpos : 0 < n) :
    (divisor generator n).length = n := by
  obtain ⟨n, rfl⟩ := Nat.exists_eq_succ_of_ne_zero hpos.ne'
  obtain ⟨low, hlow, hlength⟩ := rooted_eq generator n
  rw [divisor_eq, length_timesRoot, hlow, List.length_cons, hlength]

theorem eval_divisor (generator : R) {n : ℕ} (hpos : 0 < n) (x : R) :
    x ^ n + eval (divisor generator n) x = eval (rooted generator n) x := by
  obtain ⟨n, rfl⟩ := Nat.exists_eq_succ_of_ne_zero hpos.ne'
  have hlength := length_divisor generator hpos
  rw [divisor_eq] at hlength ⊢
  rw [rooted, eval_cons, hlength, one_mul]

section Two
variable [CharP R 2] {generator x : R} {n : ℕ}

theorem eval_rooted_root {i : ℕ} (hi : i < n) :
    eval (rooted generator n) (generator ^ i) = 0 := by
  induction n with
  | zero => exact absurd hi (Nat.not_lt_zero i)
  | succ n ih =>
    rw [eval_rooted_succ]
    rcases Nat.lt_succ_iff_lt_or_eq.mp hi with hlt | rfl
    · rw [ih hlt, zero_mul]
    · rw [CharTwo.add_self_eq_zero, mul_zero]

theorem eval_divisor_root (hpos : 0 < n) {i : ℕ} (hi : i < n) :
    eval (divisor generator n) (generator ^ i) = (generator ^ i) ^ n := by
  have hall := eval_divisor generator hpos (generator ^ i)
  rw [eval_rooted_root hi] at hall
  exact (CharTwo.add_eq_zero.mp hall).symm

omit [CharP R 2] in
theorem eval_remainderStep {divisor state : List R} (hpos : 0 < divisor.length)
    (h : state.length = divisor.length) (hroot : eval divisor x = x ^ divisor.length) (b : R) :
    eval (remainderStep divisor state b) x = eval state x * x + b * x ^ divisor.length := by
  obtain ⟨top, rest, rfl⟩ := List.exists_cons_of_length_pos (h ▸ hpos)
  have hlength : (rest ++ [0]).length = divisor.length := by
    rw [← h, List.length_append]
    rfl
  rw [remainderStep, List.tail_cons, List.headD_cons, eval_zipWith hlength, eval_concat, hroot,
    eval_cons, ← h, List.length_cons, pow_succ]
  ring

omit [CharP R 2] in
theorem eval_remainder {divisor : List R} (hpos : 0 < divisor.length)
    (hroot : eval divisor x = x ^ divisor.length) (data : List R) :
    eval (remainder divisor data) x = eval data x * x ^ divisor.length := by
  induction data using List.reverseRecOn with
  | nil => rw [remainder, List.foldl_nil, eval_zeros, eval_nil, zero_mul]
  | append_singleton data b ih =>
    rw [remainder_concat, eval_remainderStep hpos (length_remainder hpos data) hroot, ih,
      eval_concat]
    ring

def codeword (divisor data : List R) : List R := data ++ remainder divisor data

theorem eval_codeword {i : ℕ} (hi : i < n) (data : List R) :
    eval (codeword (divisor generator n) data) (generator ^ i) = 0 := by
  have hpos : 0 < n := Nat.zero_lt_of_lt hi
  have hlength := length_divisor generator hpos
  have hroot : eval (divisor generator n) (generator ^ i) =
      (generator ^ i) ^ (divisor generator n).length := by
    rw [hlength]
    exact eval_divisor_root hpos hi
  rw [← hlength] at hpos
  rw [codeword, eval_append, length_remainder hpos, eval_remainder hpos hroot,
    CharTwo.add_self_eq_zero]

end Two
end Polynomials

section Distance
variable {α : Type} [DecidableEq α]

def distance (l m : List α) : ℕ := (List.zip l m).countP fun p => p.1 ≠ p.2

@[simp] theorem distance_cons (a b : α) (l m : List α) :
    distance (a :: l) (b :: m) = distance l m + if a = b then 0 else 1 := by
  simp [distance, List.countP_cons]

theorem distance_comm (l m : List α) : distance l m = distance m l := by
  rw [distance, distance, ← List.zip_swap, List.countP_map]
  refine List.countP_congr fun p _ => ?_
  simp [ne_comm]

theorem distance_self (l : List α) : distance l l = 0 := by
  induction l with
  | nil => rfl
  | cons a l ih => simp [ih]

theorem distance_triangle {l m n : List α} (hlm : l.length = m.length)
    (hmn : m.length = n.length) : distance l n ≤ distance l m + distance m n := by
  induction l generalizing m n with
  | nil => simp [distance]
  | cons a l ih =>
    obtain ⟨b, m, rfl⟩ := List.exists_cons_of_length_eq_add_one hlm.symm
    obtain ⟨c, n, rfl⟩ := List.exists_cons_of_length_eq_add_one hmn.symm
    have hrest := ih (Nat.succ.inj hlm) (Nat.succ.inj hmn)
    rw [distance_cons, distance_cons, distance_cons]
    by_cases hab : a = b
    · subst hab
      simp only [if_true]
      omega
    · rw [if_neg hab]
      split_ifs <;> omega

theorem distance_ofFn {n : ℕ} (f g : Fin n → α) :
    distance (List.ofFn f) (List.ofFn g) = (Finset.univ.filter fun i => f i ≠ g i).card := by
  induction n with
  | zero => rfl
  | succ n ih =>
    rw [List.ofFn_succ, List.ofFn_succ, distance_cons, ih, Fin.univ_succ, Finset.filter_cons]
    have hrest : ((Finset.univ.map ⟨Fin.succ, Fin.succ_injective n⟩).filter
        fun i => f i ≠ g i).card =
          (Finset.univ.filter fun i : Fin n => f i.succ ≠ g i.succ).card := by
      rw [Finset.filter_map, Finset.card_map]
      rfl
    by_cases h : f 0 = g 0
    · simp [h, hrest]
    · simp [h, hrest]

end Distance

section Codewords
variable {R : Type} [CommRing R] {generator : R} {n d : ℕ}

theorem eval_ofFn {n : ℕ} (f : Fin n → R) (x : R) :
    eval (List.ofFn f) x = ∑ i, f i * x ^ (n - 1 - i : ℕ) := by
  induction n with
  | zero => rfl
  | succ n ih =>
    rw [List.ofFn_succ, eval_cons, ih, Fin.sum_univ_succ, List.length_ofFn]
    congr 1
    refine Finset.sum_congr rfl fun i _ => ?_
    rw [Fin.val_succ]
    congr 2
    omega

variable [IsDomain R] [DecidableEq R]

theorem eq_zero_of_few (hpowers : ∀ i < n, ∀ j < n, generator ^ i = generator ^ j → i = j)
    {c : Fin n → R} (hroots : ∀ i < d, ∑ p, c p * (generator ^ i) ^ (n - 1 - p : ℕ) = 0)
    (hfew : (Finset.univ.filter fun p => c p ≠ 0).card ≤ d) : c = 0 := by
  let support := Finset.univ.filter fun p => c p ≠ 0
  let place : Fin support.card ≃ support := support.equivFin.symm
  -- the places of the terms are the nodes of a Vandermonde system
  have hinjective : Function.Injective fun j => generator ^ (n - 1 - (place j).1 : ℕ) := by
    intro j k hjk
    have hj := (place j).1.isLt
    have hk := (place k).1.isLt
    have hsame := hpowers _ (by omega) _ (by omega) hjk
    exact place.injective (Subtype.ext (Fin.ext (by omega)))
  have hsystem : ∀ i : Fin support.card, ∑ j, c (place j).1 *
      (generator ^ (n - 1 - (place j).1 : ℕ)) ^ (i : ℕ) = 0 := by
    intro i
    have hsum : ∑ p : support, c p * (generator ^ (i : ℕ)) ^ (n - 1 - p.1 : ℕ) = 0 := by
      rw [Finset.sum_coe_sort support fun p => c p * (generator ^ (i : ℕ)) ^ (n - 1 - p : ℕ)]
      refine Eq.trans ?_ (hroots i (i.isLt.trans_le hfew))
      exact Finset.sum_filter_of_ne fun p _ hne => left_ne_zero_of_mul hne
    rw [← place.sum_comp] at hsum
    refine (Finset.sum_congr rfl fun j _ => ?_).trans hsum
    rw [← pow_mul, ← pow_mul, Nat.mul_comm]
  have hzero := Matrix.eq_zero_of_forall_pow_sum_mul_pow_eq_zero hinjective hsystem
  funext p
  by_contra hne
  have hmem : p ∈ support := Finset.mem_filter.mpr ⟨Finset.mem_univ p, hne⟩
  have hterm := congrFun hzero (place.symm ⟨p, hmem⟩)
  rw [Equiv.apply_symm_apply] at hterm
  exact hne hterm

theorem eq_of_close (hpowers : ∀ i < n, ∀ j < n, generator ^ i = generator ^ j → i = j)
    {l m : List R} (hl : l.length = n) (hm : m.length = n)
    (hlroots : ∀ i < d, eval l (generator ^ i) = 0)
    (hmroots : ∀ i < d, eval m (generator ^ i) = 0) (hclose : distance l m ≤ d) : l = m := by
  obtain ⟨f, rfl⟩ : ∃ f : Fin n → R, l = List.ofFn f :=
    ⟨fun i => l.get (i.cast hl.symm), by subst hl; simp⟩
  obtain ⟨g, rfl⟩ : ∃ g : Fin n → R, m = List.ofFn g :=
    ⟨fun i => m.get (i.cast hm.symm), by subst hm; simp⟩
  simp only [eval_ofFn] at hlroots hmroots
  rw [distance_ofFn] at hclose
  have hdifference : (fun i => f i - g i) = 0 := by
    refine eq_zero_of_few (d := d) hpowers (fun i hi => ?_) ?_
    · simp only [sub_mul, Finset.sum_sub_distrib, hlroots i hi, hmroots i hi, sub_zero]
    · simpa only [sub_ne_zero] using hclose
  congr 1
  funext i
  exact sub_eq_zero.mp (congrFun hdifference i)

variable [CharP R 2]

theorem message_unique (hpowers : ∀ i < n, ∀ j < n, generator ^ i = generator ^ j → i = j)
    {data data' received : List R} (hpos : 0 < d) (hdata : data.length + d = n)
    (hdata' : data'.length + d = n) (hreceived : received.length = n)
    (hnear : 2 * distance (codeword (divisor generator d) data) received ≤ d)
    (hnear' : 2 * distance (codeword (divisor generator d) data') received ≤ d) : data = data' := by
  have hlength : ∀ data : List R, data.length + d = n →
      (codeword (divisor generator d) data).length = n := by
    intro data h
    rw [codeword, List.length_append, length_remainder (by rw [length_divisor _ hpos]; exact hpos),
      length_divisor _ hpos, h]
  have htriangle := distance_triangle ((hlength data hdata).trans hreceived.symm)
    (hreceived.trans (hlength data' hdata').symm)
  rw [distance_comm received] at htriangle
  have hsame := eq_of_close hpowers (hlength data hdata) (hlength data' hdata')
    (fun i hi => eval_codeword hi data) (fun i hi => eval_codeword hi data') (by omega)
  exact (List.append_inj hsame (by omega)).1

end Codewords
end ReedSolomon

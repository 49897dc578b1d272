import Mathlib.Algebra.Group.Nat.Defs
import Mathlib.Data.List.Chain
import Mathlib.Data.List.DropRight
import Mathlib.Data.List.TakeWhile
import PhonePostMix.Library.Runs

/-! Counters of 32 bits that wrap: a clock beside the time it counts, and the numbers a receiver tells
from how much is missing of what arrives. -/

namespace WrappingClock

def after (start : UInt32) (elapsed : ℕ) : UInt32 :=
  -- what the counter shows when `elapsed` has passed since it showed `start`
  start + UInt32.ofNat elapsed

variable {start timeout : UInt32} {elapsed elapsed' : ℕ}

theorem toNat_after (start : UInt32) (elapsed : ℕ) :
    (after start elapsed).toNat = (start.toNat + elapsed) % 2 ^ 32 := by
  rw [after, UInt32.toNat_add, UInt32.toNat_ofNat']
  omega

theorem toNat_after_sub_after (start : UInt32) (hle : elapsed ≤ elapsed')
    (hlt : elapsed' < elapsed + 2 ^ 32) :
    (after start elapsed' - after start elapsed).toNat = elapsed' - elapsed := by
  rw [UInt32.toNat_sub, toNat_after, toNat_after]
  omega

theorem timeout_le_of_passed
    (h : start.toNat + timeout.toNat < 2 ^ 32 ∨ 2 ^ 32 ≤ start.toNat + elapsed)
    (hpassed : start + timeout < after start elapsed) : timeout.toNat ≤ elapsed := by
  rw [UInt32.lt_iff_toNat_lt, toNat_after, UInt32.toNat_add] at hpassed
  have hstart := start.toNat_lt
  have htimeout := timeout.toNat_lt
  omega

theorem passed_of_wrapped (hwrapped : 2 ^ 32 ≤ start.toNat + timeout.toNat)
    (h : start.toNat + elapsed < 2 ^ 32) : start + timeout < after start elapsed := by
  rw [UInt32.lt_iff_toNat_lt, toNat_after, UInt32.toNat_add]
  have hstart := start.toNat_lt
  have htimeout := timeout.toNat_lt
  omega

end WrappingClock

namespace GapCounter

section Window
variable {ι : Type*} {missing : ι → Bool} {l : List ι}

def window (missing : ι → Bool) (l : List ι) : List ι :=
  -- from the first entry that is not missing to the last one
  (l.dropWhile missing).rdropWhile missing

@[simp] theorem window_nil : window missing ([] : List ι) = [] := rfl

theorem window_within : window missing l <:+: l :=
  (List.rdropWhile_prefix _ _).isInfix.trans (List.dropWhile_suffix _).isInfix

theorem window_eq_nil (h : ∀ x ∈ l, missing x = true) : window missing l = [] := by
  rw [window, List.dropWhile_eq_nil_iff.mpr h]
  rfl

theorem window_concat_missing {x : ι} (hx : missing x = true) :
    window missing (l ++ [x]) = window missing l := by
  unfold window
  rw [List.dropWhile_append]
  split_ifs with hnone
  · have hempty : l.dropWhile missing = [] := List.isEmpty_iff.mp hnone
    rw [hempty, List.dropWhile_cons_of_pos hx]
    rfl
  · rw [List.rdropWhile_concat_pos _ _ _ hx]

theorem window_append_missing {r : List ι} (hr : ∀ x ∈ r, missing x = true) :
    window missing (l ++ r) = window missing l := by
  induction r using List.reverseRecOn with
  | nil => rw [List.append_nil]
  | append_singleton r x ih =>
    rw [← List.append_assoc, window_concat_missing (hr x (by simp)),
      ih fun y hy => hr y (List.mem_append_left _ hy)]

theorem not_mem_of_window [DecidableEq ι] {first later : List ι}
    (hkept : (first ++ later).Sublist l) (hl : l.Nodup) {x : ι}
    (hx : x ∈ window (fun y => decide (y ∉ first)) l) : x ∉ later := by
  obtain ⟨l₁, l₂, rfl, hfirst, hlater⟩ := List.append_sublist_iff.mp hkept
  have hdisjoint := (List.nodup_append.mp hl).2.2
  have hmissing : ∀ y ∈ l₂, decide (y ∉ first) = true := fun y hy =>
    decide_eq_true fun hmem => hdisjoint y (hfirst.subset hmem) y hy rfl
  rw [window_append_missing hmissing] at hx
  exact fun hmem => hdisjoint x (window_within.subset hx) x (hlater.subset hmem) rfl

theorem window_split {y : ι} (hy : y ∈ l) (harrived : missing y = false) :
    ∃ before w last after, l = before ++ (w ++ [last]) ++ after ∧
      l.dropWhile missing = w ++ [last] ++ after ∧ window missing l = w ++ [last] ∧
      missing last = false ∧ ∀ x ∈ after, missing x = true := by
  have hne : window missing l ≠ [] := by
    rw [window, Ne, List.rdropWhile_eq_nil_iff]
    intro hall
    have hhead : l.dropWhile missing ≠ [] := by
      rw [Ne, List.dropWhile_eq_nil_iff]
      intro hmissing
      rw [hmissing y hy] at harrived
      cases harrived
    have hfirst := List.head_dropWhile_not missing hhead
    rw [hall _ (List.head_mem hhead)] at hfirst
    cases hfirst
  have hlast := List.rdropWhile_last_not missing (l.dropWhile missing) hne
  refine ⟨l.takeWhile missing, (window missing l).dropLast, (window missing l).getLast hne,
    (l.dropWhile missing).rtakeWhile missing, ?_, ?_, ?_, ?_, ?_⟩
  · rw [List.dropLast_append_getLast, List.append_assoc, window,
      List.rdropWhile_append_rtakeWhile, List.takeWhile_append_dropWhile]
  · rw [List.dropLast_append_getLast, window, List.rdropWhile_append_rtakeWhile]
  · rw [List.dropLast_append_getLast]
  · exact Bool.eq_false_iff.mpr hlast
  · exact fun x hx => List.mem_rtakeWhile_imp hx

theorem window_concat_arrived {w after : List ι} {x : ι}
    (hdrop : l.dropWhile missing = w ++ after) (hw : w ≠ []) (hx : missing x = false) :
    window missing (l ++ [x]) = w ++ after ++ [x] := by
  have hsome : ¬ (l.dropWhile missing).isEmpty = true := by
    rw [List.isEmpty_iff, hdrop]
    exact List.append_ne_nil_of_left_ne_nil hw after
  rw [window, List.dropWhile_append, if_neg hsome, List.rdropWhile_concat_neg, hdrop]
  rw [hx]
  exact Bool.false_ne_true

theorem window_first {x : ι} (hl : ∀ y ∈ l, missing y = true) (hx : missing x = false) :
    window missing (l ++ [x]) = [x] := by
  have hx' : ¬ missing x = true := by simp [hx]
  rw [window, List.dropWhile_append_of_pos hl, List.dropWhile_cons_of_neg hx',
    List.rdropWhile_singleton, if_neg hx']

end Window

def Consecutive {ι : Type*} (modulus : ℕ) (num : ι → ℕ) (l : List ι) : Prop :=
  l.IsChain fun x y => num y = (num x + 1) % modulus

theorem Consecutive.after {ι : Type*} {modulus : ℕ} {num : ι → ℕ} {x y : ι} {gap : List ι}
    (h : Consecutive modulus num (x :: gap ++ [y])) :
    num y = (num x + gap.length + 1) % modulus := by
  induction gap generalizing x with
  | nil =>
    obtain ⟨hnext, -⟩ := List.isChain_cons_cons.mp h
    exact hnext
  | cons z gap ih =>
    obtain ⟨hz, hrest⟩ := List.isChain_cons_cons.mp h
    rw [ih hrest, hz, List.length_cons, Nat.add_assoc, Nat.mod_add_mod]
    congr 1
    omega

end GapCounter

structure Tally where
  last : Option ℕ := none
  lost : ℕ := 0
  reordered : ℕ := 0
  deriving DecidableEq, Repr

/-- A machine that takes a number with some of its events. It recognises gaps below `limit`. -/
structure GapCounter (σ ε : Type*) (modulus limit : ℕ) where
  step : σ → ε → σ
  number : ε → Option ℕ
  tally : σ → Tally
  quiet (s : σ) (e : ε) (hnumber : number e = none) : tally (step s e) = tally s
  first (s : σ) (e : ε) {n : ℕ} (hnumber : number e = some n) (hlast : (tally s).last = none) :
    tally (step s e) = { tally s with last := some n }
  later (s : σ) (e : ε) {m gap : ℕ} (hnumber : number e = some ((m + gap + 1) % modulus))
    (hlast : (tally s).last = some m) (hgap : gap < limit) :
    tally (step s e) =
      { tally s with last := some ((m + gap + 1) % modulus), lost := (tally s).lost + gap }

namespace GapCounter
variable {σ ε ι : Type*} {modulus limit : ℕ} (C : GapCounter σ ε modulus limit)

theorem tally_quiet (s : σ) {es : List ε} (h : es.filterMap C.number = []) :
    C.tally (Runs.run C.step s es) = C.tally s := by
  refine Runs.invariant_along (I := fun t => C.tally t = C.tally s)
    (C := fun _ e => C.number e = none) ?_ rfl ?_
  · exact fun t e ht he => (C.quiet t e he).trans ht
  · exact Runs.along_of_forall_mem s fun e he => List.filterMap_eq_nil_iff.mp h e he

theorem run_numbered (s : σ) {es : List ε} {ns : List ℕ} {n : ℕ}
    (h : es.filterMap C.number = ns ++ [n]) :
    ∃ before e, before.filterMap C.number = ns ∧ C.number e = some n ∧
      C.tally (Runs.run C.step s es) = C.tally (C.step (Runs.run C.step s before) e) := by
  obtain ⟨before, after, rfl, hbefore, hafter⟩ := List.filterMap_eq_append_iff.mp h
  obtain ⟨quiet, e, rest, rfl, hquiet, hnumber, hrest⟩ := List.filterMap_eq_cons_iff.mp hafter
  refine ⟨before ++ quiet, e, ?_, hnumber, ?_⟩
  · rw [List.filterMap_append, hbefore, List.filterMap_eq_nil_iff.mpr hquiet, List.append_nil]
  · rw [← List.append_assoc, Runs.run_append, Runs.run_cons, C.tally_quiet _ hrest]

/-- After any run the counter has the number of the last arrival and counts what is missing
between the first arrival and that one, whatever else the run does. -/
theorem tally_run {num : ι → ℕ} {missing : ι → Bool} {l : List ι}
    (hl : Consecutive modulus num l)
    (hgaps : ∀ gap, gap <:+: window missing l → (∀ x ∈ gap, missing x = true) →
      gap.length < limit)
    {s : σ} (hfresh : (C.tally s).last = none) {es : List ε}
    (hes : es.filterMap C.number = (l.filter fun x => !missing x).map num) :
    C.tally (Runs.run C.step s es) =
      { C.tally s with
        last := (window missing l).getLast?.map num
        lost := (C.tally s).lost + (window missing l).countP missing } := by
  induction l using List.reverseRecOn generalizing es with
  | nil =>
    rw [C.tally_quiet s hes]
    simp [← hfresh]
  | append_singleton l x ih =>
    have hl' : Consecutive modulus num l := hl.left_of_append
    cases hx : missing x with
    | true =>
      rw [window_concat_missing hx] at hgaps ⊢
      refine ih hl' hgaps ?_
      simpa [hx] using hes
    | false =>
      have hes' : es.filterMap C.number = (l.filter fun x => !missing x).map num ++ [num x] := by
        simpa [hx] using hes
      obtain ⟨before, e, hbefore, hnumber, hrun⟩ := C.run_numbered s hes'
      rw [hrun]
      by_cases hnone : ∀ y ∈ l, missing y = true
      · have hprevious := ih hl' (fun gap hgap => hgaps gap (by
          rw [window_eq_nil hnone] at hgap
          exact hgap.trans List.nil_infix)) hbefore
        rw [window_eq_nil hnone] at hprevious
        rw [C.first _ e hnumber (by rw [hprevious]; rfl), hprevious, window_first hnone hx]
        simp [hx]
      · obtain ⟨y, hy, harrived⟩ : ∃ y ∈ l, missing y = false := by simpa using hnone
        obtain ⟨start, w, last, gap, hsplit, hdrop, hwindow, hlast, hgap⟩ :=
          window_split hy harrived
        have hgrown := window_concat_arrived hdrop (by simp) hx
        rw [hgrown] at hgaps ⊢
        have hprevious := ih hl' (fun g hg => hgaps g (by
          rw [hwindow] at hg
          exact hg.trans ⟨[], gap ++ [x], by simp⟩)) hbefore
        have hchain : Consecutive modulus num (last :: gap ++ [x]) := by
          have hinfix : last :: gap ++ [x] <:+: l ++ [x] := ⟨start ++ w, [], by simp [hsplit]⟩
          exact hl.infix hinfix
        have hshort : gap.length < limit := hgaps gap ⟨w ++ [last], [x], by simp⟩ hgap
        rw [hchain.after] at hnumber
        have hstep := C.later (Runs.run C.step s before) e hnumber
          (by rw [hprevious, hwindow]; simp) hshort
        rw [hstep, hprevious, hwindow, ← hchain.after]
        have hcount : (w ++ [last] ++ gap ++ [x]).countP missing =
            (w ++ [last]).countP missing + gap.length := by
          rw [List.countP_append, List.countP_append, List.countP_eq_length.mpr hgap]
          simp [hx]
        simp only [List.getLast?_concat, Option.map_some, hcount, Nat.add_assoc]

end GapCounter

import Mathlib.Data.List.Count
import Mathlib.Data.List.Infix

/-! Runs of a machine that takes one event at a time, and the induction over them. -/

namespace Runs
variable {σ ε : Type*}

def run (step : σ → ε → σ) (s : σ) (es : List ε) : σ := es.foldl step s

def Along (step : σ → ε → σ) (C : σ → ε → Prop) : σ → List ε → Prop
  -- every event of a run meets a condition in the state that takes it
  | _, [] => True
  | s, e :: es => C s e ∧ Along step C (step s e) es

instance decidableAlong (step : σ → ε → σ) (C : σ → ε → Prop) [∀ s e, Decidable (C s e)] :
    (s : σ) → (es : List ε) → Decidable (Along step C s es)
  | _, [] => isTrue trivial
  | s, e :: es =>
    have := decidableAlong step C (step s e) es
    inferInstanceAs (Decidable (C s e ∧ Along step C (step s e) es))

variable {step : σ → ε → σ} {C D : σ → ε → Prop} {I : σ → Prop}

@[simp] theorem run_nil (s : σ) : run step s [] = s := rfl

@[simp] theorem run_cons (s : σ) (e : ε) (es : List ε) :
    run step s (e :: es) = run step (step s e) es := rfl

theorem run_append (s : σ) (es fs : List ε) :
    run step s (es ++ fs) = run step (run step s es) fs := List.foldl_append

theorem along_append (s : σ) (es fs : List ε) :
    Along step C s (es ++ fs) ↔ Along step C s es ∧ Along step C (run step s es) fs := by
  induction es generalizing s with
  | nil => simp [Along]
  | cons e es ih => simp only [List.cons_append, Along, ih, run_cons, and_assoc]

theorem invariant_along (hstep : ∀ s e, I s → C s e → I (step s e)) {s : σ} (hs : I s)
    {es : List ε} (h : Along step C s es) : I (run step s es) := by
  induction es generalizing s with
  | nil => exact hs
  | cons e es ih => exact ih (hstep s e hs h.1) h.2

theorem along_of_invariant (hstep : ∀ s e, I s → C s e → I (step s e) ∧ D s e) {s : σ} (hs : I s)
    {es : List ε} (h : Along step C s es) : Along step D s es := by
  induction es generalizing s with
  | nil => trivial
  | cons e es ih =>
    obtain ⟨hnext, hd⟩ := hstep s e hs h.1
    exact ⟨hd, ih hnext h.2⟩

theorem along_congr (hstep : ∀ s e, I s → I (step s e)) (hsame : ∀ s e, I s → (C s e ↔ D s e))
    {s : σ} (hs : I s) (es : List ε) : Along step C s es ↔ Along step D s es := by
  induction es generalizing s with
  | nil => exact Iff.rfl
  | cons e es ih => exact and_congr (hsame s e hs) (ih (hstep s e hs))

theorem along_of_forall_mem {P : ε → Prop} (s : σ) {es : List ε} (h : ∀ e ∈ es, P e) :
    Along step (fun _ e => P e) s es := by
  induction es generalizing s with
  | nil => trivial
  | cons e es ih =>
    exact ⟨h e List.mem_cons_self, ih _ fun e' he => h e' (List.mem_cons_of_mem _ he)⟩

theorem Along.and {s : σ} {es : List ε} (hC : Along step C s es) (hD : Along step D s es) :
    Along step (fun s e => C s e ∧ D s e) s es := by
  induction es generalizing s with
  | nil => trivial
  | cons e es ih => exact ⟨⟨hC.1, hD.1⟩, ih hC.2 hD.2⟩

theorem invariant (hstep : ∀ s e, I s → I (step s e)) {s : σ} (hs : I s) (es : List ε) :
    I (run step s es) := by
  induction es generalizing s with
  | nil => exact hs
  | cons e es ih => exact ih (hstep s e hs)

theorem measure_run (step : σ → ε → σ) (counts : ε → Bool) {A : ε → Prop} {m : σ → ℕ}
    (hstep : ∀ s e, I s → A e → I (step s e) ∧ m (step s e) ≤ m s - (counts e).toNat)
    {s : σ} (hs : I s) {es : List ε} (hes : ∀ e ∈ es, A e) :
    I (run step s es) ∧ m (run step s es) ≤ m s - es.countP counts := by
  induction es generalizing s with
  | nil => exact ⟨hs, Nat.le_refl _⟩
  | cons e es ih =>
    obtain ⟨hnext, hlower⟩ := hstep s e hs (hes e List.mem_cons_self)
    obtain ⟨hend, hle⟩ := ih hnext fun e' he => hes e' (List.mem_cons_of_mem _ he)
    refine ⟨hend, hle.trans ?_⟩
    rw [List.countP_cons]
    cases hcounts : counts e <;> simp [hcounts] at hlower ⊢ <;> omega

section Replies
variable {τ ω : Type*}

def replies (step : σ → ε → ω × σ) : σ → List ε → List ω × σ
  | s, [] => ([], s)
  | s, e :: es =>
    let rest := replies step (step s e).2 es
    ((step s e).1 :: rest.1, rest.2)

theorem replies_append (step : σ → ε → ω × σ) (s : σ) (es fs : List ε) :
    replies step s (es ++ fs) =
      ((replies step s es).1 ++ (replies step (replies step s es).2 fs).1,
        (replies step (replies step s es).2 fs).2) := by
  induction es generalizing s with
  | nil => rfl
  | cons e es ih =>
    rw [List.cons_append, replies, ih]
    rfl

theorem replies_of_simulation {step : σ → ε → ω × σ} {step' : τ → ε → ω × τ} {R : σ → τ → Prop}
    (hstep : ∀ s t e, R s t → (step s e).1 = (step' t e).1 ∧ R (step s e).2 (step' t e).2)
    {s : σ} {t : τ} (h : R s t) (es : List ε) :
    (replies step s es).1 = (replies step' t es).1 ∧
      R (replies step s es).2 (replies step' t es).2 := by
  induction es generalizing s t with
  | nil => exact ⟨rfl, h⟩
  | cons e es ih =>
    obtain ⟨hreply, hrelated⟩ := hstep s t e h
    obtain ⟨hrest, hend⟩ := ih hrelated
    refine ⟨?_, hend⟩
    show (step s e).1 :: _ = (step' t e).1 :: _
    rw [hreply, hrest]

end Replies
section Emitted
variable {ω : Type*}

def emitted (step : σ → ε → σ) (out : σ → ε → List ω) : σ → List ε → List ω
  | _, [] => []
  | s, e :: es => out s e ++ emitted step out (step s e) es

theorem emitted_invariant {out : σ → ε → List ω} {R : σ → List ω → Prop}
    (hstep : ∀ s h e, R s h → R (step s e) (h ++ out s e)) {s : σ} (hs : R s []) (es : List ε) :
    R (run step s es) (emitted step out s es) := by
  have hfrom (h : List ω) (hs : R s h) : R (run step s es) (h ++ emitted step out s es) := by
    clear * - hstep hs
    induction es generalizing s h with
    | nil => rwa [emitted, List.append_nil]
    | cons e es ih =>
      rw [emitted, ← List.append_assoc]
      exact ih _ (hstep s h e hs)
  exact hfrom [] hs

end Emitted

end Runs

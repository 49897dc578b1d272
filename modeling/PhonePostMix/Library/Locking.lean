import Mathlib.Data.Nat.Notation
import Mathlib.Logic.Function.Basic
import Mathlib.Logic.Relation
import Mathlib.Tactic.SplitIfs

/-! Threads that take locks and wait for each other. Where locks are taken in the order of their
ranks, and a thread is joined either without a lock or when it has taken its last one, every thread
that waits does so, over a chain of others, for one that can go on. -/

namespace Locking
variable {τ μ ρ : Type*}

inductive Action (τ μ : Type*)
  | lock (m : μ)
  | unlock (m : μ)
  | join (t : τ)

/-- A thread in the middle of a routine: where the routine leads, what is left of it, and the
locks held, the latest first. -/
structure Thread (τ μ ρ : Type*) where
  role : ρ
  todo : List (Action τ μ) := []
  held : List μ := []

/-- When a thread is not running, and the routines that a running one may begin, with what they
make of the roles. -/
structure Program (τ μ ρ : Type*) where
  idle : ρ → Prop
  next : (τ → ρ) → τ → (τ → ρ) → List (Action τ μ) → Prop

def roles (s : τ → Thread τ μ ρ) (t : τ) : ρ := (s t).role

variable [DecidableEq τ] [DecidableEq μ]

def begin (s : τ → Thread τ μ ρ) (t : τ) (roles' : τ → ρ) (todo : List (Action τ μ)) :
    τ → Thread τ μ ρ :=
  fun u => { s u with role := roles' u, todo := if u = t then todo else (s u).todo }

inductive Step (P : Program τ μ ρ) (s : τ → Thread τ μ ρ) (t : τ) : (τ → Thread τ μ ρ) → Prop
  | lock {m : μ} {rest : List (Action τ μ)} (htodo : (s t).todo = .lock m :: rest)
      (hfree : ∀ u, m ∉ (s u).held) :
      Step P s t (Function.update s t { s t with todo := rest, held := m :: (s t).held })
  | unlock {m : μ} {rest : List (Action τ μ)} (htodo : (s t).todo = .unlock m :: rest) :
      Step P s t (Function.update s t { s t with todo := rest, held := (s t).held.erase m })
  | join {u : τ} {rest : List (Action τ μ)} (htodo : (s t).todo = .join u :: rest)
      (hidle : P.idle (s u).role) : Step P s t (Function.update s t { s t with todo := rest })
  | next {roles' : τ → ρ} {todo : List (Action τ μ)} (htodo : (s t).todo = [])
      (hnext : P.next (roles s) t roles' todo) : Step P s t (begin s t roles' todo)

def WaitsFor (P : Program τ μ ρ) (s : τ → Thread τ μ ρ) (t u : τ) : Prop :=
  (∃ m rest, (s t).todo = .lock m :: rest ∧ m ∈ (s u).held) ∨
    ∃ rest, (s t).todo = .join u :: rest ∧ ¬ P.idle (s u).role

def CanRun (P : Program τ μ ρ) (s : τ → Thread τ μ ρ) (t : τ) : Prop := ∃ s', Step P s t s'

/-- The order of the locks and of the joins, and the roles that a thread `admits`. A thread at rest
in a role holds what it `keeps`; one that is `leaving` takes no lock any more, and may be joined by
a thread that `reaps` with what it holds. -/
structure Order (τ μ ρ : Type*) where
  rank : μ → ℕ
  top : ℕ
  level : τ → ℕ
  admits : τ → ρ → Prop
  keeps : ρ → List μ
  leaving : τ → ρ → Prop
  reaps : τ → List μ → Prop

def Ordered (O : Order τ μ ρ) (roles : τ → ρ) (t : τ) :
    List μ → List (Action τ μ) → List μ → Prop
  | held, [], kept => held = kept
  | held, .lock m :: todo, kept =>
    (∀ l ∈ held, O.rank l < O.rank m) ∧ Ordered O roles t (m :: held) todo kept
  | held, .unlock m :: todo, kept => ∃ rest, held = m :: rest ∧ Ordered O roles t rest todo kept
  | held, .join u :: todo, kept =>
    (O.leaving u (roles u) ∧ O.reaps t held ∨ held = [] ∧ O.level u < O.level t) ∧
      Ordered O roles t held todo kept

/-- The routines of a program are ordered, threads begin and end without locks, and a running
thread that has nothing to do can begin something. -/
structure Keeps (P : Program τ μ ρ) (O : Order τ μ ρ) : Prop where
  rank_le : ∀ m, O.rank m ≤ O.top
  idle_keeps : ∀ r, P.idle r → O.keeps r = []
  rest : ∀ roles t, O.admits t (roles t) → ¬ P.idle (roles t) →
    ∃ roles' todo, P.next roles t roles' todo
  admits : ∀ {roles t roles' todo}, P.next roles t roles' todo → ∀ u, O.admits u (roles u) →
    O.admits u (roles' u)
  ordered : ∀ {roles t roles' todo}, P.next roles t roles' todo →
    Ordered O roles t (O.keeps (roles t)) todo (O.keeps (roles' t))
  others : ∀ {roles t roles' todo}, P.next roles t roles' todo → ∀ u, u ≠ t →
    roles' u = roles u ∨ P.idle (roles u) ∧ O.keeps (roles' u) = []
  leaving : ∀ {roles t roles' todo}, P.next roles t roles' todo → ∀ u, O.leaving u (roles u) →
    O.leaving u (roles' u)
  last : ∀ {roles t roles' todo}, P.next roles t roles' todo → O.leaving t (roles' t) → todo = []
  stopped : ∀ {roles t roles' todo}, P.next roles t roles' todo → P.idle (roles' t) → todo = []

structure Sound (P : Program τ μ ρ) (O : Order τ μ ρ) (s : τ → Thread τ μ ρ) : Prop where
  admits : ∀ t, O.admits t (s t).role
  ordered : ∀ t, Ordered O (roles s) t (s t).held (s t).todo (O.keeps (s t).role)
  leaving : ∀ t, O.leaving t (s t).role → (s t).todo = []
  idle : ∀ t, P.idle (s t).role → (s t).todo = []

variable {P : Program τ μ ρ} {O : Order τ μ ρ} {s s' : τ → Thread τ μ ρ} {t u : τ}
  {held kept : List μ} {todo : List (Action τ μ)}

omit [DecidableEq τ] [DecidableEq μ] in
theorem Ordered.mono {now later : τ → ρ}
    (hleaving : ∀ u, O.leaving u (now u) → O.leaving u (later u))
    (h : Ordered O now t held todo kept) : Ordered O later t held todo kept := by
  induction todo generalizing held with
  | nil => exact h
  | cons action todo ih =>
    cases action with
    | lock m => exact ⟨h.1, ih h.2⟩
    | unlock m =>
      obtain ⟨rest, hheld, hrest⟩ := h
      exact ⟨rest, hheld, ih hrest⟩
    | join u => exact ⟨h.1.imp_left (And.imp_left (hleaving u)), ih h.2⟩

omit [DecidableEq τ] [DecidableEq μ] in
theorem Ordered.append {roles : τ → ρ} {between : List μ} {first second : List (Action τ μ)}
    (hfirst : Ordered O roles t held first between)
    (hsecond : Ordered O roles t between second kept) :
    Ordered O roles t held (first ++ second) kept := by
  induction first generalizing held with
  | nil =>
    obtain rfl : held = between := hfirst
    exact hsecond
  | cons action first ih =>
    cases action with
    | lock m => exact ⟨hfirst.1, ih hfirst.2⟩
    | unlock m =>
      obtain ⟨rest, hheld, hrest⟩ := hfirst
      exact ⟨rest, hheld, ih hrest⟩
    | join u => exact ⟨hfirst.1, ih hfirst.2⟩

omit [DecidableEq μ] in
theorem Sound.routine (h : Sound P O s) (hbusy : (s t).todo ≠ [])
    (hordered : Ordered O (roles s) t held todo (O.keeps (s t).role)) :
    Sound P O (Function.update s t { s t with todo, held }) := by
  have hroles : roles (Function.update s t { s t with todo, held }) = roles s := by
    funext u
    by_cases hu : u = t
    · subst hu
      rw [roles, Function.update_self, roles]
    · rw [roles, Function.update_of_ne hu, roles]
  refine ⟨fun u => ?_, fun u => ?_, fun u hleaving => ?_, fun u hidle => ?_⟩
  · change O.admits u (roles (Function.update s t { s t with todo, held }) u)
    rw [hroles]
    exact h.admits u
  · rw [hroles]
    by_cases hu : u = t
    · subst hu
      rw [Function.update_self]
      exact hordered
    · rw [Function.update_of_ne hu]
      exact h.ordered u
  · by_cases hu : u = t
    · subst hu
      rw [Function.update_self] at hleaving
      exact absurd (h.leaving u hleaving) hbusy
    · rw [Function.update_of_ne hu] at hleaving ⊢
      exact h.leaving u hleaving
  · by_cases hu : u = t
    · subst hu
      rw [Function.update_self] at hidle
      exact absurd (h.idle u hidle) hbusy
    · rw [Function.update_of_ne hu] at hidle ⊢
      exact h.idle u hidle

omit [DecidableEq μ] in
theorem Sound.begin (hP : Keeps P O) (h : Sound P O s) (htodo : (s t).todo = []) {roles' : τ → ρ}
    {todo : List (Action τ μ)} (hnext : P.next (roles s) t roles' todo) :
    Sound P O (begin s t roles' todo) := by
  have hheld (u : τ) (hrest : (s u).todo = []) : (s u).held = O.keeps (s u).role := by
    have hordered := h.ordered u
    rwa [hrest] at hordered
  have hidleRest (u : τ) (hidle : P.idle (s u).role) : (s u).held = [] :=
    (hheld u (h.idle u hidle)).trans (hP.idle_keeps _ hidle)
  refine ⟨fun u => hP.admits hnext u (h.admits u), fun u => ?_, fun u hleaving => ?_,
    fun u hidle => ?_⟩
  · refine Ordered.mono (hP.leaving hnext) ?_
    by_cases hu : u = t
    · subst hu
      simp only [Locking.begin, if_true]
      rw [hheld u htodo]
      exact hP.ordered hnext
    · simp only [Locking.begin, if_neg hu]
      rcases hP.others hnext u hu with hsame | ⟨hidle, hnone⟩
      · rw [hsame]
        exact h.ordered u
      · rw [h.idle u hidle, hidleRest u hidle, hnone]
        rfl
  · by_cases hu : u = t
    · subst hu
      simp only [Locking.begin, if_true]
      exact hP.last hnext hleaving
    · simp only [Locking.begin, if_neg hu]
      rcases hP.others hnext u hu with hsame | ⟨hidle, -⟩
      · have hwas : O.leaving u (roles' u) := hleaving
        rw [hsame] at hwas
        exact h.leaving u hwas
      · exact h.idle u hidle
  · by_cases hu : u = t
    · subst hu
      simp only [Locking.begin, if_true]
      exact hP.stopped hnext hidle
    · simp only [Locking.begin, if_neg hu]
      rcases hP.others hnext u hu with hsame | ⟨hwas, -⟩
      · have hwas : P.idle (roles' u) := hidle
        rw [hsame] at hwas
        exact h.idle u hwas
      · exact h.idle u hwas

theorem Sound.step (hP : Keeps P O) (h : Sound P O s) (hstep : Step P s t s') : Sound P O s' := by
  have hordered := h.ordered t
  cases hstep with
  | lock htodo hfree =>
    rw [htodo] at hordered
    exact h.routine (by simp [htodo]) hordered.2
  | unlock htodo =>
    rw [htodo] at hordered
    obtain ⟨rest, hheld, hrest⟩ := hordered
    refine h.routine (by simp [htodo]) ?_
    rw [hheld, List.erase_cons_head]
    exact hrest
  | join htodo =>
    rw [htodo] at hordered
    exact h.routine (by simp [htodo]) hordered.2
  | next htodo hnext => exact h.begin hP htodo hnext

def Reaches (P : Program τ μ ρ) : (τ → Thread τ μ ρ) → (τ → Thread τ μ ρ) → Prop :=
  Relation.ReflTransGen fun s s' => ∃ t, Step P s t s'

theorem Sound.reaches (hP : Keeps P O) (h : Sound P O s) (hreaches : Reaches P s s') :
    Sound P O s' := by
  induction hreaches with
  | refl => exact h
  | tail _ hstep ih =>
    obtain ⟨t, hstep⟩ := hstep
    exact ih.step hP hstep

omit [DecidableEq τ] [DecidableEq μ] in
theorem sound_rest {s : τ → Thread τ μ ρ} (hadmits : ∀ t, O.admits t (s t).role)
    (htodo : ∀ t, (s t).todo = [])
    (hheld : ∀ t, (s t).held = O.keeps (s t).role) : Sound P O s where
  admits := hadmits
  ordered t := by
    rw [htodo t]
    exact hheld t
  leaving t _ := htodo t
  idle t _ := htodo t

def distance (O : Order τ μ ρ) (t : τ) (thread : Thread τ μ ρ) : ℕ :=
  if thread.held = [] then O.top + 2 + O.level t
  else
    match thread.todo with
    | .lock m :: _ => O.top + 1 - O.rank m
    | _ => 0

omit [DecidableEq τ] [DecidableEq μ] in
theorem distance_holder (hP : Keeps P O) (h : Sound P O s) {m : μ} {rest : List (Action τ μ)}
    (htodo : (s t).todo = .lock m :: rest) (hholds : m ∈ (s u).held) :
    distance O u (s u) < distance O t (s t) := by
  have hne : (s u).held ≠ [] := List.ne_nil_of_mem hholds
  have hwait : O.top + 1 - O.rank m ≤ distance O t (s t) ∧ 0 < O.top + 1 - O.rank m := by
    have hrank := hP.rank_le m
    unfold distance
    rw [htodo]
    split_ifs
    · omega
    · dsimp only
      omega
  have hordered := h.ordered u
  rw [distance, if_neg hne]
  cases hu : (s u).todo with
  | nil => exact Nat.lt_of_lt_of_le hwait.2 hwait.1
  | cons action todo =>
    rw [hu] at hordered
    cases action with
    | lock m' =>
      have hrank : O.rank m < O.rank m' := hordered.1 m hholds
      have hle := hP.rank_le m'
      dsimp only
      omega
    | unlock m' => exact Nat.lt_of_lt_of_le hwait.2 hwait.1
    | join v => exact Nat.lt_of_lt_of_le hwait.2 hwait.1

theorem Sound.waits (hP : Keeps P O) (h : Sound P O s) (hrunning : ¬ P.idle (s t).role) :
    ∃ u, Relation.ReflTransGen (WaitsFor P s) t u ∧ CanRun P s u := by
  induction hn : distance O t (s t) using Nat.strongRecOn generalizing t with
  | _ n ih =>
    subst hn
    have hordered := h.ordered t
    cases htodo : (s t).todo with
    | nil =>
      obtain ⟨roles', todo, hnext⟩ := hP.rest (roles s) t (h.admits t) hrunning
      exact ⟨t, .refl, _, .next htodo hnext⟩
    | cons action todo =>
      rw [htodo] at hordered
      cases action with
      | lock m =>
        by_cases hfree : ∀ u, m ∉ (s u).held
        · exact ⟨t, .refl, _, .lock htodo hfree⟩
        · obtain ⟨u, hholds⟩ := not_forall_not.mp hfree
          have hu : ¬ P.idle (s u).role := fun hidle => by
            have hrest := h.ordered u
            rw [h.idle u hidle, hP.idle_keeps _ hidle] at hrest
            rw [show (s u).held = [] from hrest] at hholds
            cases hholds
          obtain ⟨v, hchain, hrun⟩ := ih _ (distance_holder hP h htodo hholds) hu rfl
          exact ⟨v, .head (.inl ⟨m, todo, htodo, hholds⟩) hchain, hrun⟩
      | unlock m => exact ⟨t, .refl, _, .unlock htodo⟩
      | join u =>
        by_cases hidle : P.idle (s u).role
        · exact ⟨t, .refl, _, .join htodo hidle⟩
        · have hwaits : WaitsFor P s t u := .inr ⟨todo, htodo, hidle⟩
          rcases hordered.1 with ⟨hleaving, -⟩ | ⟨hnone, hlevel⟩
          · obtain ⟨roles', todo', hnext⟩ := hP.rest (roles s) u (h.admits u) hidle
            exact ⟨u, .single hwaits, _, .next (h.leaving u hleaving) hnext⟩
          · have hnear : distance O u (s u) < distance O t (s t) := by
              unfold distance
              rw [if_pos hnone]
              split_ifs
              · omega
              · split <;> omega
            obtain ⟨v, hchain, hrun⟩ := ih _ hnear hidle rfl
            exact ⟨v, .head hwaits hchain, hrun⟩

end Locking

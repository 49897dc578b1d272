import Mathlib.Data.List.Basic

/-! Decoders that take items off the front of a growing buffer. A decoder whose
verdict on a buffer does not change when more input is appended gives the same
items however its input is cut into chunks and whenever it is asked for one. -/

namespace Streaming

/-- The verdict on a buffer: not enough input, unusable input, or a shorter buffer
with a new state and, possibly, an item. -/
inductive Attempt (α σ ι ε : Type*) where
  | wait
  | fail (e : ε)
  | take (rest : List α) (s : σ) (item : Option ι)

structure Decoder (α σ ι ε : Type*) where
  attempt : σ → List α → Attempt α σ ι ε
  take_shorter : ∀ {s b rest s' i}, attempt s b = .take rest s' i → rest.length < b.length
  take_append : ∀ {s b rest s' i}, attempt s b = .take rest s' i →
    ∀ c, attempt s (b ++ c) = .take (rest ++ c) s' i
  fail_append : ∀ {s b e}, attempt s b = .fail e → ∀ c, attempt s (b ++ c) = .fail e

inductive Position (α σ ε : Type*) where
  | live (s : σ) (buffer : List α)
  | failed (e : ε)

inductive Op (α : Type*) where
  | push (chunk : List α)
  | next

variable {α σ ι ε : Type*}

def Position.push : Position α σ ε → List α → Position α σ ε
  | .live s b, c => .live s (b ++ c)
  | .failed e, _ => .failed e

@[simp] theorem Position.push_live (s : σ) (b c : List α) :
    (Position.live s b : Position α σ ε).push c = .live s (b ++ c) := rfl

@[simp] theorem Position.push_failed (e : ε) (c : List α) :
    (Position.failed e : Position α σ ε).push c = .failed e := rfl

@[simp] theorem Position.push_nil (p : Position α σ ε) : p.push [] = p := by
  cases p <;> simp

theorem Position.push_push (p : Position α σ ε) (b c : List α) :
    (p.push b).push c = p.push (b ++ c) := by
  cases p <;> simp

def pushed : List (Op α) → List α
  | [] => []
  | .push c :: ops => c ++ pushed ops
  | .next :: ops => pushed ops

theorem pushed_append (a b : List (Op α)) : pushed (a ++ b) = pushed a ++ pushed b := by
  induction a with
  | nil => rfl
  | cons op a ih =>
    cases op with
    | push chunk => rw [List.cons_append, pushed, pushed, ih, List.append_assoc]
    | next => exact ih

namespace Decoder
variable (D : Decoder α σ ι ε)

def nextLive (s : σ) (b : List α) : Option ι × Position α σ ε :=
  -- the next item, skipping over input that completes none
  match _h : D.attempt s b with
  | .wait => (none, .live s b)
  | .fail e => (none, .failed e)
  | .take rest s' (some i) => (some i, .live s' rest)
  | .take rest s' none => nextLive s' rest
termination_by b.length
decreasing_by exact D.take_shorter ‹_›

def next : Position α σ ε → Option ι × Position α σ ε
  | .live s b => D.nextLive s b
  | .failed e => (none, .failed e)

def drainLive (s : σ) (b : List α) : List ι × Position α σ ε :=
  match _h : D.attempt s b with
  | .wait => ([], .live s b)
  | .fail e => ([], .failed e)
  | .take rest s' i =>
    let r := drainLive s' rest
    (i.toList ++ r.1, r.2)
termination_by b.length
decreasing_by exact D.take_shorter ‹_›

def drain : Position α σ ε → List ι × Position α σ ε
  | .live s b => D.drainLive s b
  | .failed e => ([], .failed e)

def run : Position α σ ε → List (Op α) → List ι × Position α σ ε
  | p, [] => ([], p)
  | p, .push c :: ops => run (p.push c) ops
  | p, .next :: ops =>
    let n := D.next p
    let r := run n.2 ops
    (n.1.toList ++ r.1, r.2)

variable {D}

theorem drainLive_wait {s : σ} {b : List α} (h : D.attempt s b = .wait) :
    D.drainLive s b = ([], .live s b) := by
  rw [drainLive]
  split <;> simp_all

theorem drainLive_fail {s : σ} {b : List α} {e : ε} (h : D.attempt s b = .fail e) :
    D.drainLive s b = ([], .failed e) := by
  rw [drainLive]
  split <;> simp_all

theorem drainLive_take {s s' : σ} {b rest : List α} {i : Option ι}
    (h : D.attempt s b = .take rest s' i) :
    D.drainLive s b = (i.toList ++ (D.drainLive s' rest).1, (D.drainLive s' rest).2) := by
  rw [drainLive]
  split <;> simp_all

theorem nextLive_wait {s : σ} {b : List α} (h : D.attempt s b = .wait) :
    D.nextLive s b = (none, .live s b) := by
  rw [nextLive]
  split <;> simp_all

theorem nextLive_fail {s : σ} {b : List α} {e : ε} (h : D.attempt s b = .fail e) :
    D.nextLive s b = (none, .failed e) := by
  rw [nextLive]
  split <;> simp_all

theorem nextLive_item {s s' : σ} {b rest : List α} {i : ι}
    (h : D.attempt s b = .take rest s' (some i)) :
    D.nextLive s b = (some i, .live s' rest) := by
  rw [nextLive]
  split <;> simp_all

theorem nextLive_skip {s s' : σ} {b rest : List α}
    (h : D.attempt s b = .take rest s' none) :
    D.nextLive s b = D.nextLive s' rest := by
  rw [nextLive]
  split <;> simp_all

theorem drainLive_push_next (s : σ) (b c : List α) :
    D.drainLive s (b ++ c) =
      ((D.nextLive s b).1.toList ++ (D.drain ((D.nextLive s b).2.push c)).1,
        (D.drain ((D.nextLive s b).2.push c)).2) := by
  induction s, b using nextLive.induct D with
  | case1 s b h => simp [nextLive_wait h, drain]
  | case2 s b e h => simp [nextLive_fail h, drain, drainLive_fail (D.fail_append h c)]
  | case3 s b rest s' i h =>
    simp [nextLive_item h, drain, drainLive_take (D.take_append h c)]
  | case4 s b rest s' h ih =>
    rw [drainLive_take (D.take_append h c), nextLive_skip h, ih]
    simp

theorem drain_push_next (p : Position α σ ε) (c : List α) :
    D.drain (p.push c) =
      ((D.next p).1.toList ++ (D.drain ((D.next p).2.push c)).1,
        (D.drain ((D.next p).2.push c)).2) := by
  cases p with
  | live s b => exact drainLive_push_next s b c
  | failed e => simp [drain, next]

theorem drainLive_append (s : σ) (b c : List α) :
    D.drainLive s (b ++ c) =
      ((D.drainLive s b).1 ++ (D.drain ((D.drainLive s b).2.push c)).1,
        (D.drain ((D.drainLive s b).2.push c)).2) := by
  induction s, b using drainLive.induct D with
  | case1 s b h => simp [drainLive_wait h, drain]
  | case2 s b e h => simp [drainLive_fail h, drain, drainLive_fail (D.fail_append h c)]
  | case3 s b rest s' i h ih =>
    rw [drainLive_take (D.take_append h c), drainLive_take h, ih, List.append_assoc]

theorem drainLive_of_nextLive_none {s : σ} {b : List α} (h : (D.nextLive s b).1 = none) :
    D.drainLive s b = ([], (D.nextLive s b).2) := by
  induction s, b using nextLive.induct D with
  | case1 s b ha => rw [nextLive_wait ha, drainLive_wait ha]
  | case2 s b e ha => rw [nextLive_fail ha, drainLive_fail ha]
  | case3 s b rest s' i ha => simp [nextLive_item ha] at h
  | case4 s b rest s' ha ih =>
    rw [nextLive_skip ha] at h ⊢
    rw [drainLive_take ha, ih h]
    rfl

theorem drain_of_next_none {p : Position α σ ε} (h : (D.next p).1 = none) :
    D.drain p = ([], (D.next p).2) := by
  cases p with
  | live s b => exact drainLive_of_nextLive_none h
  | failed e => rfl

theorem run_drain (p : Position α σ ε) (ops : List (Op α)) :
    ((D.run p ops).1 ++ (D.drain (D.run p ops).2).1, (D.drain (D.run p ops).2).2) =
      D.drain (p.push (pushed ops)) := by
  induction ops generalizing p with
  | nil => simp [run, pushed]
  | cons op ops ih =>
    cases op with
    | push c => simpa only [run, pushed, Position.push_push] using ih (p.push c)
    | next =>
      have h := ih (D.next p).2
      rw [pushed, drain_push_next, ← h]
      simp only [run, List.append_assoc]

end Decoder
end Streaming

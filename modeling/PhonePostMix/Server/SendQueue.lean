import Mathlib.Algebra.BigOperators.Group.List.Basic
import Mathlib.Algebra.Order.Ring.Int
import PhonePostMix.Library.Queues
import PhonePostMix.WebSocket.FrameParser

/-! The queue of serialised frames that a connection still has to send. -/

namespace Ppm.Server
open DropOldest

/-- One queued frame. `broadcast` numbers the broadcast that shares it; a pong has none. -/
structure Outgoing where
  frame : List UInt8
  droppable : Bool := true
  broadcast : Option ℕ := none
  deriving DecidableEq, Repr

/-- `queuedBytes` is kept in `ℤ`, so that a subtraction below zero would show. -/
structure SendQueue where
  queue : List Outgoing := []
  queuedBytes : ℤ := 0
  deriving DecidableEq, Repr

namespace SendQueue

def discardPass (queueLimitBytes : ℕ) (q : SendQueue) : Option SendQueue :=
  if q.queuedBytes > queueLimitBytes ∧ q.queue.length > 1 then
    match q.queue.find? (·.droppable) with
    | none => none
    | some it => some
        { queue := q.queue.eraseP (·.droppable)
          queuedBytes := q.queuedBytes - it.frame.length }
  else none

theorem discardPass_eq_some {limit : ℕ} {q q' : SendQueue} (h : discardPass limit q = some q') :
    ∃ it, q.queue.find? (·.droppable) = some it ∧
      q' = ⟨q.queue.eraseP (·.droppable), q.queuedBytes - it.frame.length⟩ ∧
      1 < q.queue.length := by
  simp only [discardPass] at h
  split at h
  · rename_i hover
    cases hfind : q.queue.find? (·.droppable) with
    | none => simp [hfind] at h
    | some it =>
      simp only [hfind, Option.some.injEq] at h
      exact ⟨it, rfl, h.symm, hover.2⟩
  · simp at h

theorem discardPass_eq_none {limit : ℕ} {q : SendQueue} (h : discardPass limit q = none) :
    q.queuedBytes ≤ limit ∨ q.queue.length ≤ 1 ∨ ∀ out ∈ q.queue, out.droppable = false := by
  simp only [discardPass] at h
  split at h
  · cases hfind : q.queue.find? (·.droppable) with
    | none =>
      right
      right
      intro out hout
      simpa using List.find?_eq_none.mp hfind out hout
    | some it => simp [hfind] at h
  · omega

theorem discardPass_length {limit : ℕ} {q q' : SendQueue} (h : discardPass limit q = some q') :
    q'.queue.length + 1 = q.queue.length := by
  obtain ⟨it, hfind, rfl, hlen⟩ := discardPass_eq_some h
  have herase : (q.queue.eraseP (·.droppable)).length = q.queue.length - 1 :=
    List.length_eraseP_of_mem (List.mem_of_find?_eq_some hfind) (List.find?_some hfind)
  show (q.queue.eraseP (·.droppable)).length + 1 = q.queue.length
  omega

def discard (queueLimitBytes : ℕ) (q : SendQueue) : SendQueue × ℕ :=
  -- the discard loop of `enqueue`, with the number of frames it discards
  match _h : discardPass queueLimitBytes q with
  | none => (q, 0)
  | some q' => ((discard queueLimitBytes q').1, (discard queueLimitBytes q').2 + 1)
termination_by q.queue.length
decreasing_by all_goals have := discardPass_length _h; omega

def enqueue (queueLimitBytes : ℕ) (q : SendQueue) (out : Outgoing) : SendQueue × ℕ :=
  -- the part of `enqueue` that holds `queueMutex`
  discard queueLimitBytes
    { queue := q.queue ++ [out], queuedBytes := q.queuedBytes + out.frame.length }

def pop (q : SendQueue) : Option (Outgoing × SendQueue) :=
  match q.queue with
  | [] => none
  | next :: rest => some (next, { queue := rest, queuedBytes := q.queuedBytes - next.frame.length })

theorem pop_eq_some {q rest : SendQueue} {next : Outgoing} (h : pop q = some (next, rest)) :
    q.queue = next :: rest.queue ∧ rest.queuedBytes = q.queuedBytes - next.frame.length := by
  rcases hqueue : q.queue with _ | ⟨out, others⟩ <;> simp only [pop, hqueue] at h
  · cases h
  · obtain ⟨rfl, rfl⟩ := Prod.mk.inj (Option.some.inj h)
    exact ⟨rfl, rfl⟩

theorem discard_of_none {limit : ℕ} {q : SendQueue} (h : discardPass limit q = none) :
    discard limit q = (q, 0) := by
  rw [discard]
  split
  · rfl
  · rename_i hsome
    simp [h] at hsome

theorem discard_of_some {limit : ℕ} {q q' : SendQueue} (h : discardPass limit q = some q') :
    discard limit q = ((discard limit q').1, (discard limit q').2 + 1) := by
  rw [discard]
  split
  · rename_i hnone
    simp [h] at hnone
  · rename_i hsome
    rw [h, Option.some.injEq] at hsome
    subst hsome
    rfl

theorem discard_rule {limit : ℕ} {P : SendQueue → ℕ → Prop}
    (hpass : ∀ q q' n, discardPass limit q = some q' → P q n → P q' (n + 1))
    (q : SendQueue) (n : ℕ) (h : P q n) :
    P (discard limit q).1 (n + (discard limit q).2) := by
  induction hlen : q.queue.length using Nat.strong_induction_on generalizing q n with
  | _ len ih =>
    cases hp : discardPass limit q with
    | none =>
      rw [discard_of_none hp]
      exact h
    | some q' =>
      have hshort : q'.queue.length < len := by
        have hone := discardPass_length hp
        omega
      have hnext := ih _ hshort q' (n + 1) (hpass q q' n hp h) rfl
      rw [discard_of_some hp]
      rwa [show n + ((discard limit q').2 + 1) = n + 1 + (discard limit q').2 by omega]

theorem discardPass_discard (limit : ℕ) (q : SendQueue) :
    discardPass limit (discard limit q).1 = none := by
  induction hlen : q.queue.length using Nat.strong_induction_on generalizing q with
  | _ len ih =>
    cases hp : discardPass limit q with
    | none => rwa [discard_of_none hp]
    | some q' =>
      rw [discard_of_some hp]
      have hone := discardPass_length hp
      exact ih _ (by omega) q' rfl

def Counted (q : SendQueue) : Prop :=
  q.queuedBytes = ((q.queue.map fun out => out.frame.length).sum : ℕ)

theorem counted_discardPass {limit : ℕ} {q q' : SendQueue} (h : discardPass limit q = some q')
    (hq : Counted q) : Counted q' := by
  obtain ⟨it, hfind, rfl, -⟩ := discardPass_eq_some h
  obtain ⟨before, rest, hsplit, herase, -, -⟩ := find?_split hfind
  simp only [Counted, herase]
  rw [Counted, hsplit] at hq
  simp only [List.map_append, List.map_cons, List.sum_append, List.sum_cons] at hq ⊢
  omega

theorem counted_enqueue (limit : ℕ) {q : SendQueue} (hq : Counted q) (out : Outgoing) :
    Counted (enqueue limit q out).1 := by
  refine discard_rule (P := fun q _ => Counted q) ?_ _ 0 ?_
  · exact fun q q' _ hp hq => counted_discardPass hp hq
  · simp only [Counted, List.map_append, List.sum_append, List.map_cons, List.map_nil,
      List.sum_cons, List.sum_nil] at hq ⊢
    omega

theorem counted_pop {q rest : SendQueue} {next : Outgoing} (h : pop q = some (next, rest))
    (hq : Counted q) : Counted rest := by
  obtain ⟨hqueue, hbytes⟩ := pop_eq_some h
  rw [Counted, hqueue, List.map_cons, List.sum_cons] at hq
  rw [Counted, hbytes]
  omega

def Bounded (limit : ℕ) (q : SendQueue) : Prop :=
  q.queuedBytes ≤ limit ∨ q.queue.length = 1 ∨ ∀ out ∈ q.queue, out.droppable = false

theorem bounded_enqueue (limit : ℕ) (q : SendQueue) (out : Outgoing) :
    Bounded limit (enqueue limit q out).1 := by
  have hend := discardPass_eq_none
    (discardPass_discard limit ⟨q.queue ++ [out], q.queuedBytes + out.frame.length⟩)
  rcases hend with hbytes | hshort | hcontrol
  · exact .inl hbytes
  · rcases Nat.lt_or_ge (enqueue limit q out).1.queue.length 1 with hzero | hone
    · right
      right
      intro x hx
      rw [List.length_eq_zero_iff.mp (by omega : (enqueue limit q out).1.queue.length = 0)] at hx
      simp at hx
    · right
      left
      exact Nat.le_antisymm hshort hone
  · exact .inr (.inr hcontrol)

variable {offered popped : List Outgoing} {discarded : ℕ}

theorem delivery_enqueue (limit : ℕ) {q : SendQueue} (out : Outgoing)
    (h : Delivery (·.droppable) offered popped q.queue discarded) :
    Delivery (·.droppable) (offered ++ [out]) popped (enqueue limit q out).1.queue
      (discarded + (enqueue limit q out).2) := by
  refine discard_rule
    (P := fun q n => Delivery (·.droppable) (offered ++ [out]) popped q.queue n)
    ?_ ⟨q.queue ++ [out], q.queuedBytes + out.frame.length⟩ discarded (h.offer out)
  intro q q' n hp hq
  obtain ⟨it, hfind, rfl, -⟩ := discardPass_eq_some hp
  exact hq.discard hfind

theorem delivery_pop {q rest : SendQueue} {next : Outgoing} (hpop : pop q = some (next, rest))
    (h : Delivery (·.droppable) offered popped q.queue discarded) :
    Delivery (·.droppable) offered (popped ++ [next]) rest.queue discarded := by
  rw [(pop_eq_some hpop).1] at h
  exact h.take

end SendQueue
end Ppm.Server

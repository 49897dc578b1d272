import Mathlib.Algebra.Order.BigOperators.Group.List
import PhonePostMix.Server.Connection

/-! Whether the frame that `enqueue` has just appended outlives the discards it causes. -/

namespace Ppm.Server
open DropOldest

def queueBytes (queue : List Outgoing) : ℕ := (queue.map fun out => out.frame.length).sum

def controlFrames (queue : List Outgoing) : List Outgoing := queue.filter fun out => !out.droppable

theorem queueBytes_split (queue : List Outgoing) : queueBytes queue =
    queueBytes (controlFrames queue) + queueBytes (queue.filter (·.droppable)) := by
  induction queue with
  | nil => rfl
  | cons out queue ih =>
    simp only [queueBytes, controlFrames, List.map_cons, List.sum_cons] at ih ⊢
    cases hdrop : out.droppable <;> simp [hdrop, ih] <;> omega

namespace SendQueue
variable {limit : ℕ} {q : SendQueue} {out : Outgoing}

def NewestLast (control : List Outgoing) (out : Outgoing) (q : SendQueue) : Prop :=
  Counted q ∧ ∃ older, q.queue = older ++ [out] ∧ controlFrames older = control

theorem newestLast_discardPass {control : List Outgoing} {q' : SendQueue}
    (hroom : control = [] ∨ queueBytes control + out.frame.length ≤ limit)
    (h : NewestLast control out q) (hpass : discardPass limit q = some q') :
    NewestLast control out q' := by
  obtain ⟨hcounted, older, hqueue, hcontrol⟩ := h
  have hcounted' := counted_discardPass hpass hcounted
  have hover : (limit : ℤ) < q.queuedBytes ∧ 1 < q.queue.length := by
    by_contra hless
    simp [discardPass, hless] at hpass
  obtain ⟨it, hfind, rfl, -⟩ := discardPass_eq_some hpass
  refine ⟨hcounted', ?_⟩
  by_cases hdrop : ∃ a ∈ older, a.droppable = true
  · obtain ⟨a, ha, hadrop⟩ := hdrop
    obtain ⟨before, rest, hsplit, herase, -, hit⟩ := find?_split
      (Option.some_get (List.find?_isSome.mpr ⟨a, ha, hadrop⟩)).symm
    refine ⟨older.eraseP (·.droppable), ?_, ?_⟩
    · show q.queue.eraseP _ = _
      rw [hqueue, List.eraseP_append_left hadrop _ ha]
    · rw [herase, ← hcontrol, hsplit]
      simp [controlFrames, hit]
  · -- only control frames are older, and they leave room or there are none
    have hall : controlFrames older = older :=
      List.filter_eq_self.mpr fun a ha => by
        have hnot : ¬ a.droppable = true := fun h => hdrop ⟨a, ha, h⟩
        simpa using hnot
    rw [hall] at hcontrol
    obtain ⟨hbytes, hlength⟩ := hover
    rw [hcounted, hqueue, hcontrol] at hbytes
    rw [hqueue, hcontrol, List.length_append, List.length_singleton] at hlength
    rcases hroom with hnone | hfits
    · rw [hnone] at hlength
      simp at hlength
    · rw [List.map_append, List.sum_append, List.map_singleton, List.sum_singleton] at hbytes
      rw [queueBytes] at hfits
      omega

theorem newestLast_enqueue (hcounted : Counted q)
    (hroom : controlFrames q.queue = [] ∨
      queueBytes (controlFrames q.queue) + out.frame.length ≤ limit) :
    NewestLast (controlFrames q.queue) out (enqueue limit q out).1 := by
  refine discard_rule (P := fun q' _ => NewestLast (controlFrames q.queue) out q')
    (fun _ _ _ hpass h => newestLast_discardPass hroom h hpass) _ 0 ⟨?_, q.queue, rfl, rfl⟩
  rw [Counted] at hcounted ⊢
  rw [hcounted]
  simp

theorem all_control_enqueue (hcounted : Counted q) (hcontrol : controlFrames q.queue ≠ [])
    (hdrop : out.droppable = true)
    (hover : limit < queueBytes (controlFrames q.queue) + out.frame.length) :
    out ∉ (enqueue limit q out).1.queue := by
  intro hmem
  have hdelivery : Delivery (·.droppable) q.queue [] q.queue 0 :=
    ⟨List.Sublist.refl _, rfl, List.suffix_refl _, by simp⟩
  have hkept := (delivery_enqueue limit out hdelivery).kept
  have hcounted' := counted_enqueue limit hcounted out
  have hend := bounded_enqueue limit q out
  generalize (enqueue limit q out).1 = q' at hmem hkept hcounted' hend
  have hsame : controlFrames q'.queue = controlFrames q.queue := by
    rw [List.nil_append, List.filter_append] at hkept
    simpa [controlFrames, hdrop] using hkept
  have hmem' : out ∈ q'.queue.filter (·.droppable) := List.mem_filter.mpr ⟨hmem, hdrop⟩
  rcases hend with hbytes | hone | hnone
  · have hleast : out.frame.length ≤ queueBytes (q'.queue.filter (·.droppable)) :=
      List.single_le_sum (fun _ _ => Nat.zero_le _) _ (List.mem_map_of_mem hmem')
    have hsplit := queueBytes_split q'.queue
    rw [hcounted'] at hbytes
    rw [hsame] at hsplit
    rw [queueBytes] at hsplit
    omega
  · obtain ⟨x, hx⟩ := List.length_eq_one_iff.mp hone
    rw [hx, List.mem_singleton] at hmem
    apply hcontrol
    rw [← hsame, hx, ← hmem]
    simp [controlFrames, hdrop]
  · rw [hnone out hmem] at hdrop
    cases hdrop

end SendQueue

namespace Connection
open SendQueue

/-- The frame offered stays unless control frames are queued that exceed the limit with it. -/
theorem newest_queued_iff (owner : Owner) {c : Connection} (hupgraded : c.upgraded = true)
    (hcounted : c.sendQueue.Counted) {out : Outgoing} (hdrop : out.droppable = true) :
    out ∈ (c.enqueue owner out).sendQueue.queue ↔
      (∀ x ∈ c.sendQueue.queue, x.droppable = true) ∨
        queueBytes (controlFrames c.sendQueue.queue) + out.frame.length ≤
          owner.queueLimitBytes := by
  have hnone : (∀ x ∈ c.sendQueue.queue, x.droppable = true) ↔
      controlFrames c.sendQueue.queue = [] := by
    simp [controlFrames, List.filter_eq_nil_iff]
  rw [hnone, enqueue, if_pos hupgraded]
  constructor
  · intro hmem
    by_contra hno
    obtain ⟨hcontrol, hover⟩ := not_or.mp hno
    exact all_control_enqueue hcounted hcontrol hdrop (Nat.not_le.mp hover) hmem
  · intro hroom
    obtain ⟨-, older, hqueue, -⟩ := newestLast_enqueue hcounted hroom
    show out ∈ (SendQueue.enqueue _ _ _).1.queue
    rw [hqueue]
    simp

def pong (size : ℕ) : Outgoing := { frame := List.replicate size 0, droppable := false }

def audio (size : ℕ) : Outgoing := { frame := List.replicate size 0 }

def smallQueue : Owner where
  assetProvider := none
  upgradeAuthorizer := none
  makeAcceptKey := id
  queueLimitBytes := 8

theorem newest_queued_beside_pong :
    let c : Connection :=
      { upgraded := true, sendQueue := { queue := [audio 3, pong 4], queuedBytes := 7 } }
    audio 4 ∈ (c.enqueue smallQueue (audio 4)).sendQueue.queue := by
  intro c
  have hcounted : c.sendQueue.Counted := rfl
  exact (newest_queued_iff smallQueue rfl hcounted rfl).mpr (.inr (by decide))

/-- With a pong of six bytes queued the frame offered is discarded itself. -/
theorem newest_discarded :
    let c : Connection :=
      { upgraded := true, sendQueue := { queue := [audio 2, pong 6], queuedBytes := 8 } }
    c.sendQueue.Counted ∧ audio 4 ∉ (c.enqueue smallQueue (audio 4)).sendQueue.queue ∧
      (c.enqueue smallQueue (audio 4)).sendQueue.queue = [pong 6] := by
  have hleft : (({ queue := [audio 2, pong 6], queuedBytes := 8 } : SendQueue).enqueue 8
      (audio 4)).1.queue = [pong 6] := by
    simp [SendQueue.enqueue, discard_of_some, discard_of_none, discardPass, audio, pong]
  refine ⟨rfl, ?_, hleft⟩
  show audio 4 ∉ (SendQueue.enqueue 8 _ (audio 4)).1.queue
  rw [hleft]
  decide

end Connection
end Ppm.Server

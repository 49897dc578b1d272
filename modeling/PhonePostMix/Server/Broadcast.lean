import Mathlib.Algebra.BigOperators.Group.Finset.Piecewise
import Mathlib.Data.List.DropRight
import PhonePostMix.Library.Runs
import PhonePostMix.Server.SendQueue

/-! Broadcasting to every connection. One thread at a time holds `connectionsMutex` and walks
the vector of connections, while the connections' own threads upgrade, pop, answer pings and
finish between any two of its steps. -/

namespace Ppm.Server
open DropOldest SendQueue WebSocket Finset

/-- What the broadcasting threads see of a `Connection`. The last three fields are only
written: they record every frame that entered or left the queue. -/
structure Recipient where
  upgraded : Bool := false
  finished : Bool := false
  sendQueue : SendQueue := {}
  offered : List Outgoing := []
  popped : List Outgoing := []
  discarded : ℕ := 0

structure Recipient.Sound (c : Recipient) : Prop where
  delivery : Delivery (·.droppable) c.offered c.popped c.sendQueue.queue c.discarded
  counted : Counted c.sendQueue

def Recipient.pop (c : Recipient) : Recipient :=
  match c.sendQueue.pop with
  | none => c
  | some (next, rest) => { c with sendQueue := rest, popped := c.popped ++ [next] }

def Recipient.offer (queueLimitBytes : ℕ) (c : Recipient) (out : Outgoing) : Recipient :=
  { c with
    sendQueue := (c.sendQueue.enqueue queueLimitBytes out).1
    offered := c.offered ++ [out]
    discarded := c.discarded + (c.sendQueue.enqueue queueLimitBytes out).2 }

theorem Recipient.sound_new : Recipient.Sound {} := ⟨Delivery.empty _, rfl⟩

theorem Recipient.Sound.pop {c : Recipient} (h : c.Sound) : c.pop.Sound := by
  unfold Recipient.pop
  split
  · exact h
  · rename_i next rest hpop
    exact ⟨delivery_pop hpop h.delivery, counted_pop hpop h.counted⟩

theorem Recipient.pop_record (c : Recipient) :
    c.pop.offered = c.offered ∧ c.pop.discarded = c.discarded := by
  unfold Recipient.pop
  split <;> exact ⟨rfl, rfl⟩

theorem Recipient.Sound.offer {c : Recipient} (h : c.Sound) (limit : ℕ) (out : Outgoing) :
    (c.offer limit out).Sound :=
  ⟨delivery_enqueue limit out h.delivery, counted_enqueue limit h.counted out⟩

/-- The loop of a broadcast: `admitted` has passed the check of its `upgraded` flag. -/
structure Broadcast where
  out : Outgoing
  admitted : Option ℕ := none
  remaining : List ℕ

def Broadcast.waiting (b : Broadcast) : List ℕ := b.admitted.toList ++ b.remaining

/-- Connections are numbered as they are accepted; `connections` is the vector of those that
still belong to the server, `sent` records every broadcast. -/
structure StreamServer where
  queueLimitBytes : ℕ
  recipients : ℕ → Recipient := fun _ => {}
  accepted : ℕ := 0
  connections : List ℕ := []
  broadcasting : Option Broadcast := none
  drops : BitVec 32 := 0
  sent : List Outgoing := []

inductive Event where
  | accept
  | stop
  | upgrade (i : ℕ)
  | leave (i : ℕ)
  | finish (i : ℕ)
  | broadcastBinary (data : List UInt8)
  | broadcastText (text : List UInt8)
  | check
  | offer
  | release
  | pong (i : ℕ) (payload : List UInt8)
  | pop (i : ℕ)
  | setPerClientQueueLimit (bytes : ℕ)

namespace StreamServer

def start (queueLimitBytes : ℕ) : StreamServer := { queueLimitBytes }

def modify (s : StreamServer) (i : ℕ) (f : Recipient → Recipient) : StreamServer :=
  if i < s.accepted then
    { s with recipients := Function.update s.recipients i (f (s.recipients i)) }
  else s

def enqueueAt (s : StreamServer) (i : ℕ) (out : Outgoing) : StreamServer :=
  -- `Connection::enqueue` after the check of `upgraded`; `drops` is a 32-bit counter
  { s with
    recipients := Function.update s.recipients i ((s.recipients i).offer s.queueLimitBytes out)
    drops := s.drops +
      BitVec.ofNat 32 ((s.recipients i).sendQueue.enqueue s.queueLimitBytes out).2 }

def beginBroadcast (s : StreamServer) (frame : List UInt8) (droppable : Bool) : StreamServer :=
  -- building the frame touches nothing shared, so it is one step with taking the mutex
  match s.broadcasting with
  | some _ => s
  | none =>
    let out := { frame, droppable, broadcast := some s.sent.length }
    { s with broadcasting := some { out, remaining := s.connections }, sent := s.sent ++ [out] }

def acceptOne (s : StreamServer) : StreamServer :=
  -- the acceptor reaps the finished connections and adds the new one
  match s.broadcasting with
  | some _ => s
  | none =>
    { s with
      connections := s.connections.filter (fun i => !(s.recipients i).finished) ++ [s.accepted]
      accepted := s.accepted + 1 }

def step (s : StreamServer) : Event → StreamServer
  -- a step that needs `connectionsMutex` while a broadcast holds it changes nothing
  | .accept => s.acceptOne
  | .stop => if s.broadcasting.isSome then s else { s with connections := [] }
  | .upgrade i => s.modify i fun c => { c with upgraded := true }
  | .leave i => s.modify i fun c => { c with upgraded := false }
  | .finish i => s.modify i fun c => { c with finished := true }
  | .broadcastBinary data => s.beginBroadcast (writeFrame [] .binary data) true
  | .broadcastText text => s.beginBroadcast (writeTextFrame [] text) false
  | .check =>
    match s.broadcasting with
    | some { out, admitted := none, remaining := i :: rest } =>
      let admitted := if (s.recipients i).upgraded then some i else none
      { s with broadcasting := some { out, admitted, remaining := rest } }
    | _ => s
  | .offer =>
    match s.broadcasting with
    | some { out, admitted := some i, remaining } =>
      { s.enqueueAt i out with broadcasting := some { out, remaining } }
    | _ => s
  | .release =>
    match s.broadcasting with
    | some { admitted := none, remaining := [], .. } => { s with broadcasting := none }
    | _ => s
  | .pong i payload =>
    if (s.recipients i).upgraded then
      s.enqueueAt i { frame := writeFrame [] .pong payload, droppable := false }
    else s
  | .pop i => s.modify i Recipient.pop
  | .setPerClientQueueLimit bytes => { s with queueLimitBytes := bytes }

def run (s : StreamServer) (es : List Event) : StreamServer := Runs.run step s es

def getDropCount (s : StreamServer) : ℤ := s.drops.toInt

def totalDiscarded (s : StreamServer) : ℕ := ∑ i ∈ range s.accepted, (s.recipients i).discarded

theorem sum_discarded_update {n i : ℕ} (hi : i < n) (r : ℕ → Recipient) (c : Recipient) :
    ∑ j ∈ range n, (Function.update r i c j).discarded + (r i).discarded =
      ∑ j ∈ range n, (r j).discarded + c.discarded := by
  have happly : ∀ j, (Function.update r i c j).discarded =
      Function.update (fun j => (r j).discarded) i c.discarded j :=
    Function.apply_update (fun _ c => c.discarded) r i c
  have hmem : i ∈ range n := mem_range.mpr hi
  simp only [happly]
  rw [sum_update_of_mem hmem, ← add_sum_erase _ (fun j => (r j).discarded) hmem,
    ← erase_eq]
  omega

structure Accounted (s : StreamServer) : Prop where
  sound : ∀ i, (s.recipients i).Sound
  drops : s.drops = BitVec.ofNat 32 s.totalDiscarded
  unused : ∀ i, s.accepted ≤ i → s.recipients i = {}
  connections : ∀ i ∈ s.connections, i < s.accepted
  waiting : ∀ b ∈ s.broadcasting, ∀ i ∈ b.waiting, i < s.accepted

theorem accounted_start (limit : ℕ) : Accounted (start limit) where
  sound _ := Recipient.sound_new
  drops := rfl
  unused _ _ := rfl
  connections := by simp [start]
  waiting := by simp [start]

variable {s : StreamServer}

theorem Accounted.of_upgraded (h : Accounted s) {i : ℕ}
    (hi : (s.recipients i).upgraded = true) : i < s.accepted := by
  by_contra hge
  rw [h.unused i (by omega)] at hi
  exact absurd hi (by simp)

theorem accounted_modify (h : Accounted s) (i : ℕ) {f : Recipient → Recipient}
    (hsound : ∀ c, Recipient.Sound c → (f c).Sound)
    (hdiscarded : ∀ c, (f c).discarded = c.discarded) : Accounted (s.modify i f) := by
  unfold modify
  split_ifs with hi
  swap
  · exact h
  refine ⟨?_, ?_, ?_, h.connections, h.waiting⟩
  · intro j
    rcases eq_or_ne j i with rfl | hne
    · simpa using hsound _ (h.sound j)
    · simpa [Function.update_of_ne hne] using h.sound j
  · rw [show s.drops = _ from h.drops]
    have hsum := sum_discarded_update hi s.recipients (f (s.recipients i))
    rw [hdiscarded] at hsum
    simp only [totalDiscarded]
    rw [Nat.add_right_cancel hsum]
  · intro j hj
    have hne : j ≠ i := by
      rintro rfl
      exact absurd hi (by simpa using hj)
    simpa [Function.update_of_ne hne] using h.unused j hj

theorem accounted_enqueueAt (h : Accounted s) {i : ℕ} (hi : i < s.accepted) (out : Outgoing) :
    Accounted (s.enqueueAt i out) := by
  refine ⟨?_, ?_, ?_, h.connections, h.waiting⟩
  · intro j
    rcases eq_or_ne j i with rfl | hne
    · simpa [enqueueAt] using (h.sound j).offer s.queueLimitBytes out
    · simpa [enqueueAt, Function.update_of_ne hne] using h.sound j
  · have hsum := sum_discarded_update hi s.recipients
      ((s.recipients i).offer s.queueLimitBytes out)
    have hgrow : ((s.recipients i).offer s.queueLimitBytes out).discarded =
        (s.recipients i).discarded +
          ((s.recipients i).sendQueue.enqueue s.queueLimitBytes out).2 := rfl
    simp only [enqueueAt, totalDiscarded]
    rw [h.drops, ← BitVec.ofNat_add]
    congr 1
    simp only [totalDiscarded]
    omega
  · intro j hj
    have hne : j ≠ i := by
      rintro rfl
      exact absurd hi (by simpa [enqueueAt] using hj)
    simpa [enqueueAt, Function.update_of_ne hne] using h.unused j hj

theorem Accounted.with_broadcasting (h : Accounted s) {next : Option Broadcast}
    (hwaiting : ∀ b ∈ next, ∀ i ∈ b.waiting, i < s.accepted) :
    Accounted { s with broadcasting := next } :=
  ⟨h.sound, h.drops, h.unused, h.connections, hwaiting⟩

theorem accounted_beginBroadcast (h : Accounted s) (frame : List UInt8) (droppable : Bool) :
    Accounted (s.beginBroadcast frame droppable) := by
  unfold beginBroadcast
  split
  · exact h
  · refine ⟨h.sound, h.drops, h.unused, h.connections, ?_⟩
    intro b hb i hi
    obtain rfl : _ = b := Option.some.inj hb
    exact h.connections i (by simpa [Broadcast.waiting] using hi)

theorem accounted_acceptOne (h : Accounted s) : Accounted s.acceptOne := by
  unfold acceptOne
  split
  · exact h
  · rename_i hidle
    refine ⟨h.sound, ?_, ?_, ?_, ?_⟩
    · have hnew : (s.recipients s.accepted).discarded = 0 := by
        rw [h.unused s.accepted (Nat.le_refl _)]
      show s.drops = _
      simp only [totalDiscarded]
      rw [sum_range_succ, hnew, Nat.add_zero]
      exact h.drops
    · intro i hi
      exact h.unused i (Nat.le_of_succ_le hi)
    · intro i hi
      show i < s.accepted + 1
      rcases List.mem_append.mp hi with hold | hnew
      · have hlt := h.connections i (List.mem_filter.mp hold).1
        omega
      · rw [List.mem_singleton.mp hnew]
        omega
    · intro b hb
      simp [hidle] at hb

theorem accounted_check (h : Accounted s) : Accounted (s.step .check) := by
  simp only [step]
  split
  · rename_i out i rest hb
    apply h.with_broadcasting
    intro b hb' j hj
    obtain rfl : _ = b := Option.some.inj hb'
    apply h.waiting _ hb
    simp only [Broadcast.waiting] at hj ⊢
    split_ifs at hj <;> simp_all
  · exact h

theorem accounted_offer (h : Accounted s) : Accounted (s.step .offer) := by
  simp only [step]
  split
  · rename_i out i rest hb
    have hi : i < s.accepted := h.waiting _ hb i (by simp [Broadcast.waiting])
    apply (accounted_enqueueAt h hi out).with_broadcasting
    intro b hb' j hj
    obtain rfl : _ = b := Option.some.inj hb'
    exact h.waiting _ hb j (by simpa [Broadcast.waiting] using .inr hj)
  · exact h

theorem accounted_step (h : Accounted s) (e : Event) : Accounted (s.step e) := by
  cases e with
  | accept => exact accounted_acceptOne h
  | stop =>
    simp only [step]
    split_ifs
    · exact h
    · exact ⟨h.sound, h.drops, h.unused, by simp, h.waiting⟩
  | upgrade i =>
    exact accounted_modify (f := fun c => { c with upgraded := true }) h i
      (fun c hc => ⟨hc.delivery, hc.counted⟩) fun _ => rfl
  | leave i =>
    exact accounted_modify (f := fun c => { c with upgraded := false }) h i
      (fun c hc => ⟨hc.delivery, hc.counted⟩) fun _ => rfl
  | finish i =>
    exact accounted_modify (f := fun c => { c with finished := true }) h i
      (fun c hc => ⟨hc.delivery, hc.counted⟩) fun _ => rfl
  | broadcastBinary data => exact accounted_beginBroadcast h _ _
  | broadcastText text => exact accounted_beginBroadcast h _ _
  | check => exact accounted_check h
  | offer => exact accounted_offer h
  | release =>
    simp only [step]
    split
    · exact h.with_broadcasting (by simp)
    · exact h
  | pong i payload =>
    simp only [step]
    split_ifs with hup
    · exact accounted_enqueueAt h (h.of_upgraded hup) _
    · exact h
  | pop i => exact accounted_modify h i (fun c hc => hc.pop) fun c => c.pop_record.2
  | setPerClientQueueLimit bytes =>
    exact ⟨h.sound, h.drops, h.unused, h.connections, h.waiting⟩

def broadcasts (l : List Outgoing) : List Outgoing := l.filter (·.broadcast.isSome)

structure Ordered (s : StreamServer) : Prop where
  numbered : s.sent.map (·.broadcast) = (List.range s.sent.length).map some
  offered : ∀ i, (broadcasts (s.recipients i).offered).Sublist s.sent
  distinct : s.connections.Nodup
  waiting : ∀ b ∈ s.broadcasting, b.waiting.Nodup ∧ ∃ earlier, s.sent = earlier ++ [b.out] ∧
    ∀ i ∈ b.waiting, (broadcasts (s.recipients i).offered).Sublist earlier

theorem ordered_start (limit : ℕ) : Ordered (start limit) where
  numbered := rfl
  offered _ := List.Sublist.refl _
  distinct := List.nodup_nil
  waiting := by simp [start]

theorem Ordered.nodup_sent (h : Ordered s) : s.sent.Nodup := by
  apply List.Nodup.of_map (·.broadcast)
  rw [h.numbered]
  exact List.nodup_range.map (Option.some_injective ℕ)

theorem Ordered.of_offered_eq {s' : StreamServer} (h : Ordered s)
    (hoffered : ∀ i,
      broadcasts (s'.recipients i).offered = broadcasts (s.recipients i).offered)
    (hsent : s'.sent = s.sent) (hconnections : s'.connections.Nodup)
    (hwaiting : ∀ b' ∈ s'.broadcasting, ∃ b ∈ s.broadcasting, b'.out = b.out ∧
      b'.waiting.Sublist b.waiting) : Ordered s' := by
  refine ⟨by rw [hsent, h.numbered], ?_, hconnections, ?_⟩
  · intro i
    rw [hoffered, hsent]
    exact h.offered i
  · intro b' hb'
    obtain ⟨b, hb, hout, hsub⟩ := hwaiting b' hb'
    obtain ⟨hnodup, earlier, hearlier, hbefore⟩ := h.waiting b hb
    refine ⟨hnodup.sublist hsub, earlier, by rw [hsent, hearlier, hout], fun i hi => ?_⟩
    rw [hoffered]
    exact hbefore i (hsub.subset hi)

theorem ordered_modify (h : Ordered s) (i : ℕ) {f : Recipient → Recipient}
    (hoffered : ∀ c, (f c).offered = c.offered) : Ordered (s.modify i f) := by
  unfold modify
  split_ifs with hi
  · refine h.of_offered_eq (fun j => ?_) rfl h.distinct fun b hb => ⟨b, hb, rfl, .refl _⟩
    rcases eq_or_ne j i with rfl | hne
    · simp [hoffered]
    · simp [Function.update_of_ne hne]
  · exact h

theorem ordered_beginBroadcast (h : Ordered s) (frame : List UInt8) (droppable : Bool) :
    Ordered (s.beginBroadcast frame droppable) := by
  unfold beginBroadcast
  split
  · exact h
  · refine ⟨?_, fun i => (h.offered i).trans (List.sublist_append_left _ _), h.distinct, ?_⟩
    · simp [h.numbered, List.range_succ]
    · intro b hb
      obtain rfl : _ = b := Option.some.inj hb
      exact ⟨by simpa [Broadcast.waiting] using h.distinct, s.sent, rfl, fun i _ => h.offered i⟩

theorem ordered_acceptOne (ha : Accounted s) (h : Ordered s) : Ordered s.acceptOne := by
  unfold acceptOne
  split
  · exact h
  · rename_i hidle
    refine h.of_offered_eq (fun _ => rfl) rfl ?_ (by simp [hidle])
    have hnew : s.accepted ∉ s.connections := fun hmem =>
      absurd (ha.connections _ hmem) (Nat.lt_irrefl _)
    refine List.Nodup.append (h.distinct.filter _) (List.nodup_singleton _) fun i hi hlast => ?_
    rw [List.mem_singleton.mp hlast] at hi
    exact hnew (List.mem_filter.mp hi).1

theorem ordered_offer (h : Ordered s) {out : Outgoing} {i : ℕ} {remaining : List ℕ}
    (hb : s.broadcasting = some { out, admitted := some i, remaining }) :
    Ordered { s.enqueueAt i out with broadcasting := some { out, remaining } } := by
  obtain ⟨hnodup, earlier, hsent, hbefore⟩ := h.waiting _ hb
  have hi : i ∉ remaining := by
    have hcons : (i :: remaining).Nodup := by simpa [Broadcast.waiting] using hnodup
    exact (List.nodup_cons.mp hcons).1
  refine ⟨h.numbered, ?_, h.distinct, ?_⟩
  · intro j
    show (broadcasts ((s.enqueueAt i out).recipients j).offered).Sublist s.sent
    rcases eq_or_ne j i with rfl | hne
    · have hold := hbefore j (by simp [Broadcast.waiting])
      have hout : (broadcasts [out]).Sublist [out] := List.filter_sublist
      have hoffered : ((s.enqueueAt j out).recipients j).offered =
          (s.recipients j).offered ++ [out] := by simp [enqueueAt, Recipient.offer]
      rw [hoffered, broadcasts, List.filter_append, hsent]
      exact hold.append hout
    · simpa [enqueueAt, Function.update_of_ne hne] using h.offered j
  · intro b hb'
    obtain rfl : _ = b := Option.some.inj hb'
    refine ⟨hnodup.sublist (by simp [Broadcast.waiting]), earlier, hsent, fun j hj => ?_⟩
    have hj' : j ∈ remaining := by simpa [Broadcast.waiting] using hj
    have hne : j ≠ i := fun hji => hi (hji ▸ hj')
    simpa [enqueueAt, Function.update_of_ne hne] using
      hbefore j (by simp [Broadcast.waiting, hj'])

theorem ordered_pong (h : Ordered s) (i : ℕ) (out : Outgoing) (hout : out.broadcast = none) :
    Ordered (s.enqueueAt i out) := by
  refine h.of_offered_eq (fun j => ?_) rfl h.distinct fun b hb => ⟨b, hb, rfl, .refl _⟩
  rcases eq_or_ne j i with rfl | hne
  · simp [enqueueAt, Recipient.offer, broadcasts, hout]
  · simp [enqueueAt, Function.update_of_ne hne]

theorem ordered_step (ha : Accounted s) (h : Ordered s) (e : Event) : Ordered (s.step e) := by
  cases e with
  | accept => exact ordered_acceptOne ha h
  | stop =>
    simp only [step]
    split_ifs with hbusy
    · exact h
    · refine h.of_offered_eq (fun _ => rfl) rfl List.nodup_nil fun b hb => ?_
      exact absurd (by simp [show s.broadcasting = some b from hb]) hbusy
  | upgrade i => exact ordered_modify (f := fun c => { c with upgraded := true }) h i fun _ => rfl
  | leave i => exact ordered_modify (f := fun c => { c with upgraded := false }) h i fun _ => rfl
  | finish i => exact ordered_modify (f := fun c => { c with finished := true }) h i fun _ => rfl
  | broadcastBinary data => exact ordered_beginBroadcast h _ _
  | broadcastText text => exact ordered_beginBroadcast h _ _
  | check =>
    simp only [step]
    split
    · rename_i out i rest hb
      refine h.of_offered_eq (fun _ => rfl) rfl h.distinct fun b hb' => ⟨_, hb, ?_⟩
      obtain rfl : _ = b := Option.some.inj hb'
      refine ⟨rfl, ?_⟩
      simp only [Broadcast.waiting]
      split_ifs <;> simp
    · exact h
  | offer =>
    simp only [step]
    split
    · rename_i hb
      exact ordered_offer h hb
    · exact h
  | release =>
    simp only [step]
    split
    · exact h.of_offered_eq (fun _ => rfl) rfl h.distinct (by simp)
    · exact h
  | pong i payload =>
    simp only [step]
    split_ifs
    · exact ordered_pong h i _ rfl
    · exact h
  | pop i => exact ordered_modify h i fun c => c.pop_record.1
  | setPerClientQueueLimit bytes =>
    exact h.of_offered_eq (fun _ => rfl) rfl h.distinct fun b hb => ⟨b, hb, rfl, .refl _⟩

theorem accounted_ordered_run (limit : ℕ) (es : List Event) :
    Accounted (run (start limit) es) ∧ Ordered (run (start limit) es) :=
  Runs.invariant (I := fun s => Accounted s ∧ Ordered s)
    (fun _ e h => ⟨accounted_step h.1 e, ordered_step h.1 h.2 e⟩)
    ⟨accounted_start limit, ordered_start limit⟩ es

theorem bounded_enqueueAt (s : StreamServer) (i : ℕ) (out : Outgoing) :
    Bounded s.queueLimitBytes ((s.enqueueAt i out).recipients i).sendQueue := by
  simpa [enqueueAt, Recipient.offer] using
    bounded_enqueue s.queueLimitBytes (s.recipients i).sendQueue out

theorem modify_offered (s : StreamServer) (i j : ℕ) {f : Recipient → Recipient}
    (hf : ∀ c, (f c).offered = c.offered) :
    ((s.modify i f).recipients j).offered = (s.recipients j).offered := by
  unfold modify
  split_ifs
  · rcases eq_or_ne j i with rfl | hne
    · simp [hf]
    · simp [Function.update_of_ne hne]
  · rfl

theorem bounded_of_offered (s : StreamServer) (e : Event) (i : ℕ)
    (h : ((s.step e).recipients i).offered ≠ (s.recipients i).offered) :
    Bounded s.queueLimitBytes ((s.step e).recipients i).sendQueue := by
  have hother : ∀ j out, ((s.enqueueAt j out).recipients i).offered ≠ (s.recipients i).offered →
      Bounded s.queueLimitBytes ((s.enqueueAt j out).recipients i).sendQueue := by
    intro j out hchanged
    rcases eq_or_ne i j with rfl | hne
    · exact bounded_enqueueAt s i out
    · exact absurd (by simp [enqueueAt, Function.update_of_ne hne]) hchanged
  cases e with
  | offer =>
    simp only [step] at h ⊢
    split at h
    · exact hother _ _ h
    · exact absurd rfl h
  | pong j payload =>
    simp only [step] at h ⊢
    split_ifs at h ⊢
    · exact hother _ _ h
    · exact absurd rfl h
  | pop j => exact absurd (modify_offered s j i fun c => c.pop_record.1) h
  | upgrade j =>
    exact absurd (modify_offered (f := fun c => { c with upgraded := true }) s j i fun _ => rfl) h
  | leave j =>
    exact absurd (modify_offered (f := fun c => { c with upgraded := false }) s j i fun _ => rfl) h
  | finish j =>
    exact absurd (modify_offered (f := fun c => { c with finished := true }) s j i fun _ => rfl) h
  | accept => exact absurd (by simp only [step, acceptOne]; split <;> rfl) h
  | stop => exact absurd (by simp only [step]; split <;> rfl) h
  | broadcastBinary data => exact absurd (by simp only [step, beginBroadcast]; split <;> rfl) h
  | broadcastText text => exact absurd (by simp only [step, beginBroadcast]; split <;> rfl) h
  | check => exact absurd (by simp only [step]; split <;> rfl) h
  | release => exact absurd (by simp only [step]; split <;> rfl) h
  | setPerClientQueueLimit bytes => exact absurd rfl h

theorem Ordered.popped_sublist (ha : Accounted s) (h : Ordered s) (i : ℕ) :
    (broadcasts (s.recipients i).popped).Sublist s.sent := by
  have hpopped : (s.recipients i).popped.Sublist (s.recipients i).offered :=
    (List.sublist_append_left _ _).trans (ha.sound i).delivery.inOrder
  exact (hpopped.filter _).trans (h.offered i)

def overflowing : List Event := [.accept, .upgrade 0]

def emptyBroadcast : List Event := [.broadcastBinary [], .check, .offer, .release]

structure Stalled (n : ℕ) (s : StreamServer) : Prop where
  limit : s.queueLimitBytes = 0
  accepted : s.accepted = 1
  connections : s.connections = [0]
  idle : s.broadcasting = none
  upgraded : (s.recipients 0).upgraded = true
  queued : ∃ out : Outgoing, out.droppable = true ∧ out.frame = [0x82, 0x00] ∧
    (s.recipients 0).sendQueue = ⟨[out], 2⟩
  discarded : (s.recipients 0).discarded = n

theorem enqueue_stalled (old new : Outgoing) (hold : old.droppable = true)
    (hframe : old.frame = [0x82, 0x00]) (hnew : new.frame = [0x82, 0x00]) :
    enqueue 0 ⟨[old], 2⟩ new = (⟨[new], 2⟩, 1) := by
  have hpass : discardPass 0 ⟨[old, new], 4⟩ = some ⟨[new], 2⟩ := by
    simp [discardPass, hold, hframe]
  have hend : discardPass 0 ⟨[new], 2⟩ = none := by
    simp [discardPass]
  simp only [enqueue, hnew, List.singleton_append, List.length_cons, List.length_nil]
  show discard 0 ⟨[old, new], 4⟩ = _
  rw [discard_of_some hpass, discard_of_none hend]

theorem stalled_succ {n : ℕ} (h : Stalled n s) : Stalled (n + 1) (run s emptyBroadcast) := by
  obtain ⟨hlimit, haccepted, hconnections, hidle, hup, ⟨old, hold, hframe, hqueue⟩, hn⟩ := h
  have henqueue := enqueue_stalled old
    { frame := [0x82, 0x00], droppable := true, broadcast := some s.sent.length } hold hframe rfl
  have hbytes : writeFrame [] .binary [] = [0x82, 0x00] := by decide
  refine ⟨?_, ?_, ?_, ?_, ?_, ?_, ?_⟩ <;>
    simp [run, emptyBroadcast, step, beginBroadcast, enqueueAt, Recipient.offer, hidle,
      hconnections, hup, hlimit, haccepted, hqueue, hbytes, henqueue, hn]

/-- Delivery to each client, the accounting of its queue and of the drop counter, and the
order in which two clients see what both receive, after any run. -/
theorem per_client_delivery (limit : ℕ) (es : List Event) :
    let s := run (start limit) es
    (∀ i, let c := s.recipients i
      (c.popped ++ c.sendQueue.queue).Sublist c.offered ∧
      (c.popped ++ c.sendQueue.queue).filter (fun out => !out.droppable) =
        c.offered.filter (fun out => !out.droppable) ∧
      (∃ m, c.sendQueue.queue.filter (·.droppable) = (c.offered.filter (·.droppable)).rtake m) ∧
      c.sendQueue.queuedBytes =
        ((c.sendQueue.queue.map fun out => out.frame.length).sum : ℕ) ∧
      c.offered.length = c.popped.length + c.sendQueue.queue.length + c.discarded) ∧
    s.getDropCount = (s.totalDiscarded : ℤ).bmod (2 ^ 32) ∧
    (s.totalDiscarded < 2 ^ 31 → s.getDropCount = s.totalDiscarded) ∧
    (∀ e i, ((s.step e).recipients i).offered ≠ (s.recipients i).offered →
      let q := ((s.step e).recipients i).sendQueue
      q.queuedBytes ≤ s.queueLimitBytes ∨ q.queue.length = 1 ∨
        ∀ out ∈ q.queue, out.droppable = false) ∧
    (∀ i j, let seen := fun k => broadcasts (s.recipients k).popped
      (seen i).filter (fun out => decide (out ∈ seen j)) =
        (seen j).filter (fun out => decide (out ∈ seen i))) := by
  intro s
  obtain ⟨ha, ho⟩ := accounted_ordered_run limit es
  have hcount : s.getDropCount = (s.totalDiscarded : ℤ).bmod (2 ^ 32) := by
    rw [getDropCount, ha.drops]
    exact BitVec.toInt_ofNat' _
  refine ⟨fun i => ?_, hcount, fun hlt => ?_, fun e i => bounded_of_offered s e i, fun i j => ?_⟩
  · obtain ⟨hdelivery, hcounted⟩ := ha.sound i
    obtain ⟨m, hm⟩ := hdelivery.newest_eq
    exact ⟨hdelivery.inOrder, hdelivery.kept, ⟨m, hm⟩, hcounted, hdelivery.count⟩
  · rw [hcount]
    apply Int.bmod_eq_of_le <;> omega
  · exact shared_in_order (ho.popped_sublist ha i) (ho.popped_sublist ha j) ho.nodup_sent

/-- After `2 ^ 31` discards the counter reads as a negative number. -/
theorem drop_count_wraps :
    ∃ (limit : ℕ) (es : List Event),
      (run (start limit) es).getDropCount ≠ (run (start limit) es).totalDiscarded := by
  have hfirst : Stalled 0 (run (start 0) (overflowing ++ emptyBroadcast)) := by
    have hbytes : writeFrame [] .binary [] = [0x82, 0x00] := by decide
    have henqueue : enqueue 0 {} { frame := [0x82, 0x00], broadcast := some 0 } =
        (⟨[{ frame := [0x82, 0x00], broadcast := some 0 }], 2⟩, 0) :=
      discard_of_none (by simp [discardPass])
    refine ⟨?_, ?_, ?_, ?_, ?_, ?_, ?_⟩ <;>
      simp [run, overflowing, emptyBroadcast, start, step, acceptOne, modify, beginBroadcast,
        enqueueAt, Recipient.offer, hbytes, henqueue]
  have hrounds : ∀ n, ∃ es, Stalled n (run (start 0) es) := by
    intro n
    induction n with
    | zero => exact ⟨_, hfirst⟩
    | succ n ih =>
      obtain ⟨es, hes⟩ := ih
      refine ⟨es ++ emptyBroadcast, ?_⟩
      rw [run, Runs.run_append]
      exact stalled_succ hes
  obtain ⟨es, hes⟩ := hrounds (2 ^ 31)
  refine ⟨0, es, ?_⟩
  have htotal : (run (start 0) es).totalDiscarded = 2 ^ 31 := by
    rw [totalDiscarded, hes.accepted, sum_range_one, hes.discarded]
  rw [getDropCount, (accounted_ordered_run 0 es).1.drops, htotal]
  decide

end StreamServer
end Ppm.Server

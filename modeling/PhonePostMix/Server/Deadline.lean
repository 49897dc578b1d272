import PhonePostMix.Library.WrappingCounters
import PhonePostMix.Server.Wire

/-! How long a call of `writeAll` lasts, by a clock that wraps. -/

namespace Ppm.Server
open WrappingClock

/-- One look at the loop of `writeAll`: the time since the call began, and what the socket
answers if it is asked. -/
structure Look where
  elapsed : ℕ
  ready : ℤ := 1
  written : ℤ := 0

def Look.answers (start : UInt32) (l : Look) : Answers where
  counter := after start l.elapsed
  ready := l.ready
  written := l.written

structure WriteCall where
  w : WriteAll
  wire : List UInt8 := []
  returned : Option (Bool × ℕ) := none
  deriving DecidableEq

namespace WriteCall

def enter (data : List UInt8) (start : UInt32) : WriteCall where
  w := { data, deadline := start + writeDeadlineMs }

def step (start : UInt32) (call : WriteCall) (l : Look) : WriteCall :=
  match call.returned, call.w.pass (l.answers start) with
  | some _, _ => call
  | none, .returned ok => { call with returned := some (ok, l.elapsed) }
  | none, .again accepted w => { call with w, wire := call.wire ++ accepted }

def run (data : List UInt8) (start : UInt32) (looks : List Look) : WriteCall :=
  Runs.run (step start) (enter data start) looks

def Undisturbed (start : UInt32) (call : WriteCall) (l : Look) : Prop :=
  -- the socket reports no error and, once it is ready, accepts something
  call.w.sent < call.w.data.length → ¬ (l.answers start).counter > call.w.deadline →
    0 ≤ l.ready ∧ (l.ready ≠ 0 → 0 < call.w.written (l.answers start))

instance (start : UInt32) (call : WriteCall) (l : Look) : Decidable (Undisturbed start call l) :=
  inferInstanceAs (Decidable (_ → _ → _ ∧ _))

/-- The call gives up only after its time and otherwise sends everything. -/
structure Punctual (data : List UInt8) (start : UInt32) (looks : List Look) : Prop where
  early : ∀ elapsed, (run data start looks).returned = some (false, elapsed) →
    writeDeadlineMs.toNat ≤ elapsed
  complete : (run data start looks).returned = none → (run data start looks).wire = data →
    ∀ l, ((run data start looks).step start l).returned = some (true, l.elapsed)
  whole : ∀ elapsed, (run data start looks).returned = some (true, elapsed) →
    (run data start looks).wire = data

variable {start : UInt32} {call : WriteCall} {l : Look} {data : List UInt8}

theorem step_of_returned {result : Bool × ℕ} (h : call.returned = some result) :
    call.step start l = call := by
  unfold step
  rw [h]

theorem step_of_pass_returned {ok : Bool} (hnone : call.returned = none)
    (hpass : call.w.pass (l.answers start) = .returned ok) :
    call.step start l = { call with returned := some (ok, l.elapsed) } := by
  unfold step
  rw [hnone, hpass]

theorem step_of_pass_again {accepted : List UInt8} {w : WriteAll} (hnone : call.returned = none)
    (hpass : call.w.pass (l.answers start) = .again accepted w) :
    call.step start l = { call with w, wire := call.wire ++ accepted } := by
  unfold step
  rw [hnone, hpass]

section Connection
variable {owner : Owner} {c : Connection} {next : AfterWrite} {sent : List UInt8}

def Of (c : Connection) (next : AfterWrite) (sent : List UInt8) (call : WriteCall) : Prop :=
  c.phase = .writing call.w next ∧ c.wire = sent ++ call.wire ∧ call.returned = none

theorem of_enter (owner : Owner) (hphase : c.phase = .entering data next) (a : Answers) :
    Of (c.threadStep owner a) next c.wire (enter data a.counter) := by
  unfold Connection.threadStep
  rw [hphase]
  exact ⟨rfl, (List.append_nil _).symm, rfl⟩

theorem of_enqueue (out : Outgoing) (h : Of c next sent call) :
    Of (c.enqueue owner out) next sent call := by
  unfold Connection.enqueue
  split_ifs
  · exact h
  · exact h

theorem of_step (owner : Owner) (l : Look) (h : Of c next sent call) :
    Of (c.threadStep owner (l.answers start)) next sent (call.step start l) ∨
      ∃ ok, (call.step start l).returned = some (ok, l.elapsed) ∧
        c.threadStep owner (l.answers start) = c.afterWrite next ok := by
  obtain ⟨hphase, hwire, hnone⟩ := h
  have hstep : c.threadStep owner (l.answers start) = c.write call.w next (l.answers start) := by
    unfold Connection.threadStep
    rw [hphase]
  rw [hstep]
  unfold Connection.write
  cases hpass : call.w.pass (l.answers start) with
  | returned ok =>
    rw [step_of_pass_returned hnone hpass]
    exact .inr ⟨ok, rfl, rfl⟩
  | again accepted w =>
    rw [step_of_pass_again hnone hpass]
    refine .inl ⟨rfl, ?_, hnone⟩
    show c.wire ++ accepted = sent ++ (call.wire ++ accepted)
    rw [hwire, List.append_assoc]

end Connection

structure Sound (data : List UInt8) (start : UInt32) (call : WriteCall) : Prop where
  deadline : call.w.deadline = start + writeDeadlineMs
  offered : call.w.data = data
  split : call.wire ++ data.drop call.w.sent = data
  whole : ∀ elapsed, call.returned = some (true, elapsed) → call.wire = data

theorem sound_enter (data : List UInt8) (start : UInt32) : Sound data start (enter data start) :=
  ⟨rfl, rfl, rfl, by simp [enter]⟩

theorem pass_again_deadline {w w' : WriteAll} {a : Answers} {accepted : List UInt8}
    (h : w.pass a = .again accepted w') : w'.deadline = w.deadline := by
  unfold WriteAll.pass at h
  split_ifs at h
  · obtain ⟨-, rfl⟩ := WriteAll.Pass.again.inj h
    rfl
  · obtain ⟨-, rfl⟩ := WriteAll.Pass.again.inj h
    rfl

theorem sound_step (l : Look) (h : Sound data start call) :
    Sound data start (call.step start l) := by
  cases hreturned : call.returned with
  | some result => exact (step_of_returned hreturned).symm ▸ h
  | none =>
    cases hpass : call.w.pass (l.answers start) with
    | returned ok =>
      rw [step_of_pass_returned hreturned hpass]
      refine ⟨h.deadline, h.offered, h.split, fun elapsed htrue => ?_⟩
      obtain ⟨rfl, -⟩ := Prod.mk.inj (Option.some.inj htrue)
      have hnil := WriteAll.pass_returned_true hpass
      rw [h.offered] at hnil
      have hsplit := h.split
      rwa [hnil, List.append_nil] at hsplit
    | again accepted w =>
      rw [step_of_pass_again hreturned hpass]
      obtain ⟨hdata, hbytes⟩ := WriteAll.pass_again hpass
      rw [h.offered] at hdata hbytes
      refine ⟨(pass_again_deadline hpass).trans h.deadline, hdata, ?_, ?_⟩
      · rw [hdata] at hbytes
        show (call.wire ++ accepted) ++ data.drop w.sent = data
        rw [List.append_assoc, hbytes]
        exact h.split
      · intro elapsed htrue
        rw [show ({ call with w, wire := call.wire ++ accepted } : WriteCall).returned = none
          from hreturned] at htrue
        cases htrue

theorem sound_run (data : List UInt8) (start : UInt32) (looks : List Look) :
    Sound data start (run data start looks) :=
  Runs.invariant (fun _ l h => sound_step l h) (sound_enter data start) looks

theorem pass_of_all_sent {w : WriteAll} (h : w.data.drop w.sent = []) (a : Answers) :
    w.pass a = .returned true :=
  if_pos (Nat.not_lt.mpr (List.drop_eq_nil_iff.mp h))

theorem complete_of_sound (h : Sound data start call) (hnone : call.returned = none)
    (hwire : call.wire = data) (l : Look) :
    (call.step start l).returned = some (true, l.elapsed) := by
  have hrest : data.drop call.w.sent = [] := by
    have hsplit := h.split
    rw [hwire] at hsplit
    exact List.append_right_eq_self.mp hsplit
  rw [step_of_pass_returned hnone (pass_of_all_sent (h.offered.symm ▸ hrest) _)]

theorem passed_of_gives_up (h : Undisturbed start call l)
    (hpass : call.w.pass (l.answers start) = .returned false) :
    call.w.deadline < after start l.elapsed := by
  unfold WriteAll.pass at hpass
  by_contra hbefore
  split_ifs at hpass with hmore hexit hpassed herror hnotready hzero
  · cases hexit
  · exact hbefore hpassed
  · obtain ⟨hready, -⟩ := h hmore hpassed
    exact absurd herror (not_lt.mpr hready)
  · obtain ⟨-, hwritten⟩ := h hmore hpassed
    exact absurd (hwritten hnotready) (not_lt.mpr hzero)
  · cases hpass

/-- When no look meets a wrapped deadline before its own reading has wrapped. -/
def InTime (start : UInt32) (l : Look) : Prop :=
  start.toNat + writeDeadlineMs.toNat < 2 ^ 32 ∨ 2 ^ 32 ≤ start.toNat + l.elapsed

theorem early_step (hsound : Sound data start call)
    (h : ∀ elapsed, call.returned = some (false, elapsed) → writeDeadlineMs.toNat ≤ elapsed)
    (hundisturbed : Undisturbed start call l) (htime : InTime start l) (elapsed : ℕ)
    (hfalse : (call.step start l).returned = some (false, elapsed)) :
    writeDeadlineMs.toNat ≤ elapsed := by
  cases hreturned : call.returned with
  | some result =>
    rw [step_of_returned hreturned] at hfalse
    exact h elapsed hfalse
  | none =>
    cases hpass : call.w.pass (l.answers start) with
    | again accepted w =>
      rw [step_of_pass_again hreturned hpass] at hfalse
      exact h elapsed hfalse
    | returned ok =>
      rw [step_of_pass_returned hreturned hpass] at hfalse
      obtain ⟨rfl, rfl⟩ := Prod.mk.inj (Option.some.inj hfalse)
      have hpassed := passed_of_gives_up hundisturbed hpass
      rw [hsound.deadline] at hpassed
      exact timeout_le_of_passed htime hpassed

theorem early_run {looks : List Look} (htime : ∀ l ∈ looks, InTime start l)
    (h : Runs.Along (step start) (Undisturbed start) (enter data start) looks) (elapsed : ℕ)
    (hfalse : (run data start looks).returned = some (false, elapsed)) :
    writeDeadlineMs.toNat ≤ elapsed := by
  have hrun := Runs.invariant_along
    (I := fun call => Sound data start call ∧ ∀ elapsed,
      call.returned = some (false, elapsed) → writeDeadlineMs.toNat ≤ elapsed)
    (fun call l hcall hl => ⟨sound_step l hcall.1, early_step hcall.1 hcall.2 hl.1 hl.2⟩)
    ⟨sound_enter data start, by simp [enter]⟩ (h.and (Runs.along_of_forall_mem _ htime))
  exact hrun.2 elapsed hfalse

theorem run_nil_ne_false (start : UInt32) (looks : List Look) (elapsed : ℕ) :
    (run [] start looks).returned ≠ some (false, elapsed) := by
  have hrun : Sound [] start (run [] start looks) ∧
      ∀ elapsed, (run [] start looks).returned ≠ some (false, elapsed) := by
    refine Runs.invariant (I := fun call => Sound [] start call ∧
      ∀ elapsed, call.returned ≠ some (false, elapsed)) (fun call l hcall => ?_)
      ⟨sound_enter [] start, by simp [enter]⟩ looks
    refine ⟨sound_step l hcall.1, fun elapsed => ?_⟩
    cases hreturned : call.returned with
    | some result =>
      rw [step_of_returned hreturned]
      exact hcall.2 elapsed
    | none =>
      have hrest : call.w.data.drop call.w.sent = [] := by rw [hcall.1.offered, List.drop_nil]
      rw [step_of_pass_returned hreturned (pass_of_all_sent hrest _)]
      simp
  exact hrun.2 elapsed

theorem run_of_returned {result : Bool × ℕ} (h : call.returned = some result)
    (looks : List Look) : Runs.run (step start) call looks = call := by
  induction looks with
  | nil => rfl
  | cons l looks ih => rw [Runs.run_cons, step_of_returned h, ih]

theorem gives_up_at_once (hdata : data ≠ [])
    (hwrapped : 2 ^ 32 ≤ start.toNat + writeDeadlineMs.toNat)
    (hbefore : start.toNat + l.elapsed < 2 ^ 32) (looks : List Look) :
    (run data start (l :: looks)).returned = some (false, l.elapsed) := by
  have hpass : (enter data start).w.pass (l.answers start) = .returned false := by
    have hmore : (enter data start).w.sent < (enter data start).w.data.length :=
      List.length_pos_iff.mpr hdata
    have hpassed : (l.answers start).counter > (enter data start).w.deadline :=
      passed_of_wrapped hwrapped hbefore
    unfold WriteAll.pass
    rw [if_neg (not_not_intro hmore), if_pos hpassed]
    exact ite_self _
  have hreturned : ((enter data start).step start l).returned = some (false, l.elapsed) := by
    rw [step_of_pass_returned rfl hpass]
  show (Runs.run (step start) ((enter data start).step start l) looks).returned = _
  rw [run_of_returned hreturned, hreturned]

/-- `writeAll` keeps its time unless it has something to send, its deadline wraps and its first
look comes before the clock has wrapped. -/
theorem punctual_iff (data : List UInt8) (start : UInt32) {looks : List Look}
    (hclock : looks.Pairwise fun l l' => l.elapsed ≤ l'.elapsed)
    (hundisturbed : Runs.Along (step start) (Undisturbed start) (enter data start) looks) :
    Punctual data start looks ↔ data = [] ∨ start.toNat + 5000 < 2 ^ 32 ∨
      ∀ l ∈ looks.head?, 2 ^ 32 ≤ start.toNat + l.elapsed := by
  have hsound := sound_run data start looks
  constructor
  · intro h
    by_contra hno
    simp only [not_or, not_forall, not_le, not_lt] at hno
    obtain ⟨hdata, hwrapped, l, hhead, hbefore⟩ := hno
    cases looks with
    | nil => cases hhead
    | cons first looks =>
      obtain rfl := Option.some.inj hhead
      have hearly := h.early _ (gives_up_at_once hdata hwrapped hbefore looks)
      have hdeadline : writeDeadlineMs.toNat = 5000 := rfl
      omega
  · intro h
    refine ⟨?_, complete_of_sound hsound, hsound.whole⟩
    rcases h with rfl | hstart | hfirst
    · intro elapsed hfalse
      exact absurd hfalse (run_nil_ne_false start looks elapsed)
    · exact early_run (fun _ _ => .inl hstart) hundisturbed
    · refine early_run (fun l hl => .inr ?_) hundisturbed
      cases looks with
      | nil => cases hl
      | cons first looks =>
        have hwrapped := hfirst first rfl
        rcases List.mem_cons.mp hl with rfl | hmem
        · exact hwrapped
        · exact hwrapped.trans (Nat.add_le_add_left (List.rel_of_pairwise_cons hclock hmem) _)

theorem punctual_three_bytes :
    Punctual [1, 2, 3] 0 [⟨0, 0, 0⟩, ⟨100, 1, 2⟩, ⟨110, 1, 1⟩, ⟨6000, 1, 0⟩] :=
  (punctual_iff [1, 2, 3] 0 (by decide) (by decide)).mpr (.inr (.inl (by decide)))

theorem late_in_the_turn : (run [1] 4294967295 [⟨0, 1, 1⟩]).returned = some (false, 0) ∧
    ¬ Punctual [1] 4294967295 [⟨0, 1, 1⟩] := by
  have hreturned : (run [1] 4294967295 [⟨0, 1, 1⟩]).returned = some (false, 0) := by decide
  exact ⟨hreturned, fun h => absurd (h.early 0 hreturned) (by decide)⟩

end WriteCall
end Ppm.Server

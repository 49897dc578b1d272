import PhonePostMix.Engine.StreamEngine

/-! What the listeners are told about the host's transport: the loop announces a change, and the
hello and config messages of other threads repeat what they read. -/

namespace Ppm.Engine

inductive Telling where
  | build
  | broadcast (hostPlaying : Bool)
  | done
  deriving DecidableEq, Repr

/-- The engine, the loop's own state message, the hello and config messages in progress, and, for
each upgraded connection, the transport in the last message it was offered. -/
structure Announcer (α : Type) where
  engine : StreamEngine α := {}
  announcing : Telling := .done
  calls : List Telling := []
  clients : List (ℕ × Option Bool) := []

inductive AnnouncerEvent (α : Type) where
  | engine (ev : EngineEvent α)
  | advance (i : ℕ)
  | streamClientConnected (clientId : ℕ)
  | broadcastConfig
  | leave (clientId : ℕ)
  | serverStopped

namespace Announcer
variable {α : Type}

def tell (w : Announcer α) (playing : Bool) : Announcer α :=
  { w with clients := w.clients.map fun c => (c.1, some playing) }

variable [Zero α]

def stream (w : Announcer α) (clock : UInt32) : Announcer α :=
  -- a step of the loop. Between noticing a change and the rest of the iteration it builds the
  -- message, which reads `hostPlaying` again, and broadcasts it
  match w.announcing with
  | .build => { w with announcing := .broadcast w.engine.hostPlaying }
  | .broadcast playing => { w.tell playing with announcing := .done }
  | .done =>
    { w with
      engine := w.engine.streamStep clock
      announcing :=
        if w.engine.stage = some .readPlaying ∧ w.engine.hostPlaying ≠ w.engine.lastHostPlaying
        then .build else .done }

def advance (w : Announcer α) (i : ℕ) : Telling → Announcer α
  | .build => { w with calls := w.calls.set i (.broadcast w.engine.hostPlaying) }
  | .broadcast playing => { w.tell playing with calls := w.calls.set i .done }
  | .done => w

def step (w : Announcer α) : AnnouncerEvent α → Announcer α
  | .engine (.stream clock) => w.stream clock
  | .engine ev => { w with engine := w.engine.step ev }
  | .advance i =>
    match w.calls[i]? with
    | none => w
    | some call => w.advance i call
  | .streamClientConnected clientId =>
    { w with clients := w.clients ++ [(clientId, none)], calls := w.calls ++ [.build] }
  | .broadcastConfig =>
    if w.engine.serverRunning then { w with calls := w.calls ++ [.build] } else w
  | .leave clientId => { w with clients := w.clients.filter fun c => c.1 ≠ clientId }
  | .serverStopped => { w with clients := [] }

def run (w : Announcer α) (es : List (AnnouncerEvent α)) : Announcer α := Runs.run step w es

omit [Zero α] in
/-- Whoever has been told anything was told this last. -/
def Told (w : Announcer α) (playing : Bool) : Prop :=
  ∀ c ∈ w.clients, ∀ last ∈ c.2, last = playing

instance (w : Announcer α) (playing : Bool) : Decidable (w.Told playing) :=
  inferInstanceAs (Decidable (∀ c ∈ w.clients, _))

/-- With no change left to announce, no message says anything but the current state; the host
does not take a change back before it is noticed, nor is it missed when the loop begins, once a
listener has been told of it. -/
def Timely (w : Announcer α) (ev : AnnouncerEvent α) : Prop :=
  match ev, w.announcing with
  | .engine (.setHostPlaying playing), .done =>
    playing = w.engine.lastHostPlaying → w.Told playing
  | .engine (.stream _), .broadcast playing =>
    w.engine.hostPlaying = w.engine.lastHostPlaying → playing = w.engine.hostPlaying
  | .engine (.stream _), .done =>
    w.engine.stage = some .enter → w.Told w.engine.hostPlaying
  | .advance i, .done =>
    w.engine.hostPlaying = w.engine.lastHostPlaying →
      ∀ call ∈ w.calls[i]?, call = .build ∨ call = .done ∨ call = .broadcast w.engine.hostPlaying
  | _, _ => True

instance (w : Announcer α) (ev : AnnouncerEvent α) : Decidable (w.Timely ev) := by
  unfold Timely
  split <;> infer_instance

end Announcer

namespace StreamEngine
variable {α : Type} [Zero α]

theorem streamStep_playing (e : StreamEngine α) (clock : UInt32) :
    (e.streamStep clock).hostPlaying = e.hostPlaying ∧
      (e.streamStep clock).lastHostPlaying =
        if e.stage = some .enter ∨ e.stage = some .readPlaying then e.hostPlaying
        else e.lastHostPlaying := by
  unfold streamStep
  rcases hstage : e.stage with _ | s
  · exact ⟨rfl, by simp⟩
  cases s with
  | getSettings =>
    dsimp only
    split_ifs <;> simp_all
  | checkRing =>
    simp only [checkRing]
    split_ifs <;> simp_all
  | _ => exact ⟨rfl, by simp [resizeScratch, readRing, sendPacket]⟩

theorem step_playing (e : StreamEngine α) {ev : EngineEvent α} (h : ∀ clock, ev ≠ .stream clock) :
    (e.step ev).lastHostPlaying = e.lastHostPlaying ∧
      ((e.step ev).hostPlaying = e.hostPlaying ∨
        ev = .setHostPlaying (e.step ev).hostPlaying) := by
  cases ev with
  | stream clock => exact absurd rfl (h clock)
  | pushAudio buffer =>
    simp only [step, pushAudio]
    split_ifs <;> exact ⟨rfl, .inl rfl⟩
  | setSettings settings =>
    simp only [step, setSettings]
    split_ifs <;> exact ⟨rfl, .inl rfl⟩
  | setHostPlaying isPlaying => exact ⟨rfl, .inr rfl⟩
  | start bound =>
    simp only [step, start]
    split_ifs <;> exact ⟨rfl, .inl rfl⟩
  | stop =>
    simp only [step, stop]
    split_ifs <;> exact ⟨rfl, .inl rfl⟩
  | _ => exact ⟨rfl, .inl rfl⟩

end StreamEngine

namespace Announcer
variable {α : Type} [Zero α] {w : Announcer α}

structure Informed (w : Announcer α) : Prop where
  told : w.announcing = .done → w.engine.hostPlaying = w.engine.lastHostPlaying →
    w.Told w.engine.hostPlaying
  waiting : (∃ c ∈ w.clients, c.2 = none) → ∃ call ∈ w.calls, call ≠ .done

omit [Zero α] in
theorem told_tell (w : Announcer α) (playing : Bool) : (w.tell playing).Told playing := by
  intro c hc last hlast
  obtain ⟨c', -, rfl⟩ := List.mem_map.mp hc
  exact (Option.mem_some.mp hlast).symm

omit [Zero α] in
theorem tell_told (w : Announcer α) (playing : Bool) :
    ¬ ∃ c ∈ (w.tell playing).clients, c.2 = none := by
  rintro ⟨c, hc, hnone⟩
  obtain ⟨c', -, rfl⟩ := List.mem_map.mp hc
  cases hnone

theorem informed_stream (h : w.Informed) (clock : UInt32)
    (htimely : w.Timely (.engine (.stream clock))) : (w.stream clock).Informed := by
  unfold stream
  cases hannouncing : w.announcing with
  | build => exact ⟨fun hdone => (nomatch hdone), h.waiting⟩
  | broadcast playing =>
    simp only [Timely, hannouncing] at htimely
    refine ⟨fun _ hsame => ?_, fun hnone => absurd hnone (tell_told w playing)⟩
    exact htimely hsame ▸ told_tell w playing
  | done =>
    simp only [Timely, hannouncing] at htimely
    obtain ⟨hplaying, hlast⟩ := w.engine.streamStep_playing clock
    refine ⟨fun hdone hsame => ?_, h.waiting⟩
    dsimp only at hdone hsame ⊢
    rw [hplaying] at hsame ⊢
    rw [hlast] at hsame
    by_cases henter : w.engine.stage = some .enter
    · exact htimely henter
    by_cases hread : w.engine.stage = some .readPlaying
    · -- a change would have to be announced now
      refine h.told hannouncing ?_
      by_contra hchanged
      rw [if_pos ⟨hread, hchanged⟩] at hdone
      cases hdone
    · rw [if_neg (by simp [henter, hread])] at hsame
      exact h.told hannouncing hsame

omit [Zero α] in
theorem informed_advance (h : w.Informed) {i : ℕ} {call : Telling} (hcall : w.calls[i]? = some call)
    (htimely : w.Timely (.advance i)) : (w.advance i call).Informed := by
  obtain ⟨hi, -⟩ := List.getElem?_eq_some_iff.mp hcall
  cases call with
  | build =>
    exact ⟨h.told, fun _ => ⟨.broadcast w.engine.hostPlaying, List.mem_set hi _, by simp⟩⟩
  | broadcast playing =>
    refine ⟨fun hdone hsame => ?_, fun hnone => absurd hnone (tell_told w playing)⟩
    have hdone' : w.announcing = .done := hdone
    simp only [Timely, hdone'] at htimely
    have hnow : playing = w.engine.hostPlaying := by simpa using htimely hsame _ hcall
    exact hnow ▸ told_tell w playing
  | done => exact h

theorem informed_engine (h : w.Informed) {ev : EngineEvent α} (hev : ∀ clock, ev ≠ .stream clock)
    (htimely : w.Timely (.engine ev)) : Informed { w with engine := w.engine.step ev } := by
  obtain ⟨hlast, hplaying⟩ := w.engine.step_playing hev
  refine ⟨fun hdone hsame => ?_, h.waiting⟩
  dsimp only at hdone hsame ⊢
  rcases hplaying with hkept | hset
  · rw [hkept, hlast] at hsame
    rw [hkept]
    exact h.told hdone hsame
  · generalize (w.engine.step ev).hostPlaying = playing at hset hsame ⊢
    subst hset
    simp only [Timely, hdone] at htimely
    exact htimely (hsame.trans hlast)

theorem step_engine (w : Announcer α) {ev : EngineEvent α} (hev : ∀ clock, ev ≠ .stream clock) :
    w.step (.engine ev) = { w with engine := w.engine.step ev } := by
  cases ev with
  | stream clock => exact absurd rfl (hev clock)
  | _ => rfl

theorem informed_step (w : Announcer α) (ev : AnnouncerEvent α) (h : w.Informed)
    (htimely : w.Timely ev) : (w.step ev).Informed := by
  cases ev with
  | engine ev =>
    by_cases hstream : ∃ clock, ev = .stream clock
    · obtain ⟨clock, rfl⟩ := hstream
      exact informed_stream h clock htimely
    · rw [step_engine w (not_exists.mp hstream)]
      exact informed_engine h (not_exists.mp hstream) htimely
  | advance i =>
    simp only [step]
    split
    · exact h
    · rename_i call hcall
      exact informed_advance h hcall htimely
  | streamClientConnected clientId =>
    refine ⟨fun hdone hsame c hc last hlast => ?_, fun _ => ⟨.build, by simp [step], by simp⟩⟩
    rcases List.mem_append.mp hc with hold | hnew
    · exact h.told hdone hsame c hold last hlast
    · rw [List.mem_singleton.mp hnew] at hlast
      cases hlast
  | broadcastConfig =>
    simp only [step]
    split_ifs
    · refine ⟨h.told, fun hnone => ?_⟩
      obtain ⟨call, hcall, hdone⟩ := h.waiting hnone
      exact ⟨call, List.mem_append_left _ hcall, hdone⟩
    · exact h
  | leave clientId =>
    refine ⟨fun hdone hsame c hc => h.told hdone hsame c (List.mem_of_mem_filter hc), ?_⟩
    rintro ⟨c, hc, hnone⟩
    exact h.waiting ⟨c, List.mem_of_mem_filter hc, hnone⟩
  | serverStopped =>
    exact ⟨fun _ _ _ hc => (nomatch hc), fun ⟨_, hc, _⟩ => (nomatch hc)⟩

omit [Zero α] in
theorem informed_new : Informed ({} : Announcer α) :=
  ⟨fun _ _ _ hc => (nomatch hc), fun ⟨_, hc, _⟩ => (nomatch hc)⟩

theorem seen_step (w : Announcer α) (ev : AnnouncerEvent α)
    (hseen : w.engine.hostPlaying = w.engine.lastHostPlaying)
    (hquiet : ∀ playing, ev ≠ .engine (.setHostPlaying playing)) :
    (w.step ev).engine.hostPlaying = (w.step ev).engine.lastHostPlaying := by
  cases ev with
  | engine ev =>
    by_cases hstream : ∃ clock, ev = .stream clock
    · obtain ⟨clock, rfl⟩ := hstream
      simp only [step, stream]
      split
      · exact hseen
      · exact hseen
      · obtain ⟨hplaying, hlast⟩ := w.engine.streamStep_playing clock
        dsimp only
        rw [hplaying, hlast, ← hseen, ite_self]
    · rw [step_engine w (not_exists.mp hstream)]
      obtain ⟨hlast, hplaying⟩ := w.engine.step_playing (not_exists.mp hstream)
      rcases hplaying with hkept | hset
      · exact hkept.trans (hseen.trans hlast.symm)
      · exact absurd (congrArg AnnouncerEvent.engine hset) (hquiet _)
  | advance i =>
    simp only [step]
    split
    · exact hseen
    · rename_i call _
      cases call <;> exact hseen
  | broadcastConfig =>
    simp only [step]
    split_ifs <;> exact hseen
  | _ => exact hseen

theorem seen_looks (hannouncing : w.announcing = .done)
    (hstage : w.engine.stage = some .readPlaying) (clock : UInt32) :
    (w.step (.engine (.stream clock))).engine.hostPlaying =
      (w.step (.engine (.stream clock))).engine.lastHostPlaying := by
  obtain ⟨hplaying, hlast⟩ := w.engine.streamStep_playing clock
  simp only [step, stream, hannouncing]
  rw [hplaying, hlast, if_pos (.inr hstage)]

/-- In every timely run, once the loop has looked at the transport after its last change and
every message in progress has been broadcast, every listener has last been told the transport. -/
theorem converges_run (es es' : List (AnnouncerEvent α)) (clock : UInt32)
    (h : Runs.Along step Timely ({} : Announcer α) (es ++ .engine (.stream clock) :: es'))
    (hlooks : (run ({} : Announcer α) es).announcing = .done ∧
      (run ({} : Announcer α) es).engine.stage = some .readPlaying)
    (hquiet : ∀ playing, .engine (.setHostPlaying playing) ∉ es')
    (hdone : (run ({} : Announcer α) (es ++ .engine (.stream clock) :: es')).announcing = .done ∧
      ∀ call ∈ (run ({} : Announcer α) (es ++ .engine (.stream clock) :: es')).calls,
        call = .done) :
    ∀ c ∈ (run ({} : Announcer α) (es ++ .engine (.stream clock) :: es')).clients,
      c.2 =
        some (run ({} : Announcer α) (es ++ .engine (.stream clock) :: es')).engine.hostPlaying := by
  have hinformed : Informed (run ({} : Announcer α) (es ++ .engine (.stream clock) :: es')) :=
    Runs.invariant_along informed_step informed_new h
  have hseen : (run ({} : Announcer α) (es ++ .engine (.stream clock) :: es')).engine.hostPlaying =
      (run ({} : Announcer α) (es ++ .engine (.stream clock) :: es')).engine.lastHostPlaying := by
    rw [run, Runs.run_append, Runs.run_cons]
    refine Runs.invariant_along
      (I := fun w : Announcer α => w.engine.hostPlaying = w.engine.lastHostPlaying)
      (fun w ev hw hev => seen_step w ev hw hev) ?_
      (Runs.along_of_forall_mem _ fun ev hev playing => ?_)
    · exact seen_looks hlooks.1 hlooks.2 clock
    · rintro rfl
      exact hquiet playing hev
  intro c hc
  cases hlast : c.2 with
  | none =>
    obtain ⟨call, hcall, hpending⟩ := hinformed.waiting ⟨c, hc, hlast⟩
    exact absurd (hdone.2 call hcall) hpending
  | some last => exact congrArg some (hinformed.told hdone.1 hseen c hc last hlast)

def announced : List (AnnouncerEvent ℕ) :=
  [.engine (.start true), .engine (.stream 0), .streamClientConnected 1, .advance 0, .advance 0,
    .engine (.setHostPlaying true)] ++ List.replicate 3 (.engine (.stream 0))

theorem converges_announced :
    let w := run ({} : Announcer ℕ)
      (announced ++ .engine (.stream 0) :: List.replicate 2 (.engine (.stream 0)))
    w.engine.hostPlaying = true ∧ ∀ c ∈ w.clients, c.2 = some w.engine.hostPlaying :=
  ⟨by decide +kernel, converges_run announced _ 0 (by decide +kernel) (by decide +kernel)
    (by simp) (by decide +kernel)⟩

/-- A hello built before the change is broadcast after the announcement of it; and a change taken
back while it is announced leaves the announcement wrong. Both times the loop goes on with whole
iterations and has nothing more to say. -/
theorem stale_hello_last :
    let hello := run ({} : Announcer ℕ)
      ([.engine (.start true), .engine (.stream 0), .streamClientConnected 1, .advance 0,
        .engine (.setHostPlaying true)] ++ List.replicate 6 (.engine (.stream 0)) ++ [.advance 0] ++
        List.replicate 20 (.engine (.stream 0)))
    let flicker := run ({} : Announcer ℕ)
      ([.engine (.start true), .engine (.stream 0), .streamClientConnected 1, .advance 0, .advance 0,
        .engine (.setHostPlaying true)] ++ List.replicate 4 (.engine (.stream 0)) ++
        [.engine (.setHostPlaying false), .engine (.stream 0), .engine (.setHostPlaying true)] ++
        List.replicate 20 (.engine (.stream 0)))
    (hello.announcing = .done ∧ hello.calls = [.done] ∧ hello.engine.hostPlaying = true ∧
        hello.clients = [(1, some false)]) ∧
      (flicker.announcing = .done ∧ flicker.calls = [.done] ∧ flicker.engine.hostPlaying = true ∧
        flicker.clients = [(1, some false)]) ∧
      ¬ ∀ c ∈ hello.clients, c.2 = some hello.engine.hostPlaying :=
  ⟨by decide +kernel, by decide +kernel, by decide +kernel⟩

end Announcer
end Ppm.Engine

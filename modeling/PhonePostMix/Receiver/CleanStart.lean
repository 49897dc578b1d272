import PhonePostMix.Receiver.Incoming
import PhonePostMix.Receiver.Sampling

/-! What is heard first when the resampler starts, after whatever happened before. -/

namespace Ppm.Receiver

/-- The player, and whether since the resampler was last primed a frame had to be consumed while
fewer than two were buffered. -/
structure Listener where
  player : Player := {}
  starved : Bool := false

namespace Listener
open Player

def sampled (ratio concealDecay : ℚ) (t : Listener) : Listener where
  player := t.player.sampled ratio concealDecay
  starved :=
    if t.player.Waits then t.starved
    else t.player.resampler.primed && t.starved || decide t.player.Starves

def before (exp : ℚ → ℚ) (ctx : AudioContext) (now : ℚ) (count : ℕ) (t : Listener) (i : ℕ) :
    Listener :=
  (sampled ((t.player.atLoop ctx now count).ratio ctx) (concealDecay exp ctx))^[i]
    { t with player := t.player.atLoop ctx now count }

def step (exp : ℚ → ℚ) (ctx : AudioContext) (t : Listener) (i : Incoming) : Listener where
  player := t.player.take exp ctx i
  starved :=
    match i with
    | .event (.pull now count) =>
      if t.player.playing then (t.before exp ctx now count count).starved else t.starved
    | _ => t.starved

/-- If this sample primes the resampler it is the oldest buffered frame, and it is not concealed
before the ring has starved. -/
def CleanSample (ratio concealDecay : ℚ) (t : Listener) : Prop := ¬ t.player.Waits →
  (t.player.resampler.primed = false →
    (t.player.heard concealDecay).left = t.player.ring.l t.player.ring.read ∧
      (t.player.heard concealDecay).right = t.player.ring.r t.player.ring.read) ∧
  ((t.player.heard concealDecay).concealed = true →
    (t.sampled ratio concealDecay).starved = true)

def Clean (exp : ℚ → ℚ) (ctx : AudioContext) (t : Listener) : Incoming → Prop
  | .event (.pull now count) => t.player.playing = true → ∀ i < count,
    CleanSample ((t.player.atLoop ctx now count).ratio ctx) (concealDecay exp ctx)
      (t.before exp ctx now count i)
  | _ => True

/-- A sample and the one behind it are finite; or the first is NaN, which every product keeps. -/
def Proper (s next : Sample) : Prop := s.isFinite = true ∧ next.isFinite = true ∨ s = .nan

/-- If this sample primes the resampler, no concealment is left over, and on each channel the
oldest frame and the one behind it are proper. -/
def SettledSample (p : Player) : Prop := ¬ p.Waits → p.resampler.primed = false →
  p.conceal.active = false ∧
    Proper (p.ring.l p.ring.read) (p.ring.l p.ring.next.read) ∧
    Proper (p.ring.r p.ring.read) (p.ring.r p.ring.next.read)

def Settled (ctx : AudioContext) (t : Listener) : Incoming → Prop
  | .event (.pull now count) => t.player.playing = true → count ≠ 0 →
    SettledSample (t.player.atLoop ctx now count)
  | _ => True

def Caused (t : Listener) : Prop :=
  t.player.resampler.primed = true → t.player.conceal.active = true → t.starved = true

variable {t : Listener} {ratio d : ℚ}

theorem player_step (exp : ℚ → ℚ) (ctx : AudioContext) (t : Listener) (i : Incoming) :
    (t.step exp ctx i).player = t.player.take exp ctx i := rfl

section Sample

theorem interpolate_zero (prev next : Sample) :
    interpolate prev next 0 = prev ↔ Proper prev next := by
  have hzero (s : Sample) (h : s.isFinite = false) : s.scale 0 = .nan := by
    cases s with
    | number => cases h
    | infinity | nan => simp [Sample.scale]
  by_cases hfinite : prev.isFinite = true ∧ next.isFinite = true
  · refine iff_of_true ?_ (.inl hfinite)
    cases prev <;> cases next <;> simp_all [Sample.isFinite, interpolate_number]
  · have hlost : interpolate prev next 0 = .nan := by
      rw [interpolate, hzero _ (by simpa using fun h h' => hfinite ⟨h', h⟩)]
      cases prev <;> rfl
    rw [hlost, Proper, eq_comm, or_iff_right hfinite]

theorem ready_of_unprimed {p : Player} (hprimed : p.resampler.primed = false) :
    p.ready = p.prime := by
  have hphase : ⌊p.prime.resampler.phase⌋₊ = 0 := Nat.floor_zero
  rw [ready, started_of_unprimed hprimed, hphase, catchUp]

theorem not_starves_of_unprimed {p : Player} (hprimed : p.resampler.primed = false) :
    ¬ p.Starves := by
  have hphase : ⌊p.prime.resampler.phase⌋₊ = 0 := Nat.floor_zero
  rw [Starves, started_of_unprimed hprimed, hphase, runsDry]
  decide

theorem concealed_heard {p : Player} (h : ¬ p.Waits) :
    (p.heard d).concealed = p.ready.conceal.active := by
  rw [heard_of_not_waits h]
  rfl

theorem active_of_ready {p : Player} (hprimed : p.resampler.primed = true)
    (hfed : ¬ p.Starves) (hactive : p.ready.conceal.active = true) : p.conceal.active = true := by
  rw [Starves, Bool.not_eq_true, started_of_primed hprimed] at hfed
  have hkept := (catchUp_fed (I := fun q => q.conceal.active = true → p.conceal.active = true)
    (fun _ _ _ _ hno => Bool.noConfusion hno) _ le_rfl hfed id).1
  rw [ready, started_of_primed hprimed] at hactive
  exact hkept hactive

theorem starved_of_unprimed (h : ¬ t.player.Waits) (hprimed : t.player.resampler.primed = false) :
    (t.sampled ratio d).starved = false := by
  simp only [sampled, if_neg h, hprimed, Bool.false_and, Bool.false_or,
    decide_eq_false (not_starves_of_unprimed hprimed)]

theorem heard_of_unprimed {p : Player} (h : ¬ p.Waits) (hprimed : p.resampler.primed = false)
    (hactive : p.conceal.active = false) :
    p.heard d = ⟨interpolate (p.ring.l p.ring.read) (p.ring.l p.ring.next.read) 0,
      interpolate (p.ring.r p.ring.read) (p.ring.r p.ring.next.read) 0, false⟩ := by
  have hprime : p.prime.conceal.active = false := hactive
  rw [heard_of_not_waits h, ready_of_unprimed hprimed]
  simp only [voice, hprime, Bool.false_eq_true, if_false]
  rfl

theorem cleanSample_of_unprimed (h : ¬ t.player.Waits)
    (hprimed : t.player.resampler.primed = false) :
    t.CleanSample ratio d ↔ SettledSample t.player := by
  have hstarved : (t.sampled ratio d).starved = false := starved_of_unprimed h hprimed
  have hconcealed := concealed_heard (d := d) h
  rw [ready_of_unprimed hprimed] at hconcealed
  cases hactive : t.player.conceal.active with
  | true =>
    refine iff_of_false (fun hclean => ?_) (fun hsettled => ?_)
    · have hcaused := (hclean h).2 (hconcealed.trans hactive)
      exact absurd (hcaused.symm.trans hstarved) (by decide)
    · exact absurd (hactive.symm.trans (hsettled h hprimed).1) (by decide)
  | false =>
    have hheard := heard_of_unprimed (d := d) h hprimed hactive
    have hnever : ¬ (t.player.heard d).concealed = true := by
      rw [hheard]
      exact Bool.false_ne_true
    rw [CleanSample, SettledSample, hheard, interpolate_zero, interpolate_zero]
    rw [hheard] at hnever
    constructor
    · intro hclean _ _
      exact ⟨hactive, (hclean h).1 hprimed⟩
    · intro hsettled _
      exact ⟨fun _ => (hsettled h hprimed).2, fun hno => absurd hno hnever⟩

theorem cleanSample_of_primed (ht : t.Caused) (hprimed : t.player.resampler.primed = true) :
    t.CleanSample ratio d := by
  intro h
  refine ⟨fun hnot => absurd (hprimed.symm.trans hnot) (by decide), fun hconcealed => ?_⟩
  rw [concealed_heard h] at hconcealed
  simp only [sampled, if_neg h, hprimed, Bool.true_and]
  by_cases hstarves : t.player.Starves
  · simp [hstarves]
  · simp [ht hprimed (active_of_ready hprimed hstarves hconcealed)]

theorem cleanSample_of_settled (ht : t.Caused) (hsettled : SettledSample t.player) :
    t.CleanSample ratio d := by
  cases hprimed : t.player.resampler.primed with
  | true => exact cleanSample_of_primed ht hprimed
  | false =>
    intro h
    exact (cleanSample_of_unprimed h hprimed).mpr hsettled h

theorem caused_sampled (ht : t.Caused) (hclean : t.CleanSample ratio d) :
    (t.sampled ratio d).Caused := by
  intro hprimed hactive
  by_cases h : t.player.Waits
  · simp only [sampled, sampled_of_waits h, if_pos h] at hprimed hactive ⊢
    exact ht hprimed hactive
  · apply (hclean h).2
    rw [concealed_heard h]
    have hplayer : (t.sampled ratio d).player = t.player.ready.emitted ratio d :=
      sampled_of_not_waits h
    rwa [hplayer] at hactive

end Sample

section Pull
variable {exp : ℚ → ℚ} {ctx : AudioContext}

theorem player_before (t : Listener) (now : ℚ) (count i : ℕ) :
    (t.before exp ctx now count i).player = t.player.before exp ctx now count i := by
  induction i with
  | zero => rfl
  | succ i ih =>
    rw [before, Player.before, Function.iterate_succ_apply', Function.iterate_succ_apply']
    exact congrArg (Player.sampled _ _) ih

theorem caused_atLoop (ht : t.Caused) (now : ℚ) (count : ℕ) :
    Caused { t with player := t.player.atLoop ctx now count } := by
  have hsteered := steered_atLoop ctx t.player now count
  intro hprimed hactive
  dsimp only at hprimed hactive
  rw [hsteered.resampler] at hprimed
  rw [hsteered.conceal] at hactive
  exact ht hprimed hactive

theorem settledSample_before {now : ℚ} {count : ℕ}
    (hsettled : SettledSample (t.player.atLoop ctx now count)) (i : ℕ) :
    SettledSample (t.player.before exp ctx now count i) := by
  intro h hprimed
  have hsame : t.player.before exp ctx now count i = t.player.atLoop ctx now count :=
    sampled_unprimed i hprimed
  rw [hsame] at h hprimed ⊢
  exact hsettled h hprimed

theorem clean_before (ht : t.Caused) {now : ℚ} {count : ℕ}
    (hsettled : SettledSample (t.player.atLoop ctx now count)) (i : ℕ) :
    (t.before exp ctx now count i).Caused ∧
      CleanSample ((t.player.atLoop ctx now count).ratio ctx) (concealDecay exp ctx)
        (t.before exp ctx now count i) := by
  have hsample (i : ℕ) (hcaused : (t.before exp ctx now count i).Caused) :
      CleanSample ((t.player.atLoop ctx now count).ratio ctx) (concealDecay exp ctx)
        (t.before exp ctx now count i) := by
    apply cleanSample_of_settled hcaused
    rw [player_before]
    exact settledSample_before hsettled i
  induction i with
  | zero => exact ⟨caused_atLoop ht now count, hsample 0 (caused_atLoop ht now count)⟩
  | succ i ih =>
    have hcaused : (t.before exp ctx now count (i + 1)).Caused := by
      rw [before, Function.iterate_succ_apply']
      exact caused_sampled ih.1 ih.2
    exact ⟨hcaused, hsample (i + 1) hcaused⟩

theorem settled_of_clean {i : Incoming} (hclean : t.Clean exp ctx i) : t.Settled ctx i := by
  cases i with
  | control message => trivial
  | event e =>
    cases e with
    | pull now count =>
      intro hplaying hcount h hprimed
      have hfirst := hclean hplaying 0 (Nat.pos_of_ne_zero hcount)
      exact (cleanSample_of_unprimed h hprimed).mp hfirst h hprimed
    | _ => trivial

theorem clean_of_settled (ht : t.Caused) {i : Incoming} (hsettled : t.Settled ctx i) :
    t.Clean exp ctx i := by
  cases i with
  | control message => trivial
  | event e =>
    cases e with
    | pull now count =>
      intro hplaying i hi
      exact (clean_before ht (hsettled hplaying (by omega)) i).2
    | _ => trivial

theorem caused_quiet (ht : t.Caused) {i : Incoming}
    (hpull : ¬ ∃ now count, i = .event (.pull now count)) : (t.step exp ctx i).Caused := by
  obtain ⟨hconceal, hresampler⟩ := take_quiet exp ctx t.player hpull
  have hstarved : (t.step exp ctx i).starved = t.starved := by
    unfold step
    split
    · exact absurd ⟨_, _, rfl⟩ hpull
    · rfl
  intro (hprimed : (t.player.take exp ctx i).resampler.primed = true)
    (hactive : (t.player.take exp ctx i).conceal.active = true)
  rw [hstarved]
  rw [hconceal] at hactive
  rw [hresampler] at hprimed
  unfold cleared at hprimed
  split_ifs at hprimed
  · cases hprimed
  · exact ht hprimed hactive

theorem caused_pull (ht : t.Caused) (now : ℚ) (count : ℕ)
    (hsettled : t.Settled ctx (.event (.pull now count))) :
    (t.step exp ctx (.event (.pull now count))).Caused := by
  cases hplaying : t.player.playing with
  | false =>
    have hplayer : t.player.take exp ctx (.event (.pull now count)) = t.player :=
      congrArg Prod.snd (pull_stopped exp ctx now count hplaying)
    simp only [step, hplayer, hplaying, Bool.false_eq_true, if_false]
    exact ht
  | true =>
    have hcaused : (t.before exp ctx now count count).Caused := by
      by_cases hcount : count = 0
      · subst hcount
        exact caused_atLoop ht now 0
      · exact (clean_before ht (hsettled hplaying hcount) count).1
    have hplayer := pull_player exp ctx now count hplaying
    rw [← player_before] at hplayer
    simp only [step, take, Player.step, hplaying, if_true]
    rw [hplayer]
    exact hcaused

theorem caused_step (ht : t.Caused) {i : Incoming} (hsettled : t.Settled ctx i) :
    (t.step exp ctx i).Caused := by
  by_cases hpull : ∃ now count, i = .event (.pull now count)
  · obtain ⟨now, count, rfl⟩ := hpull
    exact caused_pull ht now count hsettled
  · exact caused_quiet ht hpull

/-- In a run from the start of the page, every call of `pull` starts cleanly exactly when every
call that primes finds no concealment left over and proper frames to start from. -/
theorem clean_start (exp : ℚ → ℚ) (ctx : AudioContext) (is : List Incoming) :
    Runs.Along (step exp ctx) (Clean exp ctx) {} is ↔
      Runs.Along (step exp ctx) (Settled ctx) {} is := by
  constructor
  · exact Runs.along_of_invariant (I := fun _ => True)
      (fun _ _ _ hclean => ⟨trivial, settled_of_clean hclean⟩) trivial
  · exact Runs.along_of_invariant (I := Caused)
      (fun _ _ ht hsettled => ⟨caused_step ht hsettled, clean_of_settled ht hsettled⟩)
      (fun hno _ => Bool.noConfusion hno)

end Pull

section Outage

theorem active_of_phase {p : Player} {ratio d : ℚ} (h : ¬ p.Waits)
    (hphase : 1 + ratio ≤ (p.sampled ratio d).resampler.phase) :
    (p.sampled ratio d).conceal.active = true := by
  rw [sampled_of_not_waits h] at hphase ⊢
  rcases phase_catchUp (p := p.started) _ le_rfl with hless | hactive
  · have hsum : 1 + ratio ≤ p.ready.resampler.phase + ratio := hphase
    have hready : p.ready.resampler.phase < 1 := hless
    linarith
  · exact hactive

theorem active_pull (exp : ℚ → ℚ) {p : Player} {owed : ℚ} {low high : ℤ}
    (h : p.At true owed low high) (hlow : 1 ≤ low) {count : ℕ} (hcount : count ≠ 0)
    (howed : 3 < owed + 998 / 1000 * count) :
    (p.step exp phone (.pull 0 count)).conceal.active = true := by
  obtain ⟨n, rfl⟩ := Nat.exists_eq_succ_of_ne_zero hcount
  have hend := at_pull exp h hlow (n + 1)
  have hloop := at_atLoop h (n + 1)
  have hratio : (p.atLoop phone 0 (n + 1)).ratio phone ≤ 1002 / 1000 := by
    have hrange := (ratio_range phone hloop.sound).2
    rw [hloop.stream] at hrange
    norm_num [audioStream, phone] at hrange ⊢
    exact hrange
  have hphase : 3 ≤ (p.step exp phone (.pull 0 (n + 1))).resampler.phase := by
    have howing := hend.owed
    have hfill : (1 : ℚ) ≤ (p.step exp phone (.pull 0 (n + 1))).ring.fill := by
      exact_mod_cast hend.low
    linarith
  have hprimed := primed_before exp phone 0 (n + 1) h.primed n
  rw [Player.step, pull_player exp phone 0 (n + 1) h.playing, before_succ] at hphase ⊢
  exact active_of_phase (not_waits_of_primed hprimed) (le_trans (by linarith) hphase)

theorem conceal_packet (exp : ℚ → ℚ) (p : Player) (buffer : List UInt8) :
    (p.step exp phone (.packet buffer)).conceal = p.conceal :=
  (take_quiet exp phone p (i := .event (.packet buffer)) nofun).1

theorem conceal_reset (exp : ℚ → ℚ) (p : Player) :
    (p.step exp phone .ringReset).conceal = p.conceal := rfl

def interrupted (samples : List UInt8) : List Incoming :=
  -- three packets, four calls of `pull`, in which the ring runs out, a reset and three packets
  [.event (.setPlaying true), .event .refreshFloor, .event (.packet (audioPacket 0 samples)),
    .event (.packet (audioPacket 1 samples)), .event (.packet (audioPacket 2 samples)),
    .event (.pull 0 4096), .event (.pull 0 4096), .event (.pull 0 4096), .event (.pull 0 4096),
    .event .ringReset, .event (.packet (audioPacket 3 samples)),
    .event (.packet (audioPacket 4 samples)), .event (.packet (audioPacket 5 samples))]

theorem interrupted_spec (exp : ℚ → ℚ) {samples : List UInt8} (hsamples : samples.length = 16384) :
    let p := (Runs.run (step exp phone) {} (interrupted samples)).player
    p.At false (-12288) 12288 12288 ∧ p.conceal.active = true := by
  have hfirst := at_listening exp hsamples
  have hthree := at_packet exp (at_packet exp hfirst (by decide) 1 hsamples) (by decide) 2 hsamples
  have hone := at_first_pull exp hthree (by decide) (by decide : 4096 ≠ 0)
  have hrun := at_pull exp (at_pull exp hone le_rfl 4096) le_rfl 4096
  have hactive := active_pull exp hrun le_rfl (by decide : 4096 ≠ 0) (by norm_num)
  have hdry := (at_pull exp hrun le_rfl 4096).ringReset
  have hback := at_packet exp (at_packet exp (at_packet exp hdry (by decide) 3 hsamples) (by decide)
    4 hsamples) (by decide) 5 hsamples
  have hlistening : (({} : Player).step exp phone (.setPlaying true)).step exp phone .refreshFloor =
      listening := rfl
  simp -implicitDefEqProofs only [interrupted, Runs.run_cons, Runs.run_nil, player_step, take_event,
    hlistening]
  refine ⟨hback.mono (by norm_num) (by decide) (by decide), ?_⟩
  rw [conceal_packet, conceal_packet, conceal_packet, conceal_reset]
  exact hactive

/-- A socket closed during an underrun leaves the concealment to the first sample of the next
connection. -/
theorem interrupted_not_clean :
    ¬ Runs.Along (step (fun x => (1 - x)⁻¹) phone) (Clean (fun x => (1 - x)⁻¹) phone) {}
      (interrupted (List.replicate 16384 0) ++ [.event (.pull 0 4096)]) := by
  obtain ⟨hat, hactive⟩ :=
    interrupted_spec (fun x => (1 - x)⁻¹) (List.length_replicate (n := 16384) (a := 0))
  rw [Runs.along_append]
  rintro ⟨-, hclean, -⟩
  generalize Runs.run (step (fun x => (1 - x)⁻¹) phone) {} _ = t at hat hactive hclean
  have hloop := at_atLoop hat 4096
  have hwaits : ¬ (t.player.atLoop phone 0 4096).Waits := by
    rintro ⟨-, hless | hfew⟩
    · have hfill : (12288 : ℚ) ≤ (t.player.atLoop phone 0 4096).ring.fill := by
        exact_mod_cast hloop.low
      rw [hloop.targetFrames] at hless
      linarith
    · have hfill := hloop.low
      omega
  have hsettled := (settled_of_clean hclean hat.playing (by decide) hwaits hloop.primed).1
  rw [(steered_atLoop phone t.player 0 4096).conceal, hactive] at hsettled
  cases hsettled

end Outage

end Listener
end Ppm.Receiver

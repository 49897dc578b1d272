import PhonePostMix.Receiver.Recovery

/-! The sample loop of `pull` one sample at a time: what a sample does to the player, and what is
heard. -/

namespace Ppm.Receiver
namespace Player

def Waits (p : Player) : Prop :=
  p.resampler.primed = false ∧ ((p.ring.fill : ℚ) < p.targetFrames ∨ p.ring.fill < 2)

instance (p : Player) : Decidable p.Waits := inferInstanceAs (Decidable (_ ∧ _))

def started (p : Player) : Player := if p.resampler.primed then p else p.prime

def ready (p : Player) : Player := p.started.catchUp ⌊p.started.resampler.phase⌋₊

def runsDry : ℕ → Player → Bool
  -- the `while` loop, of at most `n` iterations, finds fewer than two frames when it has to
  -- consume one
  | 0, _ => false
  | n + 1, p =>
    if p.resampler.phase < 1 then false
    else if p.ring.fill < 2 then true
    else runsDry n p.consume

def Starves (p : Player) : Prop := p.started.runsDry ⌊p.started.resampler.phase⌋₊ = true

instance (p : Player) : Decidable p.Starves := inferInstanceAs (Decidable (_ = _))

def emitted (ratio concealDecay : ℚ) (p : Player) : Player :=
  { p with
    conceal :=
      { p.conceal with
        gain := if p.conceal.active then p.conceal.gain * concealDecay else p.conceal.gain }
    resampler := { p.resampler with phase := p.resampler.phase + ratio } }

def voice (concealDecay : ℚ) (p : Player) : Output :=
  let channel (prev next : Sample) : Sample :=
    if p.conceal.active then prev.scale (p.conceal.gain * concealDecay)
    else interpolate prev next p.resampler.phase
  ⟨channel p.resampler.prevL (p.ring.l p.ring.read),
    channel p.resampler.prevR (p.ring.r p.ring.read), p.conceal.active⟩

def sampled (ratio concealDecay : ℚ) (p : Player) : Player :=
  if p.Waits then p else p.ready.emitted ratio concealDecay

def silence (p : Player) : Output := ⟨.number 0, .number 0, p.conceal.active⟩

def heard (concealDecay : ℚ) (p : Player) : Output :=
  if p.Waits then p.silence else p.ready.voice concealDecay

variable {p : Player} {ratio d : ℚ}

section CatchUp

theorem catchUp_invariant {I : Player → Prop}
    (hconsume : ∀ p, I p → 1 ≤ p.resampler.phase → 2 ≤ p.ring.fill → I p.consume)
    (hunderrun : ∀ p, I p → 1 ≤ p.resampler.phase → p.ring.fill < 2 → I p.underrun)
    (n : ℕ) (hp : I p) : I (p.catchUp n) := by
  induction n generalizing p with
  | zero => exact hp
  | succ n ih =>
    unfold catchUp
    split_ifs with hless hlast
    · exact hp
    · exact hunderrun p hp (not_lt.mp hless) hlast
    · exact ih (hconsume p hp (not_lt.mp hless) (not_lt.mp hlast))

theorem catchUp_fed {I : Player → Prop}
    (hconsume : ∀ p, I p → 1 ≤ p.resampler.phase → 2 ≤ p.ring.fill → I p.consume)
    (n : ℕ) (hn : ⌊p.resampler.phase⌋₊ ≤ n) (hfed : p.runsDry n = false) (hp : I p) :
    I (p.catchUp n) ∧ (p.catchUp n).resampler.phase < 1 := by
  induction n generalizing p with
  | zero => exact ⟨hp, Nat.floor_eq_zero.mp (Nat.le_zero.mp hn)⟩
  | succ n ih =>
    unfold catchUp
    unfold runsDry at hfed
    split_ifs at hfed ⊢ with hless hlast
    · exact ⟨hp, hless⟩
    · have hfloor : ⌊p.consume.resampler.phase⌋₊ ≤ n := by
        show ⌊p.resampler.phase - 1⌋₊ ≤ n
        rw [Nat.floor_sub_one]
        omega
      exact ih hfloor hfed (hconsume p hp (not_lt.mp hless) (not_lt.mp hlast))

theorem active_underrun (p : Player) : p.underrun.conceal.active = true := by
  unfold underrun
  split_ifs with hactive
  · exact hactive
  · rfl

theorem active_catchUp_of_dry (n : ℕ) (hdry : p.runsDry n = true) :
    (p.catchUp n).conceal.active = true := by
  induction n generalizing p with
  | zero => cases hdry
  | succ n ih =>
    unfold catchUp
    unfold runsDry at hdry
    split_ifs at hdry ⊢
    · exact active_underrun p
    · exact ih hdry

theorem phase_catchUp (n : ℕ) (hn : ⌊p.resampler.phase⌋₊ ≤ n) :
    (p.catchUp n).resampler.phase < 1 ∨ (p.catchUp n).conceal.active = true := by
  cases hdry : p.runsDry n with
  | true => exact .inr (active_catchUp_of_dry n hdry)
  | false =>
    exact .inl (catchUp_fed (I := fun _ => True) (fun _ _ _ _ => trivial) n hn hdry trivial).2

end CatchUp

section Sample

theorem sample_of_waits (b : Block) (h : b.player.Waits) : b.sample ratio d = b.wait := if_pos h

theorem sample_of_not_waits (b : Block) (h : ¬ b.player.Waits) :
    b.sample ratio d = Block.emit ratio d { b with player := b.player.ready } := if_neg h

theorem output_emit (b : Block) :
    (b.emit ratio d).output = b.output ++ [b.player.voice d] := by
  unfold Block.emit voice
  dsimp only
  split_ifs <;> rfl

theorem player_sample (b : Block) :
    (b.sample ratio d).player = b.player.sampled ratio d := by
  unfold sampled
  split_ifs with hwaits
  · rw [sample_of_waits b hwaits]
    rfl
  · rw [sample_of_not_waits b hwaits]
    rfl

theorem output_sample (b : Block) :
    (b.sample ratio d).output = b.output ++ [b.player.heard d] := by
  unfold heard
  split_ifs with hwaits
  · rw [sample_of_waits b hwaits]
    rfl
  · rw [sample_of_not_waits b hwaits, output_emit]

theorem player_samples (n : ℕ) (b : Block) :
    ((Block.sample ratio d)^[n] b).player = (sampled ratio d)^[n] b.player := by
  induction n with
  | zero => rfl
  | succ n ih => rw [Function.iterate_succ_apply', Function.iterate_succ_apply', player_sample, ih]

theorem output_samples (n : ℕ) (b : Block) :
    ((Block.sample ratio d)^[n] b).output =
      b.output ++ (List.range n).map fun i => ((sampled ratio d)^[i] b.player).heard d := by
  induction n with
  | zero => simp
  | succ n ih =>
    rw [Function.iterate_succ_apply', output_sample, player_samples, ih, List.range_succ,
      List.map_append, List.map_singleton, List.append_assoc]

theorem sampled_of_waits (h : p.Waits) : p.sampled ratio d = p := if_pos h

theorem sampled_of_not_waits (h : ¬ p.Waits) : p.sampled ratio d = p.ready.emitted ratio d :=
  if_neg h

theorem heard_of_not_waits (h : ¬ p.Waits) : p.heard d = p.ready.voice d := if_neg h

theorem started_of_primed (h : p.resampler.primed = true) : p.started = p := if_pos h

theorem started_of_unprimed (h : p.resampler.primed = false) : p.started = p.prime := by
  rw [started, h]
  rfl

theorem primed_started (p : Player) : p.started.resampler.primed = true := by
  unfold started
  split_ifs with hprimed
  · exact hprimed
  · rfl

theorem same_ready (p : Player) : Same p.started p.ready :=
  catchUp_invariant (fun _ h _ _ => h.trans ⟨rfl, rfl, rfl, rfl, rfl, rfl⟩)
    (fun _ h _ _ => h.trans same_underrun) _ (.refl _)

theorem not_waits_of_primed (h : p.resampler.primed = true) : ¬ p.Waits := fun hwaits =>
  absurd (hwaits.1.symm.trans h) (by decide)

theorem primed_sampled (h : ¬ p.Waits) : (p.sampled ratio d).resampler.primed = true := by
  rw [sampled_of_not_waits h]
  exact (same_ready p).primed.trans (primed_started p)

theorem not_waits_iterate (n : ℕ) (h : ¬ p.Waits) : ¬ ((sampled ratio d)^[n] p).Waits := by
  induction n with
  | zero => exact h
  | succ n ih =>
    rw [Function.iterate_succ_apply']
    exact not_waits_of_primed (primed_sampled ih)

theorem ready_invariant {I : Player → Prop}
    (hprime : ∀ p, I p → p.resampler.primed = false → 2 ≤ p.ring.fill → I p.prime)
    (hconsume : ∀ p, I p → 1 ≤ p.resampler.phase → 2 ≤ p.ring.fill → I p.consume)
    (hunderrun : ∀ p, I p → 1 ≤ p.resampler.phase → p.ring.fill < 2 → I p.underrun)
    (h : ¬ p.Waits) (hp : I p) : I p.ready := by
  apply catchUp_invariant hconsume hunderrun
  cases hprimed : p.resampler.primed with
  | true =>
    rw [started_of_primed hprimed]
    exact hp
  | false =>
    rw [started_of_unprimed hprimed]
    exact hprime p hp hprimed (not_lt.mp fun hfew => h ⟨hprimed, .inr hfew⟩)

theorem sampled_unprimed (n : ℕ)
    (h : ((sampled ratio d)^[n] p).resampler.primed = false) :
    (sampled ratio d)^[n] p = p := by
  induction n with
  | zero => rfl
  | succ n ih =>
    rw [Function.iterate_succ_apply'] at h ⊢
    by_cases hwaits : ((sampled ratio d)^[n] p).Waits
    · rw [sampled_of_waits hwaits]
      exact ih hwaits.1
    · rw [primed_sampled hwaits] at h
      cases h

end Sample

section Pull
variable (exp : ℚ → ℚ) (ctx : AudioContext) (now : ℚ) (count : ℕ)

def concealDecay : ℚ := exp (-1 / (6 / 1000 * ctx.sampleRate))

def before (p : Player) (i : ℕ) : Player :=
  (sampled ((p.atLoop ctx now count).ratio ctx) (concealDecay exp ctx))^[i]
    (p.atLoop ctx now count)

theorem before_succ (p : Player) (i : ℕ) :
    p.before exp ctx now count (i + 1) =
      (p.before exp ctx now count i).sampled ((p.atLoop ctx now count).ratio ctx)
        (concealDecay exp ctx) :=
  Function.iterate_succ_apply' _ i _

theorem before_invariant {I : Player → Prop} (hloop : I (p.atLoop ctx now count))
    (hsampled : ∀ q, I q →
      I (q.sampled ((p.atLoop ctx now count).ratio ctx) (concealDecay exp ctx)))
    (i : ℕ) : I (p.before exp ctx now count i) :=
  Function.Iterate.rec I hloop hsampled i

theorem primed_before (hprimed : p.resampler.primed = true) (i : ℕ) :
    (p.before exp ctx now count i).resampler.primed = true := by
  refine before_invariant (I := fun q => q.resampler.primed = true) exp ctx now count ?_
    (fun q hq => primed_sampled (not_waits_of_primed hq)) i
  rw [(steered_atLoop ctx p now count).resampler]
  exact hprimed

theorem pull_output (hplaying : p.playing = true) :
    (p.pull exp ctx now count).1 =
      (List.range count).map fun i =>
        (p.before exp ctx now count i).heard (concealDecay exp ctx) := by
  have hpull : (p.pull exp ctx now count).1 = (p.block exp ctx now count).output := by
    simp only [pull, hplaying, Bool.not_true, Bool.false_eq_true, if_false]
  rw [hpull, block, output_samples]
  rfl

theorem pull_player (hplaying : p.playing = true) :
    (p.pull exp ctx now count).2 =
      { p.before exp ctx now count count with meter := (p.pull exp ctx now count).2.meter } := by
  have hblock : (p.block exp ctx now count).player = p.before exp ctx now count count :=
    player_samples count _
  rw [← hblock]
  simp only [pull, hplaying, Bool.not_true, Bool.false_eq_true, if_false]

theorem pull_stopped (hplaying : p.playing = false) :
    p.pull exp ctx now count = (List.replicate count p.silence, p) := by
  simp only [pull, hplaying, Bool.not_false, if_true]
  rfl

end Pull

end Player
end Ppm.Receiver

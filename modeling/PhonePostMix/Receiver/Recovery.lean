import PhonePostMix.Library.Runs
import PhonePostMix.Receiver.Packet

/-! What a past underrun does to the audio that follows it. Every sample of an underrun adds to
the phase of the resampler, and the phase is paid back out of the frames that arrive. -/

namespace Ppm.Receiver

/-- `pull` comes with the reading of `performance.now()`, and the slider sets the target. -/
inductive PlayerEvent where
  | packet (buffer : List UInt8)
  | ringReset
  | pull (now : ℚ) (count : ℕ)
  | refreshFloor
  | slider (ms : ℚ)
  | setPlaying (value : Bool)

namespace Player

def playhead (p : Player) : Playhead ℚ := ⟨p.resampler.phase, p.ring.fill.toNat, p.conceal.active⟩

structure Sound (p : Player) : Prop where
  ring : p.ring.Valid
  sampleRate : 0 ≤ p.stream.sampleRate
  correction : -2 / 1000 ≤ p.drift.correction ∧ p.drift.correction ≤ 2 / 1000
  phase : 0 ≤ p.resampler.phase

variable {p : Player}

theorem playhead_fill (hp : Sound p) : (p.playhead.fill : ℤ) = p.ring.fill :=
  Int.toNat_of_nonneg (Ring.fill_nonneg hp.ring)

theorem sound_consume (hp : Sound p) (h : 1 ≤ p.resampler.phase) : Sound p.consume :=
  ⟨Ring.valid_next hp.ring, hp.sampleRate, hp.correction, sub_nonneg.mpr h⟩

theorem playhead_consume (hp : Sound p) (h : 2 ≤ p.ring.fill) :
    p.consume.playhead = ⟨p.playhead.phase - 1, p.playhead.fill - 1, false⟩ := by
  have hfill : p.consume.ring.fill = p.ring.fill - 1 := Ring.fill_next hp.ring (by omega)
  have hnat : p.consume.ring.fill.toNat = p.ring.fill.toNat - 1 := by omega
  simp only [playhead, hnat]
  rfl

theorem underrun_playhead : p.underrun.playhead = { p.playhead with starved := true } := by
  unfold underrun
  split_ifs with hactive
  · simp only [playhead, hactive]
  · rfl

structure Same (p q : Player) : Prop where
  stream : q.stream = p.stream
  drift : q.drift = p.drift
  target : q.target = p.target
  playing : q.playing = p.playing
  primed : q.resampler.primed = p.resampler.primed
  write : q.ring.write = p.ring.write

theorem Same.refl (p : Player) : Same p p := ⟨rfl, rfl, rfl, rfl, rfl, rfl⟩

theorem Same.trans {q r : Player} (h : Same p q) (h' : Same q r) : Same p r :=
  ⟨h'.stream.trans h.stream, h'.drift.trans h.drift, h'.target.trans h.target,
    h'.playing.trans h.playing, h'.primed.trans h.primed, h'.write.trans h.write⟩

theorem same_underrun : Same p p.underrun := by
  unfold underrun
  split_ifs
  · exact .refl p
  · exact ⟨rfl, rfl, rfl, rfl, rfl, rfl⟩

theorem sound_underrun (hp : Sound p) : Sound p.underrun := by
  unfold underrun
  split_ifs
  · exact hp
  · exact ⟨hp.ring, hp.sampleRate, hp.correction, hp.phase⟩

theorem catchUp_spec (hp : Sound p) (n : ℕ) (hn : ⌊p.resampler.phase⌋₊ ≤ n) :
    Sound (p.catchUp n) ∧ Same p (p.catchUp n) ∧
      (1 ≤ p.ring.fill → (p.catchUp n).playhead = p.playhead.pay) := by
  induction n generalizing p with
  | zero =>
    have hless : p.playhead.phase < 1 := Nat.floor_eq_zero.mp (Nat.le_zero.mp hn)
    exact ⟨hp, .refl p, fun _ => (Playhead.pay_of_lt_one hless).symm⟩
  | succ n ih =>
    have hnat := playhead_fill hp
    unfold catchUp
    split_ifs with hless hlast
    · exact ⟨hp, .refl p, fun _ => (Playhead.pay_of_lt_one hless).symm⟩
    · refine ⟨sound_underrun hp, same_underrun, fun _ => ?_⟩
      rw [Playhead.pay_of_last (not_lt.mp hless) (by omega)]
      exact underrun_playhead
    · have hphase : 1 ≤ p.resampler.phase := not_lt.mp hless
      have hfloor : ⌊p.consume.resampler.phase⌋₊ ≤ n := by
        show ⌊p.resampler.phase - 1⌋₊ ≤ n
        rw [Nat.floor_sub_one]
        omega
      have hconsume : Same p p.consume := ⟨rfl, rfl, rfl, rfl, rfl, rfl⟩
      have hnext : p.consume.ring.fill = p.ring.fill - 1 := Ring.fill_next hp.ring (by omega)
      obtain ⟨hsound, hsame, hpay⟩ := ih (sound_consume hp hphase) hfloor
      refine ⟨hsound, hconsume.trans hsame, fun _ => (hpay (by omega)).trans ?_⟩
      rw [playhead_consume hp (by omega)]
      exact Playhead.pay_step hphase (by omega)

end Player

namespace Block
open Player
variable {b : Block} {ratio d : ℚ}

theorem emit_spec (hratio : 0 ≤ ratio) (hp : Sound b.player) :
    Sound (emit ratio d b).player ∧ Same b.player (emit ratio d b).player ∧
      (emit ratio d b).player.playhead =
        { b.player.playhead with phase := b.player.playhead.phase + ratio } ∧
      (emit ratio d b).output.map Output.concealed =
        b.output.map Output.concealed ++ [b.player.playhead.starved] := by
  refine ⟨⟨hp.ring, hp.sampleRate, hp.correction, add_nonneg hp.phase hratio⟩,
    ⟨rfl, rfl, rfl, rfl, rfl, rfl⟩, rfl, ?_⟩
  rw [emit, List.map_append]
  rfl

theorem sound_sample (hratio : 0 ≤ ratio) (hp : Sound b.player) :
    Sound (sample ratio d b).player := by
  have hprimed : Sound (if b.player.resampler.primed then b.player else b.player.prime) := by
    split_ifs
    · exact hp
    · exact ⟨Ring.valid_next hp.ring, hp.sampleRate, hp.correction, le_rfl⟩
  unfold sample
  dsimp only
  split_ifs at hprimed ⊢
  all_goals first
    | exact hp
    | exact (emit_spec hratio (catchUp_spec hprimed _ le_rfl).1).1

theorem sound_samples (hratio : 0 ≤ ratio) (n : ℕ) (hp : Sound b.player) :
    Sound ((sample ratio d)^[n] b).player := by
  induction n with
  | zero => exact hp
  | succ n ih =>
    rw [Function.iterate_succ_apply']
    exact sound_sample hratio ih

theorem sample_spec (hratio : 0 ≤ ratio) (hp : Sound b.player)
    (hprimed : b.player.resampler.primed = true) (hfill : 1 ≤ b.player.ring.fill) :
    Same b.player (sample ratio d b).player ∧
      (sample ratio d b).player.playhead = b.player.playhead.advance ratio ∧
      (sample ratio d b).output.map Output.concealed =
        b.output.map Output.concealed ++ [b.player.playhead.pay.starved] := by
  obtain ⟨hsound, hsame, hpay⟩ :=
    catchUp_spec hp ⌊b.player.resampler.phase⌋₊ le_rfl
  have hsample : sample ratio d b = emit ratio d
      { b with player := b.player.catchUp ⌊b.player.resampler.phase⌋₊ } := by
    simp [sample, hprimed]
  obtain ⟨-, hkept, hadvance, hflags⟩ := emit_spec (d := d) hratio
    (b := { b with player := b.player.catchUp ⌊b.player.resampler.phase⌋₊ }) hsound
  rw [hsample, hadvance, hflags, hpay hfill]
  exact ⟨hsame.trans hkept, rfl, rfl⟩

theorem samples_spec (hratio : 0 ≤ ratio) (n : ℕ) (hp : Sound b.player)
    (hprimed : b.player.resampler.primed = true) (hfill : 1 ≤ b.player.ring.fill) :
    Same b.player ((sample ratio d)^[n] b).player ∧
      ((sample ratio d)^[n] b).player.playhead =
        Playhead.after ratio n b.player.playhead ∧
      ((sample ratio d)^[n] b).output.map Output.concealed =
        b.output.map Output.concealed ++ Playhead.starvation ratio n b.player.playhead := by
  induction n generalizing b with
  | zero => exact ⟨.refl _, rfl, by simp [Playhead.starvation]⟩
  | succ n ih =>
    obtain ⟨hsame, hadvance, hflags⟩ :=
      sample_spec (d := d) hratio hp hprimed hfill
    have hsound := sound_sample (d := d) hratio hp
    have hleft : 1 ≤ (sample ratio d b).player.ring.fill := by
      have hnat := playhead_fill hp
      have hpos := Playhead.pay_fill_pos (p := b.player.playhead) (by omega)
      have hnext := playhead_fill hsound
      rw [hadvance] at hnext
      rw [← hnext]
      exact_mod_cast hpos
    obtain ⟨hrest, hafter, hmore⟩ := ih hsound (hsame.primed.trans hprimed) hleft
    rw [Function.iterate_succ_apply]
    refine ⟨hsame.trans hrest, ?_, ?_⟩
    · rw [hafter, hadvance, Playhead.after, Playhead.after, Function.iterate_succ_apply]
    · rw [hmore, hflags, hadvance, List.append_assoc]
      rfl

theorem samples_balance (hratio : 0 ≤ ratio) (n : ℕ) (hp : Sound b.player)
    (hprimed : b.player.resampler.primed = true) (hfill : 1 ≤ b.player.ring.fill) :
    let q := ((sample ratio d)^[n] b).player
    Same b.player q ∧ 1 ≤ q.ring.fill ∧ q.ring.fill ≤ b.player.ring.fill ∧
      q.resampler.phase - q.ring.fill =
        b.player.resampler.phase - b.player.ring.fill + n * ratio := by
  obtain ⟨hsame, hafter, -⟩ := samples_spec (d := d) hratio n hp hprimed hfill
  have hnat := playhead_fill hp
  have hend := playhead_fill (sound_samples (d := d) hratio n hp)
  obtain ⟨hpos, hle, hbalance⟩ :=
    Playhead.after_balance (p := b.player.playhead) n (by omega)
  rw [← hafter] at hpos hle hbalance
  refine ⟨hsame, by omega, by omega, ?_⟩
  have hcast : (((sample ratio d)^[n] b).player.playhead.fill : ℚ) =
      ((sample ratio d)^[n] b).player.ring.fill := by exact_mod_cast hend
  have hcast' : (b.player.playhead.fill : ℚ) = b.player.ring.fill := by exact_mod_cast hnat
  rw [hcast, hcast'] at hbalance
  exact hbalance

theorem sample_prime (hprimed : b.player.resampler.primed = false)
    (htarget : b.player.targetFrames ≤ b.player.ring.fill) (htwo : 2 ≤ b.player.ring.fill) :
    sample ratio d b = sample ratio d { b with player := b.player.prime } := by
  have hgo : ¬ (b.player.resampler.primed = false ∧
      ((b.player.ring.fill : ℚ) < b.player.targetFrames ∨ b.player.ring.fill < 2)) := by
    rintro ⟨-, hless | hless⟩
    · exact absurd hless (not_lt.mpr htarget)
    · omega
  have hprime : b.player.prime.resampler.primed = true := rfl
  have hgoes : ¬ (b.player.prime.resampler.primed = false ∧
      ((b.player.prime.ring.fill : ℚ) < b.player.prime.targetFrames ∨
        b.player.prime.ring.fill < 2)) := by
    rintro ⟨hnot, -⟩
    exact absurd (hprime.symm.trans hnot) (by decide)
  unfold sample
  dsimp only
  rw [if_neg hgo, if_neg hgoes, if_pos hprime, hprimed]
  rfl

end Block

namespace Player
variable {p : Player} (exp : ℚ → ℚ) (ctx : AudioContext)

def step (p : Player) : PlayerEvent → Player
  | .packet buffer => p.handlePacket exactTarget buffer
  | .ringReset => p.ringReset
  | .pull now count => (p.pull exp ctx now count).2
  | .refreshFloor => p.refreshFloor ctx
  | .slider ms => { p with target := { p.target with ms } }.refreshFloor ctx
  | .setPlaying value => { p with playing := value }

def run (p : Player) (es : List PlayerEvent) : Player := Runs.run (step exp ctx) p es

/-- The call of `pull` finds the player playing and primed and, when it enters its sample loop,
enough frames in the ring for the whole block. -/
def Enough (p : Player) (now : ℚ) (count : ℕ) : Prop :=
  p.playing = true ∧ p.resampler.primed = true ∧
    ⌈(count : ℚ) * (p.atLoop ctx now count).ratio ctx⌉ + 2 ≤ (p.atLoop ctx now count).ring.fill

/-- A call of `pull` that finds enough frames conceals no sample. -/
def Recovers (p : Player) : PlayerEvent → Prop
  | .pull now count => p.Enough ctx now count →
    ∀ o ∈ (p.pull exp ctx now count).1, o.concealed = false
  | _ => True

/-- When a call of `pull` finds enough frames, they also pay what past underruns have left in
the phase, and no concealment is left over from before the ring was last reset. -/
def DebtCovered (p : Player) : PlayerEvent → Prop
  | .pull now count => p.Enough ctx now count → count = 0 ∨
    p.resampler.phase + (count - 1) * (p.atLoop ctx now count).ratio ctx <
        (p.atLoop ctx now count).ring.fill ∧
      (p.conceal.active = true → 1 ≤ p.resampler.phase)
  | _ => True

theorem clamp_range (x : ℚ) : -2 / 1000 ≤ max (-2 / 1000) (min (2 / 1000) x) ∧
    max (-2 / 1000) (min (2 / 1000) x) ≤ 2 / 1000 :=
  ⟨le_max_left _ _, max_le (by norm_num) (min_le_left _ _)⟩

theorem sound_new : Sound {} :=
  ⟨Ring.valid_of_zero rfl rfl, by norm_num, by norm_num, le_rfl⟩

theorem sound_ringReset (hp : Sound p) : Sound p.ringReset :=
  ⟨Ring.valid_of_zero rfl rfl, hp.sampleRate, by norm_num [ringReset], le_rfl⟩

structure Steered (now : ℚ) (p q : Player) : Prop where
  resampler : q.resampler = p.resampler
  conceal : q.conceal = p.conceal
  stream : q.stream = p.stream
  target : q.target = p.target
  playing : q.playing = p.playing
  ring : q.ring = p.ring ∨ ∃ wanted, q.ring = p.ring.discardTo wanted
  quiet : now = 0 → p.drift.outOfRangeSince = 0 →
    q.ring = p.ring ∧ q.drift.outOfRangeSince = 0
  range : -2 / 1000 ≤ p.drift.correction ∧ p.drift.correction ≤ 2 / 1000 →
    -2 / 1000 ≤ q.drift.correction ∧ q.drift.correction ≤ 2 / 1000

theorem steered_atLoop (p : Player) (now : ℚ) (count : ℕ) :
    Steered now p (p.atLoop ctx now count) := by
  unfold atLoop updateDrift resynchronise
  dsimp only
  split_ifs with hwanted _ hfirst hlong
  · exact ⟨rfl, rfl, rfl, rfl, rfl, .inl rfl, fun _ h => ⟨rfl, h⟩, id⟩
  · exact ⟨rfl, rfl, rfl, rfl, rfl, .inl rfl, fun h _ => ⟨rfl, h⟩, fun _ => clamp_range _⟩
  · exact ⟨rfl, rfl, rfl, rfl, rfl, .inr ⟨_, rfl⟩, fun _ h => absurd h hfirst,
      fun _ => clamp_range _⟩
  · exact ⟨rfl, rfl, rfl, rfl, rfl, .inl rfl, fun _ h => ⟨rfl, h⟩, fun _ => clamp_range _⟩
  · exact ⟨rfl, rfl, rfl, rfl, rfl, .inl rfl, fun _ _ => ⟨rfl, rfl⟩, fun _ => clamp_range _⟩

theorem Steered.sound {now : ℚ} {q : Player} (h : Steered now p q) (hp : Sound p) : Sound q := by
  refine ⟨?_, h.stream ▸ hp.sampleRate, h.range hp.correction, h.resampler ▸ hp.phase⟩
  rcases h.ring with hsame | ⟨wanted, hdiscard⟩
  · exact hsame ▸ hp.ring
  · exact hdiscard ▸ Ring.valid_discardTo hp.ring wanted

theorem ratio_range (hp : Sound p) :
    998 / 1000 * (p.stream.sampleRate / ctx.sampleRate) ≤ p.ratio ctx ∧
      p.ratio ctx ≤ 1002 / 1000 * (p.stream.sampleRate / ctx.sampleRate) := by
  have hrate : 0 ≤ p.stream.sampleRate / ctx.sampleRate :=
    div_nonneg hp.sampleRate ctx.sampleRate_pos.le
  obtain ⟨hlow, hhigh⟩ := hp.correction
  have hleast : 998 / 1000 ≤ 1 + p.drift.correction := by linarith
  have hmost : 1 + p.drift.correction ≤ 1002 / 1000 := by linarith
  rw [ratio, mul_comm (p.stream.sampleRate / ctx.sampleRate) (1 + p.drift.correction)]
  exact ⟨mul_le_mul_of_nonneg_right hleast hrate, mul_le_mul_of_nonneg_right hmost hrate⟩

theorem ratio_nonneg (hp : Sound p) : 0 ≤ p.ratio ctx := by
  have hrate : 0 ≤ p.stream.sampleRate / ctx.sampleRate :=
    div_nonneg hp.sampleRate ctx.sampleRate_pos.le
  exact (mul_nonneg (by norm_num) hrate).trans (ratio_range ctx hp).1

theorem sound_block (hp : Sound p) (now : ℚ) (count : ℕ) :
    Sound (p.block exp ctx now count).player := by
  have hloop := (steered_atLoop ctx p now count).sound hp
  exact Block.sound_samples (b := { player := p.atLoop ctx now count })
    (ratio_nonneg ctx hloop) count hloop

theorem sound_pull (hp : Sound p) (now : ℚ) (count : ℕ) : Sound (p.pull exp ctx now count).2 := by
  have hend := sound_block exp ctx hp now count
  unfold pull
  split_ifs
  · exact hp
  · exact ⟨hend.ring, hend.sampleRate, hend.correction, hend.phase⟩

theorem pull_concealed (hp : Sound p) (now : ℚ) (count : ℕ) (hplaying : p.playing = true)
    (hprimed : p.resampler.primed = true) (hfill : 1 ≤ (p.atLoop ctx now count).ring.fill) :
    (p.pull exp ctx now count).1.map Output.concealed =
      Playhead.starvation ((p.atLoop ctx now count).ratio ctx) count
        (p.atLoop ctx now count).playhead := by
  have hsteered := steered_atLoop ctx p now count
  have hloop := hsteered.sound hp
  obtain ⟨-, -, hflags⟩ := Block.samples_spec (b := { player := p.atLoop ctx now count })
    (d := exp (-1 / (6 / 1000 * ctx.sampleRate))) (ratio_nonneg ctx hloop) count hloop
    (hsteered.resampler ▸ hprimed) hfill
  have hpull : (p.pull exp ctx now count).1 = (p.block exp ctx now count).output := by
    simp only [pull, hplaying, Bool.not_true, Bool.false_eq_true, if_false]
  rw [hpull]
  exact hflags

theorem recovers_iff (hp : Sound p) (ev : PlayerEvent) :
    p.Recovers exp ctx ev ↔ p.DebtCovered ctx ev := by
  cases ev with
  | pull now count =>
    apply forall_congr'
    rintro ⟨hplaying, hprimed, henough⟩
    have hsteered := steered_atLoop ctx p now count
    have hloop := hsteered.sound hp
    have hratio := ratio_nonneg ctx hloop
    have hceil : 0 ≤ ⌈(count : ℚ) * (p.atLoop ctx now count).ratio ctx⌉ :=
      Int.ceil_nonneg (mul_nonneg count.cast_nonneg hratio)
    have hfill : 1 ≤ (p.atLoop ctx now count).ring.fill := by omega
    have hnat := playhead_fill hloop
    have hcast : ((p.atLoop ctx now count).playhead.fill : ℚ) =
        (p.atLoop ctx now count).ring.fill := by exact_mod_cast hnat
    have hphase : (p.atLoop ctx now count).playhead.phase = p.resampler.phase :=
      congrArg Resampler.phase hsteered.resampler
    have hstarved : (p.atLoop ctx now count).playhead.starved = p.conceal.active :=
      congrArg Conceal.active hsteered.conceal
    have hflags := pull_concealed exp ctx hp now count hplaying hprimed hfill
    have hnone := Playhead.starvation_none_iff hratio count
      (p := (p.atLoop ctx now count).playhead) hloop.phase (by omega)
    rw [← hflags, List.forall_mem_map, hcast, hphase, hstarved] at hnone
    exact hnone
  | _ => exact Iff.rfl

theorem sound_configure (hp : Sound p) (h : PacketHeader) : Sound (p.configure h) := by
  unfold configure
  split_ifs
  · exact sound_ringReset ⟨hp.ring, Nat.cast_nonneg _, hp.correction, hp.phase⟩
  · exact hp

theorem sound_ringPush (hp : Sound p) (T : TargetFrames) (left right : ℕ → Sample) (count : ℕ) :
    Sound (p.ringPush T left right count) := by
  unfold ringPush
  dsimp only
  split_ifs
  · exact ⟨Ring.valid_push (Ring.valid_discardTo hp.ring _) _ _ _, hp.sampleRate, hp.correction,
      hp.phase⟩
  · exact ⟨Ring.valid_push hp.ring _ _ _, hp.sampleRate, hp.correction, hp.phase⟩

theorem sound_handlePacket (hp : Sound p) (T : Player → TargetFrames) (buffer : List UInt8) :
    Sound (p.handlePacket T buffer) := by
  have hconfigured := sound_configure hp (readHeader buffer)
  unfold handlePacket
  split_ifs
  · exact hp
  · exact hp
  · exact hp
  · dsimp only
    generalize p.configure (readHeader buffer) = q at *
    obtain ⟨r, hr⟩ : ∃ r, r = if (readHeader buffer).flags &&& 1 ≠ 0 then q.ringReset else q :=
      ⟨_, rfl⟩
    have hreset : Sound r := by
      rw [hr]
      split_ifs
      · exact sound_ringReset hconfigured
      · exact hconfigured
    rw [← hr]
    split_ifs
    · apply sound_ringPush
      exact ⟨hreset.ring, hreset.sampleRate, hreset.correction, hreset.phase⟩
    · exact ⟨hreset.ring, hreset.sampleRate, hreset.correction, hreset.phase⟩

theorem sound_step (hp : Sound p) (ev : PlayerEvent) : Sound (p.step exp ctx ev) := by
  cases ev with
  | packet buffer => exact sound_handlePacket hp _ buffer
  | ringReset => exact sound_ringReset hp
  | pull now count => exact sound_pull exp ctx hp now count
  | refreshFloor => exact ⟨hp.ring, hp.sampleRate, hp.correction, hp.phase⟩
  | slider ms => exact ⟨hp.ring, hp.sampleRate, hp.correction, hp.phase⟩
  | setPlaying value => exact ⟨hp.ring, hp.sampleRate, hp.correction, hp.phase⟩

def audioPacket (seq : UInt8) (samples : List UInt8) : List UInt8 :=
  [0x50, 0x50, 0x4d, 0x58, 1, 0, 2, 0, seq, 0, 0, 0, 0x80, 0xbb, 0, 0, 0, 0x10, 0, 0,
    0, 0, 0, 0, 0, 0, 0, 0, 0, 0, 0, 0] ++ samples

def audioHeader (seq : UInt8) : PacketHeader :=
  { format := 0, channels := 2, flags := 0, seq := seq.toNat, sampleRate := 48000, frames := 4096,
    epoch := 0 }

def audioStream : Stream :=
  { sampleRate := 48000, channels := 2, format := 0, framesPerPacket := 4096, configEpoch := 0 }

def phone : AudioContext := ⟨48000, by norm_num⟩

theorem readHeader_audioPacket (seq : UInt8) (samples : List UInt8) :
    readHeader (audioPacket seq samples) = audioHeader seq := by
  simp [readHeader, audioPacket, audioHeader, uint, Nat.ofDigits_cons]

theorem handlePacket_audio (p : Player) (seq : UInt8) {samples : List UInt8}
    (hsamples : samples.length = 16384) :
    ∃ (stats : Stats) (scratch : Scratch),
      let r : Player := { p.configure (audioHeader seq) with stats, scratch }
      p.handlePacket exactTarget (audioPacket seq samples) =
        r.ringPush r.exactTarget scratch.l scratch.r 4096 := by
  have hlength : (audioPacket seq samples).length = 32 + 16384 := by
    rw [← hsamples, audioPacket, List.length_append]
    rfl
  apply handlePacket_pushes exactTarget (h := audioHeader seq)
  · rw [hlength]
    decide
  · simp [audioPacket, uint, magic, Nat.ofDigits_cons]
  · simp [audioPacket, uint, version, Nat.ofDigits_cons]
  · exact readHeader_audioPacket seq samples
  · simp [audioHeader]
  · apply Scratch.decode_pcm16_stereo
    show headerBytes + 4096 * 4 ≤ _
    rw [hlength]
    decide

structure At (p : Player) (primed : Bool) (owed : ℚ) (low high : ℤ) : Prop where
  sound : Sound p
  playing : p.playing = true
  primed : p.resampler.primed = primed
  stream : p.stream = audioStream
  target : p.target = { ms := 240, floorMs := 171 }
  quiet : p.drift.outOfRangeSince = 0
  owed : owed ≤ p.resampler.phase - p.ring.fill
  low : low ≤ p.ring.fill
  high : p.ring.fill ≤ high

variable {primed : Bool} {owed : ℚ} {low high : ℤ}

theorem At.targetFrames (h : At p primed owed low high) : p.targetFrames = 11520 := by
  rw [Player.targetFrames, effectiveTargetMs, h.target, h.stream]
  norm_num [audioStream]

theorem ringPush_fits {T : TargetFrames} {left right : ℕ → Sample} {count : ℕ}
    (h : p.ring.fill + count ≤ T.limit) :
    p.ringPush T left right count = { p with ring := p.ring.push left right count } := by
  rw [ringPush]
  dsimp only
  rw [if_neg (not_lt.mpr h)]

theorem at_configured {seq : UInt8} (h : At (p.configure (audioHeader seq)) primed owed low high)
    (hroom : high + 4096 ≤ 34560) {samples : List UInt8} (hsamples : samples.length = 16384) :
    At (p.handlePacket exactTarget (audioPacket seq samples)) primed (owed - 4096) (low + 4096)
      (high + 4096) := by
  obtain ⟨stats, scratch, hpacket⟩ := handlePacket_audio p seq hsamples
  generalize p.configure (audioHeader seq) = q at h hpacket
  have htarget := h.targetFrames
  have hhigh := h.high
  have hlimit : (⌊(11520 : ℚ) * 3⌋ : ℤ) = 34560 := by norm_num
  have hfits : q.ring.fill + (4096 : ℕ) ≤ q.exactTarget.limit := by
    show _ ≤ min (ringFrames - 2) ⌊q.targetFrames * 3⌋
    rw [htarget, hlimit]
    unfold ringFrames
    omega
  have hfill := Ring.fill_push h.sound.ring scratch.l scratch.r 4096 (by
    unfold ringFrames
    omega)
  have hvalid := Ring.valid_push h.sound.ring scratch.l scratch.r 4096
  have hpush := hpacket.trans (ringPush_fits (p := { q with stats, scratch }) hfits)
  rw [hpush]
  dsimp only
  generalize q.ring.push scratch.l scratch.r 4096 = ring at hfill hvalid
  have howed := h.owed
  have hlow := h.low
  have hcast : (ring.fill : ℚ) = q.ring.fill + 4096 := by exact_mod_cast hfill
  exact ⟨⟨hvalid, h.sound.sampleRate, h.sound.correction, h.sound.phase⟩, h.playing, h.primed,
    h.stream, h.target, h.quiet, by dsimp only; linarith, by dsimp only; omega,
    by dsimp only; omega⟩

theorem at_packet (h : At p primed owed low high) (hroom : high + 4096 ≤ 34560) (seq : UInt8)
    {samples : List UInt8} (hsamples : samples.length = 16384) :
    At (p.step exp phone (.packet (audioPacket seq samples))) primed (owed - 4096) (low + 4096)
      (high + 4096) := by
  have hconfigured : p.configure (audioHeader seq) = p := by
    simp [configure, audioHeader, h.stream, audioStream]
  have hsame : At (p.configure (audioHeader seq)) primed owed low high := by
    rw [hconfigured]
    exact h
  exact at_configured hsame hroom hsamples

theorem at_samples {q : Player} {n : ℕ} {d : ℚ} (h : At q true owed low high) (hlow : 1 ≤ low) :
    At ((Block.sample (q.ratio phone) d)^[n] { player := q }).player true
      (owed + 998 / 1000 * n) 1 high := by
  have hfill := h.low
  obtain ⟨hsame, hpos, hle, hbalance⟩ :=
    Block.samples_balance (b := { player := q }) (d := d) (ratio_nonneg phone h.sound) n h.sound
      h.primed (hlow.trans hfill)
  have hratio : 998 / 1000 ≤ q.ratio phone := by
    have hrange := (ratio_range phone h.sound).1
    rw [h.stream] at hrange
    norm_num [audioStream, phone] at hrange ⊢
    exact hrange
  have hasked : 998 / 1000 * (n : ℚ) ≤ n * q.ratio phone := by
    rw [mul_comm]
    exact mul_le_mul_of_nonneg_left hratio n.cast_nonneg
  have howed := h.owed
  refine ⟨Block.sound_samples (b := { player := q }) (ratio_nonneg phone h.sound) n h.sound,
    hsame.playing.trans h.playing, hsame.primed.trans h.primed, hsame.stream.trans h.stream,
    hsame.target.trans h.target, ?_, ?_, hpos, hle.trans h.high⟩
  · rw [hsame.drift]
    exact h.quiet
  · rw [hbalance]
    linarith

theorem at_atLoop (h : At p primed owed low high) (count : ℕ) :
    At (p.atLoop phone 0 count) primed owed low high := by
  have hsteered := steered_atLoop phone p 0 count
  obtain ⟨hring, hquiet⟩ := hsteered.quiet rfl h.quiet
  refine ⟨hsteered.sound h.sound, hsteered.playing.trans h.playing, ?_,
    hsteered.stream.trans h.stream, hsteered.target.trans h.target, hquiet, ?_, ?_, ?_⟩
  · rw [hsteered.resampler]
    exact h.primed
  · rw [hring, hsteered.resampler]
    exact h.owed
  · exact hring ▸ h.low
  · exact hring ▸ h.high

theorem at_of_block (hplaying : p.playing = true) {count : ℕ}
    (h : At (p.block exp phone 0 count).player primed owed low high) :
    At (p.pull exp phone 0 count).2 primed owed low high := by
  have hpull : (p.pull exp phone 0 count).2 = { (p.block exp phone 0 count).player with
      meter := (p.pull exp phone 0 count).2.meter } := by
    simp only [pull, hplaying, Bool.not_true, Bool.false_eq_true, if_false]
  rw [hpull]
  exact ⟨⟨h.sound.ring, h.sound.sampleRate, h.sound.correction, h.sound.phase⟩, h.playing,
    h.primed, h.stream, h.target, h.quiet, h.owed, h.low, h.high⟩

theorem at_pull (h : At p true owed low high) (hlow : 1 ≤ low) (count : ℕ) :
    At (p.step exp phone (.pull 0 count)) true (owed + 998 / 1000 * count) 1 high := by
  apply at_of_block exp h.playing
  exact at_samples (at_atLoop h count) hlow

theorem at_first_pull (h : At p false owed low high) (hlow : 11520 ≤ low) {count : ℕ}
    (hcount : count ≠ 0) :
    At (p.step exp phone (.pull 0 count)) true (1 - high + 998 / 1000 * count) 1 (high - 1) := by
  obtain ⟨n, rfl⟩ := Nat.exists_eq_succ_of_ne_zero hcount
  have hloop := at_atLoop h (n + 1)
  generalize hq : p.atLoop phone 0 (n + 1) = q at hloop
  have hfill := hloop.low
  have hnext : q.prime.ring.fill = q.ring.fill - 1 := Ring.fill_next hloop.sound.ring (by omega)
  have hprime : At q.prime true (1 - high) (low - 1) (high - 1) := by
    have hhigh : (q.ring.fill : ℚ) ≤ high := by exact_mod_cast hloop.high
    refine ⟨⟨Ring.valid_next hloop.sound.ring, hloop.sound.sampleRate, hloop.sound.correction,
      le_rfl⟩, hloop.playing, rfl, hloop.stream, hloop.target, hloop.quiet, ?_, ?_, ?_⟩
    · rw [hnext]
      show 1 - (high : ℚ) ≤ 0 - (q.ring.fill - 1 : ℤ)
      push_cast
      linarith
    · omega
    · have hmost := hloop.high
      omega
  have htwo : 2 ≤ q.ring.fill := by omega
  have htarget : q.targetFrames ≤ q.ring.fill := by
    rw [hloop.targetFrames]
    exact_mod_cast hlow.trans hfill
  have hblock : p.block exp phone 0 (n + 1) = (Block.sample (q.prime.ratio phone)
      (exp (-1 / (6 / 1000 * phone.sampleRate))))^[n + 1] { player := q.prime } := by
    rw [block, hq, Function.iterate_succ_apply, Function.iterate_succ_apply,
      Block.sample_prime (b := { player := q }) hloop.primed htarget htwo]
    rfl
  apply at_of_block exp h.playing
  rw [hblock]
  exact_mod_cast at_samples hprime (by omega)

theorem At.ringReset (h : At p primed owed low high) : At p.ringReset false 0 0 0 := by
  have hempty : p.ringReset.ring.fill = 0 := Ring.fill_of_zero rfl rfl
  refine ⟨sound_ringReset h.sound, h.playing, rfl, h.stream, h.target, h.quiet, ?_, ?_, ?_⟩
  · rw [hempty]
    exact (sub_self (0 : ℚ)).ge
  · exact hempty.ge
  · exact hempty.le

theorem At.mono (h : At p primed owed low high) {owed' : ℚ} {low' high' : ℤ}
    (howed : owed' ≤ owed) (hlow : low' ≤ low) (hhigh : high ≤ high') :
    At p primed owed' low' high' :=
  ⟨h.sound, h.playing, h.primed, h.stream, h.target, h.quiet, howed.trans h.owed,
    hlow.trans h.low, h.high.trans hhigh⟩

def listening : Player := ({ playing := true } : Player).refreshFloor phone

theorem target_listening : listening.target = { ms := 240, floorMs := 171 } := by
  have hfloor : (⌈2 * ((4096 : ℕ) : ℚ) / 48000 * 1000⌉ : ℤ) = 171 := by norm_num
  exact congrArg (Target.mk 240) hfloor

def tuned : Player := { listening with stream := audioStream }

theorem at_tuned : At tuned.ringReset false 0 0 0 := by
  have hempty : tuned.ringReset.ring.fill = 0 := Ring.fill_of_zero rfl rfl
  have hsound : Sound tuned :=
    ⟨Ring.valid_of_zero rfl rfl, by norm_num [tuned, audioStream], sound_new.correction, le_rfl⟩
  refine ⟨sound_ringReset hsound, rfl, rfl, rfl, target_listening, rfl, ?_, hempty.ge, hempty.le⟩
  rw [hempty]
  exact (sub_self (0 : ℚ)).ge

theorem at_listening {samples : List UInt8} (hsamples : samples.length = 16384) :
    At (listening.step exp phone (.packet (audioPacket 0 samples))) false (-4096) 4096 4096 := by
  have hreset : listening.configure (audioHeader 0) = tuned.ringReset := by
    simp [configure, audioHeader, audioStream, listening, refreshFloor, tuned]
  have hnew : At (listening.configure (audioHeader 0)) false 0 0 0 := by
    rw [hreset]
    exact at_tuned
  exact (at_configured hnew (by decide) hsamples).mono (by norm_num) (by decide) (by decide)

def outage (samples : List UInt8) : List PlayerEvent :=
  -- three packets, five calls of `pull`, in which the ring runs out, and two more packets
  [.packet (audioPacket 0 samples), .packet (audioPacket 1 samples),
    .packet (audioPacket 2 samples), .pull 0 4096, .pull 0 4096, .pull 0 4096, .pull 0 4096,
    .pull 0 4096, .packet (audioPacket 5 samples), .packet (audioPacket 6 samples)]

theorem at_outage {samples : List UInt8} (hsamples : samples.length = 16384) :
    At (run exp phone {} ([.setPlaying true, .refreshFloor] ++ outage samples)) true (-40)
      8193 20479 := by
  have hlistening : Runs.run (step exp phone) {} [.setPlaying true, .refreshFloor] = listening :=
    rfl
  have hfirst := at_listening exp hsamples
  have hthree := at_packet exp (at_packet exp hfirst (by decide) 1 hsamples) (by decide) 2 hsamples
  have hone := at_first_pull exp hthree (by decide) (Nat.succ_ne_zero 4095)
  have hfive := at_pull exp (at_pull exp (at_pull exp (at_pull exp hone le_rfl 4096) le_rfl 4096)
    le_rfl 4096) le_rfl 4096
  have hback := at_packet exp (at_packet exp hfive (by decide) 5 hsamples) (by decide) 6 hsamples
  rw [run, Runs.run_append, hlistening]
  simp -implicitDefEqProofs only [outage, Runs.run_cons, Runs.run_nil]
  exact hback.mono (by norm_num) (by decide) (by decide)

theorem not_debtCovered (h : At p true (-40) 8193 20479) :
    ¬ p.DebtCovered phone (.pull 0 4096) := by
  have hloop := at_atLoop h 4096
  have hsteered := steered_atLoop phone p 0 4096
  have hone : (48000 : ℚ) / phone.sampleRate = 1 := by norm_num [phone]
  obtain ⟨hleast, hmost⟩ := ratio_range phone hloop.sound
  rw [hloop.stream, audioStream, hone, mul_one] at hleast hmost
  have henough : p.Enough phone 0 4096 := by
    refine ⟨h.playing, h.primed, ?_⟩
    have hceil : ⌈((4096 : ℕ) : ℚ) * (p.atLoop phone 0 4096).ratio phone⌉ ≤ 4105 := by
      apply Int.ceil_le.mpr
      push_cast
      linarith
    have hfill := hloop.low
    omega
  intro hcovered
  rcases hcovered henough with hzero | ⟨hless, -⟩
  · exact absurd hzero (by decide)
  · -- the debt is within 40 frames of the fill, and the block asks for over 4000 more
    have howed := hloop.owed
    rw [hsteered.resampler] at howed
    push_cast at hless
    linarith

/-- In every reachable state a call of `pull` that finds enough frames conceals nothing exactly
when the debt is covered; so all calls of a run do when all of them find it covered. -/
theorem recovers_run (es : List PlayerEvent) :
    (∀ ev, Recovers exp ctx (run exp ctx {} es) ev ↔ DebtCovered ctx (run exp ctx {} es) ev) ∧
      (Runs.Along (step exp ctx) (Recovers exp ctx) {} es ↔
        Runs.Along (step exp ctx) (DebtCovered ctx) {} es) := by
  have hstep : ∀ p ev, Sound p → Sound (step exp ctx p ev) := fun _ ev hp =>
    sound_step exp ctx hp ev
  constructor
  · intro ev
    have hsound : Sound (run exp ctx {} es) := Runs.invariant hstep sound_new es
    exact recovers_iff exp ctx hsound ev
  · exact Runs.along_congr hstep (fun _ ev hp => recovers_iff exp ctx hp ev) sound_new es

/-- After an outage of two packets the next block finds 8193 frames in the ring and is concealed
all the same. -/
theorem outage_not_recovered :
    ¬ Runs.Along (step (fun _ => 1) phone) (Recovers (fun _ => 1) phone) {}
      ([.setPlaying true, .refreshFloor] ++ outage (List.replicate 16384 0) ++ [.pull 0 4096]) := by
  have hsamples : (List.replicate 16384 (0 : UInt8)).length = 16384 := List.length_replicate
  have hat := at_outage (fun _ => 1) hsamples
  rw [Runs.along_append]
  rintro ⟨-, hrecovers, -⟩
  exact not_debtCovered hat ((recovers_iff _ phone hat.sound _).mp hrecovers)

end Player
end Ppm.Receiver

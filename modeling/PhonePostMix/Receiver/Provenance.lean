import Mathlib.Data.List.MinMax
import PhonePostMix.Receiver.DriftRange

/-! Where the audio comes from: nothing is played but frames that were pushed since the ring was
last reset, and nothing louder than these. -/

namespace Ppm.Receiver

def magnitude : Sample → ℚ
  | .number q => |q|
  | _ => 0

def loudest (pushed : List Sample) : ℚ := (pushed.map magnitude).foldr max 0

/-- No louder than everything in `pushed`, or not finite where `pushed` is not either. -/
def Within (pushed : List Sample) : Sample → Prop
  | .number v => |v| ≤ loudest pushed
  | _ => ∃ s ∈ pushed, s.isFinite = false

section Within
variable {pushed : List Sample}

theorem abs_le_loudest {v : ℚ} (h : .number v ∈ pushed) : |v| ≤ loudest pushed :=
  List.le_max_of_le' 0 (List.mem_map_of_mem h) le_rfl

theorem within_silence : Within pushed (.number 0) := by
  have hzero : ∀ l : List ℚ, 0 ≤ l.foldr max 0 := by
    intro l
    induction l with
    | nil => exact le_rfl
    | cons a l ih => exact ih.trans (le_max_right _ _)
  show |(0 : ℚ)| ≤ _
  rw [abs_zero]
  exact hzero _

theorem within_of_not_finite {s s' : Sample} (hs : s ∈ pushed) (hbad : s.isFinite = false)
    (h : s'.isFinite = false) : Within pushed s' := by
  cases s' with
  | number => cases h
  | infinity | nan => exact ⟨s, hs, hbad⟩

theorem within_faded {s : Sample} (hs : s ∈ pushed) {gain : ℚ} (hlow : 0 ≤ gain)
    (hhigh : gain ≤ 1) : Within pushed (s.scale gain) := by
  cases s with
  | infinity | nan => exact within_of_not_finite hs rfl (Sample.isFinite_scale gain _)
  | number v =>
    show |v * gain| ≤ _
    rw [abs_mul, abs_of_nonneg hlow]
    exact (mul_le_of_le_one_right (abs_nonneg v) hhigh).trans (abs_le_loudest hs)

theorem within_interpolate {s s' : Sample} (hs : s ∈ pushed) (hs' : s' ∈ pushed) {t : ℚ}
    (hlow : 0 ≤ t) (hhigh : t < 1) : Within pushed (interpolate s s' t) := by
  cases s with
  | infinity | nan => exact within_of_not_finite hs rfl (isFinite_interpolate _ s' t)
  | number a =>
    cases s' with
    | infinity | nan => exact within_of_not_finite hs' rfl (isFinite_interpolate (.number a) _ t)
    | number b =>
      have ha := abs_le_loudest hs
      have hb := abs_le_loudest hs'
      rw [interpolate_number]
      show |a + (b - a) * t| ≤ loudest pushed
      calc |a + (b - a) * t| = |(1 - t) * a + t * b| := by ring_nf
        _ ≤ |(1 - t) * a| + |t * b| := abs_add_le _ _
        _ = (1 - t) * |a| + t * |b| := by
            rw [abs_mul, abs_mul, abs_of_nonneg hlow, abs_of_nonneg (by linarith)]
        _ ≤ (1 - t) * loudest pushed + t * loudest pushed :=
            add_le_add (mul_le_mul_of_nonneg_left ha (by linarith))
              (mul_le_mul_of_nonneg_left hb hlow)
        _ = loudest pushed := by ring

end Within

namespace Player

/-- The packets have between one frame and twice the target and leave room for the target in the
ring, and the target is at least one frame where it is used. -/
def Sized (p : Player) : Incoming → Prop
  | .event (.packet buffer) => Passes buffer →
    1 ≤ (readHeader buffer).frames ∧ 1 ≤ ⌊(p.atDecode buffer).targetFrames⌋ ∧
      (p.atDecode buffer).Roomy (readHeader buffer).frames
  | .event (.pull _ _) => 1 ≤ ⌊p.targetFrames⌋
  | _ => True

structure Sourced (since : List (Sample × Sample)) (p : Player) : Prop where
  indexed : p.ring.Indexed
  unread : ∀ f ∈ p.ring.frames, f ∈ since
  buffered : p.resampler.primed = true → 1 ≤ p.ring.fill
  last : p.resampler.primed = true → (p.resampler.prevL, p.resampler.prevR) ∈ since
  phase : 0 ≤ p.resampler.phase
  gain : 0 ≤ p.conceal.gain ∧ p.conceal.gain ≤ 1
  integral : |p.drift.integral| ≤ 50
  correction : -2 / 1000 ≤ p.drift.correction ∧ p.drift.correction ≤ 2 / 1000
  floor : 0 ≤ p.target.floorMs

variable {since : List (Sample × Sample)} {p : Player}

theorem Sourced.read_mem (h : Sourced since p) (hfill : 1 ≤ p.ring.fill) :
    (p.ring.l p.ring.read, p.ring.r p.ring.read) ∈ since := by
  apply h.unread
  rw [Ring.frames_next h.indexed hfill]
  exact List.mem_cons_self

theorem Sourced.unread_next (h : Sourced since p) (hfill : 1 ≤ p.ring.fill) :
    ∀ f ∈ p.ring.next.frames, f ∈ since := by
  intro f hf
  apply h.unread
  rw [Ring.frames_next h.indexed hfill]
  exact List.mem_cons_of_mem _ hf

section Sample

theorem Sourced.prime (h : Sourced since p) (hfill : 2 ≤ p.ring.fill) : Sourced since p.prime := by
  have hnext : p.ring.next.fill = p.ring.fill - 1 := Ring.fill_next h.indexed.valid (by omega)
  refine ⟨Ring.indexed_next h.indexed, h.unread_next (by omega), fun _ => ?_,
    fun _ => h.read_mem (by omega), le_rfl, h.gain, h.integral, h.correction, h.floor⟩
  show 1 ≤ p.ring.next.fill
  omega

theorem Sourced.consume (h : Sourced since p) (hphase : 1 ≤ p.resampler.phase)
    (hfill : 2 ≤ p.ring.fill) : Sourced since p.consume := by
  have hnext : p.ring.next.fill = p.ring.fill - 1 := Ring.fill_next h.indexed.valid (by omega)
  refine ⟨Ring.indexed_next h.indexed, h.unread_next (by omega), fun _ => ?_,
    fun _ => h.read_mem (by omega), sub_nonneg.mpr hphase, by norm_num [Player.consume], h.integral,
    h.correction, h.floor⟩
  show 1 ≤ p.ring.next.fill
  omega

theorem Sourced.underrun (h : Sourced since p) : Sourced since p.underrun := by
  unfold Player.underrun
  split_ifs
  · exact h
  · exact ⟨h.indexed, h.unread, h.buffered, h.last, h.phase, by norm_num, h.integral, h.correction,
      h.floor⟩

theorem Sourced.ready (h : Sourced since p) (hwaits : ¬ p.Waits) : Sourced since p.ready :=
  ready_invariant (fun _ hp _ hfill => hp.prime hfill)
    (fun _ hp hphase hfill => hp.consume hphase hfill) (fun _ hp _ _ => hp.underrun) hwaits h

theorem Sourced.voice (h : Sourced since p) (hprimed : p.resampler.primed = true)
    (hphase : p.resampler.phase < 1 ∨ p.conceal.active = true) {d : ℚ} (hd : 0 ≤ d ∧ d ≤ 1) :
    ((p.voice d).concealed = false → ∃ f ∈ since, ∃ g ∈ since, ∃ phase : ℚ, 0 ≤ phase ∧ phase < 1 ∧
      (p.voice d).left = interpolate f.1 g.1 phase ∧
        (p.voice d).right = interpolate f.2 g.2 phase) ∧
      Within (since.map Prod.fst) (p.voice d).left ∧
        Within (since.map Prod.snd) (p.voice d).right := by
  have hlast := h.last hprimed
  have hnext := h.read_mem (h.buffered hprimed)
  obtain ⟨hlow, hhigh⟩ := h.gain
  cases hactive : p.conceal.active with
  | true =>
    have hvoice : p.voice d = ⟨p.resampler.prevL.scale (p.conceal.gain * d),
        p.resampler.prevR.scale (p.conceal.gain * d), true⟩ := by
      simp only [Player.voice, hactive, if_true]
    have hgain := mul_nonneg hlow hd.1
    have hgain' := mul_le_one₀ hhigh hd.1 hd.2
    rw [hvoice]
    exact ⟨nofun, within_faded (List.mem_map_of_mem hlast) hgain hgain',
      within_faded (List.mem_map_of_mem hlast) hgain hgain'⟩
  | false =>
    have hvoice : p.voice d =
        ⟨interpolate p.resampler.prevL (p.ring.l p.ring.read) p.resampler.phase,
          interpolate p.resampler.prevR (p.ring.r p.ring.read) p.resampler.phase, false⟩ := by
      simp only [Player.voice, hactive, Bool.false_eq_true, if_false]
    have hless : p.resampler.phase < 1 := hphase.resolve_right (by simp [hactive])
    rw [hvoice]
    exact ⟨fun _ => ⟨_, hlast, _, hnext, _, h.phase, hless, rfl, rfl⟩,
      within_interpolate (List.mem_map_of_mem hlast) (List.mem_map_of_mem hnext) h.phase hless,
      within_interpolate (List.mem_map_of_mem hlast) (List.mem_map_of_mem hnext) h.phase hless⟩

theorem Sourced.emitted (h : Sourced since p) {ratio d : ℚ} (hratio : 0 ≤ ratio)
    (hd : 0 ≤ d ∧ d ≤ 1) : Sourced since (p.emitted ratio d) := by
  refine ⟨h.indexed, h.unread, h.buffered, h.last, add_nonneg h.phase hratio, ?_, h.integral,
    h.correction, h.floor⟩
  obtain ⟨hlow, hhigh⟩ := h.gain
  show 0 ≤ (if p.conceal.active then p.conceal.gain * d else p.conceal.gain) ∧
    (if p.conceal.active then p.conceal.gain * d else p.conceal.gain) ≤ 1
  split_ifs
  · exact ⟨mul_nonneg hlow hd.1, mul_le_one₀ hhigh hd.1 hd.2⟩
  · exact h.gain

theorem Sourced.sampled (h : Sourced since p) {ratio d : ℚ} (hratio : 0 ≤ ratio)
    (hd : 0 ≤ d ∧ d ≤ 1) : Sourced since (p.sampled ratio d) := by
  by_cases hwaits : p.Waits
  · rw [sampled_of_waits hwaits]
    exact h
  · rw [sampled_of_not_waits hwaits]
    exact (h.ready hwaits).emitted hratio hd

end Sample

section Pull
variable {exp : ℚ → ℚ} {ctx : AudioContext}

theorem floor_of_le_fill (hvalid : p.ring.Valid) {x : ℚ} (hless : x ≤ p.ring.fill) :
    ⌊x⌋ ≤ p.ring.fill ∧ ⌊x⌋ < ringFrames := by
  have hfloor : ⌊x⌋ ≤ p.ring.fill := by
    have hcast : (⌊x⌋ : ℚ) ≤ p.ring.fill := (Int.floor_le x).trans hless
    exact_mod_cast hcast
  exact ⟨hfloor, hfloor.trans_lt (Ring.fill_lt hvalid)⟩

theorem Sourced.atLoop (h : Sourced since p) (hT : 1 ≤ ⌊p.targetFrames⌋) (now : ℚ) (count : ℕ) :
    Sourced since (p.atLoop ctx now count) := by
  have hsteered := steered_atLoop ctx p now count
  obtain ⟨hintegral, hring⟩ :=
    updateDrift_cases ctx now count { p with observedBlockFrames := count }
  have hrest (hindexed : (p.atLoop ctx now count).ring.Indexed)
      (hunread : ∀ f ∈ (p.atLoop ctx now count).ring.frames, f ∈ since)
      (hbuffered : p.resampler.primed = true → 1 ≤ (p.atLoop ctx now count).ring.fill) :
      Sourced since (p.atLoop ctx now count) := by
    refine ⟨hindexed, hunread, ?_, ?_, ?_, ?_, hintegral h.integral,
      hsteered.range h.correction, ?_⟩
    · rw [hsteered.resampler]
      exact hbuffered
    · rw [hsteered.resampler]
      exact h.last
    · rw [hsteered.resampler]
      exact h.phase
    · rw [hsteered.conceal]
      exact h.gain
    · rw [hsteered.target]
      exact h.floor
  rcases hring with hsame | ⟨htarget, hout, hcut⟩
  · have hsame' : (p.atLoop ctx now count).ring = p.ring := hsame
    apply hrest <;> rw [hsame']
    · exact h.indexed
    · exact h.unread
    · exact h.buffered
  · have hmany : 98 * p.targetFrames < p.ring.fill :=
      fill_of_out_of_range (p := { p with observedBlockFrames := count }) ctx count
        h.indexed.valid htarget hout
    have hcut' : (p.atLoop ctx now count).ring = p.ring.discardTo p.targetFrames := hcut
    have htarget' : 0 < p.targetFrames := htarget
    have hless : p.targetFrames ≤ p.ring.fill := by linarith
    obtain ⟨hfloor, hfits⟩ := floor_of_le_fill h.indexed.valid hless
    have hself : ⌊p.targetFrames⌋ % ringFrames = ⌊p.targetFrames⌋ :=
      Int.emod_eq_of_lt (by omega) hfits
    apply hrest <;> rw [hcut']
    · rw [Ring.indexed_discardTo_iff _ h.indexed]
      have hwrite := h.indexed.write_nonneg
      omega
    · intro f hf
      rw [Ring.frames_discardTo _ h.indexed (by omega)] at hf
      exact h.unread f (List.mem_of_mem_drop hf)
    · intro _
      rw [Ring.fill_discardTo _ h.indexed.valid, hself]
      exact hT

theorem Sourced.sampleRate_nonneg (h : Sourced since p) (hT : 1 ≤ ⌊p.targetFrames⌋) :
    0 ≤ p.stream.sampleRate := by
  have htarget : 0 < p.targetFrames := by
    have hone := Int.le_floor.mp hT
    push_cast at hone
    linarith
  have hms : 0 ≤ p.effectiveTargetMs * (1 / 1000) := by
    have hfloor : (0 : ℚ) ≤ p.target.floorMs := by exact_mod_cast h.floor
    have heffective : 0 ≤ p.effectiveTargetMs := hfloor.trans (le_max_right _ _)
    positivity
  exact (pos_of_mul_pos_right htarget hms).le

theorem Sourced.ratio_nonneg (h : Sourced since p) (hT : 1 ≤ ⌊p.targetFrames⌋) (now : ℚ)
    (count : ℕ) : 0 ≤ (p.atLoop ctx now count).ratio ctx := by
  have hloop : Sourced since (p.atLoop ctx now count) := h.atLoop hT now count
  have hrate := h.sampleRate_nonneg hT
  rw [← (steered_atLoop ctx p now count).stream] at hrate
  exact Player.ratio_nonneg ctx ⟨hloop.indexed.valid, hrate, hloop.correction, hloop.phase⟩

variable (hexp : ∀ x < 0, 0 ≤ exp x ∧ exp x ≤ 1)
include hexp

theorem concealDecay_range : 0 ≤ concealDecay exp ctx ∧ concealDecay exp ctx ≤ 1 := by
  apply hexp
  have hrate := ctx.sampleRate_pos
  exact div_neg_of_neg_of_pos (by norm_num) (by positivity)

theorem Sourced.before (h : Sourced since p) (hT : 1 ≤ ⌊p.targetFrames⌋) (now : ℚ) (count i : ℕ) :
    Sourced since (p.before exp ctx now count i) :=
  before_invariant exp ctx now count (h.atLoop hT now count)
    (fun _ hq => hq.sampled (h.ratio_nonneg hT now count) (concealDecay_range hexp)) i

theorem Sourced.pull (h : Sourced since p) (hT : 1 ≤ ⌊p.targetFrames⌋) (now : ℚ) (count : ℕ) :
    Sourced since (p.pull exp ctx now count).2 := by
  cases hplaying : p.playing with
  | false =>
    rw [pull_stopped exp ctx now count hplaying]
    exact h
  | true =>
    have hend : Sourced since (p.before exp ctx now count count) :=
      h.before hexp hT now count count
    rw [pull_player exp ctx now count hplaying]
    exact ⟨hend.indexed, hend.unread, hend.buffered, hend.last, hend.phase, hend.gain,
      hend.integral, hend.correction, hend.floor⟩

end Pull

section Push

theorem Sourced.carried {q : Player} (h : Sourced since p) (hcarried : Carried p q)
    (hfloor : 0 ≤ q.target.floorMs) : Sourced since q := by
  obtain ⟨hring, hresampler, hconceal, hdrift⟩ := hcarried
  refine ⟨?_, ?_, ?_, ?_, ?_, ?_, ?_, ?_, hfloor⟩
  · rw [hring]
    exact h.indexed
  · rw [hring]
    exact h.unread
  · rw [hring, hresampler]
    exact h.buffered
  · rw [hresampler]
    exact h.last
  · rw [hresampler]
    exact h.phase
  · rw [hconceal]
    exact h.gain
  · rw [hdrift]
    exact h.integral
  · rw [hdrift]
    exact h.correction

theorem Sourced.ringReset (h : Sourced since p) : Sourced [] p.ringReset := by
  have hempty : p.ringReset.ring.frames = [] := Ring.frames_of_zero rfl rfl
  refine ⟨Ring.indexed_of_reset ⟨rfl, rfl⟩, ?_, nofun, nofun, le_rfl, h.gain, ?_, ?_, h.floor⟩
  · rw [hempty]
    nofun
  · norm_num [Player.ringReset]
  · norm_num [Player.ringReset]

theorem target_atDecode (buffer : List UInt8) (p : Player) :
    (p.atDecode buffer).target = p.target := by
  have hconfigure : (p.configure (readHeader buffer)).target = p.target := by
    unfold configure
    split_ifs <;> rfl
  unfold atDecode
  dsimp only
  split_ifs
  · exact hconfigure
  · exact hconfigure

theorem Sourced.ringPush (h : Sourced since p) {count : ℕ} (hcount : 1 ≤ count)
    (htarget : 0 ≤ p.targetFrames) (hroomy : p.Roomy count) (left right : ℕ → Sample) :
    Sourced (since ++ Ring.pushed left right count)
      (p.ringPush p.exactTarget left right count) := by
  have hdisciplined := (hroomy.safePush h.indexed htarget).disciplined h.indexed left right
  refine ⟨hdisciplined.indexed, ?_, ?_, ?_, ?_, ?_, ?_, ?_, ?_⟩
  · intro f hf
    rcases List.mem_append.mp (hdisciplined.suffix.subset hf) with hold | hnew
    · exact List.mem_append_left _ (h.unread f hold)
    · exact List.mem_append_right _ hnew
  · obtain ⟨kept, -, hfill⟩ := hdisciplined.unread
    omega
  · rw [resampler_ringPush]
    exact fun hprimed => List.mem_append_left _ (h.last hprimed)
  · rw [resampler_ringPush]
    exact h.phase
  · rw [conceal_ringPush]
    exact h.gain
  · rw [drift_ringPush]
    exact h.integral
  · rw [drift_ringPush]
    exact h.correction
  · rw [target_ringPush]
    exact h.floor

end Push

section Take
variable {exp : ℚ → ℚ} {ctx : AudioContext}

theorem target_handleControl (message : Message) (p : Player) :
    (p.handleControl message).target = p.target := by
  unfold handleControl
  dsimp only
  split_ifs <;> split <;> rfl

theorem target_handlePacket (T : Player → TargetFrames) (buffer : List UInt8) (p : Player) :
    (p.handlePacket T buffer).target = p.target := by
  by_cases hpasses : Passes buffer
  · rw [handlePacket_of_passes hpasses]
    split_ifs
    · rw [target_ringPush]
      exact target_atDecode buffer p
    · exact target_atDecode buffer p
  · rw [handlePacket_of_not_passes hpasses]

theorem target_pull (p : Player) (now : ℚ) (count : ℕ) :
    (p.pull exp ctx now count).2.target = p.target := by
  cases hplaying : p.playing with
  | false => rw [pull_stopped exp ctx now count hplaying]
  | true =>
    rw [pull_player exp ctx now count hplaying]
    refine before_invariant (I := fun q => q.target = p.target) exp ctx now count
      (steered_atLoop ctx p now count).target (fun q hq => ?_) count
    by_cases hwaits : q.Waits
    · rwa [sampled_of_waits hwaits]
    · rw [sampled_of_not_waits hwaits]
      refine ready_invariant (I := fun q => q.target = p.target) (fun _ h _ _ => h)
        (fun _ h _ _ => h) (fun _ h _ _ => same_underrun.target.trans h) hwaits hq

theorem minimumTargetMs_nonneg (p : Player) : 0 ≤ p.minimumTargetMs ctx := by
  have hrate := ctx.sampleRate_pos
  exact Int.ceil_nonneg (by positivity)

theorem floor_take (hfloor : 0 ≤ p.target.floorMs) (i : Incoming) :
    0 ≤ (p.take exp ctx i).target.floorMs := by
  cases i with
  | control message =>
    show 0 ≤ (p.handleControl message).target.floorMs
    rwa [target_handleControl]
  | event e =>
    cases e with
    | packet buffer =>
      show 0 ≤ (p.handlePacket exactTarget buffer).target.floorMs
      rwa [target_handlePacket]
    | pull now count =>
      show 0 ≤ (p.pull exp ctx now count).2.target.floorMs
      rwa [target_pull]
    | refreshFloor => exact minimumTargetMs_nonneg p
    | slider ms => exact minimumTargetMs_nonneg _
    | ringReset => exact hfloor
    | setPlaying value => exact hfloor

theorem Sourced.cleared (h : Sourced since p) (i : Incoming) :
    Sourced (if p.Resets i then [] else since) (p.cleared i) := by
  unfold Player.cleared
  split_ifs
  · exact h.ringReset
  · exact h

theorem Sourced.take (hexp : ∀ x < 0, 0 ≤ exp x ∧ exp x ≤ 1) (h : Sourced since p) {i : Incoming}
    (hsized : p.Sized i) :
    Sourced ((if p.Resets i then [] else since) ++ p.delivered i) (p.take exp ctx i) := by
  have hcleared := h.cleared i
  have hfloor : 0 ≤ (p.take exp ctx i).target.floorMs := floor_take h.floor i
  rcases take_cases exp ctx p i with ⟨now, count, rfl⟩ | ⟨hnone, hcarried⟩ |
    ⟨buffer, rfl, hpasses, r, left, right, hcarried, htarget, hdelivered, htake⟩
  · have hnone : p.delivered (.event (.pull now count)) = [] := rfl
    rw [if_neg (id : ¬ p.Resets (.event (.pull now count))), hnone, List.append_nil]
    exact h.pull hexp hsized now count
  · rw [hnone, List.append_nil]
    exact hcleared.carried hcarried hfloor
  · obtain ⟨hcount, hone, hroomy⟩ := hsized hpasses
    rw [htake, target_ringPush] at hfloor
    rw [hdelivered, htake]
    refine (hcleared.carried hcarried hfloor).ringPush hcount ?_ ?_ left right
    · rw [htarget]
      exact Int.floor_nonneg.mp (by omega)
    · rw [Roomy, htarget]
      exact hroomy

end Take

end Player

structure Recording where
  player : Player := {}
  since : List (Sample × Sample) := []

namespace Recording
open Player

def step (exp : ℚ → ℚ) (ctx : AudioContext) (t : Recording) (i : Incoming) : Recording where
  player := t.player.take exp ctx i
  since := (if t.player.Resets i then [] else t.since) ++ t.player.delivered i

variable {exp : ℚ → ℚ} {ctx : AudioContext}

theorem player_step (t : Recording) (i : Incoming) :
    (t.step exp ctx i).player = t.player.take exp ctx i := rfl

theorem sourced_new : Sourced [] {} := by
  have hempty : ({} : Player).ring.frames = [] := Ring.frames_of_zero rfl rfl
  refine ⟨Ring.indexed_of_reset ⟨rfl, rfl⟩, ?_, nofun, nofun, le_rfl, by norm_num, by norm_num,
    by norm_num, le_rfl⟩
  rw [hempty]
  nofun

theorem sourced_run (hexp : ∀ x < 0, 0 ≤ exp x ∧ exp x ≤ 1) {is : List Incoming}
    (h : Runs.Along (step exp ctx) (fun t i => t.player.Sized i) {} is) :
    Sourced (Runs.run (step exp ctx) {} is).since (Runs.run (step exp ctx) {} is).player :=
  Runs.invariant_along (I := fun t : Recording => Sourced t.since t.player)
    (fun _ _ ht hsized => ht.take hexp hsized) sourced_new h

/-- In a run with packets of suitable sizes the resampler always has a frame to look ahead to,
and all it plays lies between two pushed frames or is a fade of one. -/
theorem plays_pushed_frames (hexp : ∀ x < 0, 0 ≤ exp x ∧ exp x ≤ 1) (is : List Incoming)
    (h : Runs.Along (step exp ctx) (fun t i => t.player.Sized i) {} is) :
    let t := Runs.run (step exp ctx) {} is
    (t.player.resampler.primed = true → 1 ≤ t.player.ring.fill) ∧
      ∀ (now : ℚ) (count i : ℕ) (o : Output), 1 ≤ ⌊t.player.targetFrames⌋ →
        (t.player.pull exp ctx now count).1[i]? = some o →
        let q := t.player.before exp ctx now count i
        (t.player.playing = true → (q.resampler.primed = true → 1 ≤ q.ring.fill) ∧
          (¬ q.Waits → 1 ≤ q.ready.ring.fill ∧
            (o.concealed = false → ∃ f ∈ t.since, ∃ g ∈ t.since, ∃ phase : ℚ,
              0 ≤ phase ∧ phase < 1 ∧
                o.left = interpolate f.1 g.1 phase ∧ o.right = interpolate f.2 g.2 phase))) ∧
          Within (t.since.map Prod.fst) o.left ∧ Within (t.since.map Prod.snd) o.right := by
  have hsourced := sourced_run hexp h
  dsimp only
  generalize Runs.run (step exp ctx) {} is = t at hsourced
  refine ⟨hsourced.buffered, fun now count i o hone ho => ?_⟩
  cases hplaying : t.player.playing with
  | false =>
    rw [pull_stopped exp ctx now count hplaying, List.getElem?_replicate] at ho
    split_ifs at ho
    obtain rfl := Option.some.inj ho
    exact ⟨nofun, within_silence, within_silence⟩
  | true =>
    have hbefore : Sourced t.since (t.player.before exp ctx now count i) :=
      hsourced.before hexp hone now count i
    rw [pull_output exp ctx now count hplaying, List.getElem?_map] at ho
    obtain ⟨j, hj, rfl⟩ := Option.map_eq_some_iff.mp ho
    obtain ⟨_, hj⟩ := List.getElem?_eq_some_iff.mp hj
    rw [List.getElem_range] at hj
    subst hj
    generalize t.player.before exp ctx now count i = q at hbefore
    by_cases hwaits : q.Waits
    · rw [heard, if_pos hwaits]
      exact ⟨fun _ => ⟨hbefore.buffered, fun h => absurd hwaits h⟩, within_silence, within_silence⟩
    · have hready := hbefore.ready hwaits
      have hprimed : q.ready.resampler.primed = true :=
        (same_ready q).primed.trans (primed_started q)
      obtain ⟨hplain, hleft, hright⟩ :=
        hready.voice hprimed (phase_catchUp _ le_rfl) (concealDecay_range hexp)
      rw [heard_of_not_waits hwaits]
      exact ⟨fun _ => ⟨hbefore.buffered, fun _ => ⟨hready.buffered hprimed, hplain⟩⟩, hleft, hright⟩

section Start
variable {samples : List UInt8}

theorem sized_audio {p : Player} (htarget : p.target = { ms := 240, floorMs := 171 })
    (seq : UInt8) (samples : List UInt8) :
    p.Sized (.event (.packet (audioPacket seq samples))) := by
  intro _
  have hrate := (Traced.unchanged_atDecode p (audioPacket seq samples)).2.1
  have hframes : (p.atDecode (audioPacket seq samples)).targetFrames = 11520 := by
    rw [targetFrames, effectiveTargetMs, target_atDecode, htarget, ← hrate, readHeader_audioPacket]
    norm_num [audioHeader]
  rw [Roomy, hframes, readHeader_audioPacket]
  norm_num [audioHeader, ringFrames]

theorem sized_pull {p : Player} (htarget : p.targetFrames = 11520) (now : ℚ) (count : ℕ) :
    p.Sized (.event (.pull now count)) := by
  show 1 ≤ ⌊p.targetFrames⌋
  rw [htarget]
  norm_num

def starting (samples : List UInt8) : List Incoming :=
  [.event (.setPlaying true), .event .refreshFloor, .event (.packet (audioPacket 0 samples)),
    .event (.packet (audioPacket 1 samples)), .event (.packet (audioPacket 2 samples)),
    .event (.pull 0 4096)]

theorem starting_spec (exp : ℚ → ℚ) (hsamples : samples.length = 16384) :
    Runs.Along (step exp phone) (fun t i => t.player.Sized i) {} (starting samples) ∧
      (Runs.run (step exp phone) {} (starting samples)).player.resampler.primed = true := by
  have hfirst := at_listening exp hsamples
  have hsecond := at_packet exp hfirst (by decide) 1 hsamples
  have hthird := at_packet exp hsecond (by decide) 2 hsamples
  have hpull := at_first_pull exp hthird (by decide) (by decide : 4096 ≠ 0)
  have hlistening : (({} : Player).step exp phone (.setPlaying true)).step exp phone .refreshFloor =
      listening := rfl
  simp -implicitDefEqProofs only [starting, Runs.Along, Runs.run_cons, Runs.run_nil, player_step,
    take_event, hlistening]
  exact ⟨⟨trivial, trivial, sized_audio target_listening 0 samples,
    sized_audio hfirst.target 1 samples, sized_audio hsecond.target 2 samples,
    sized_pull hthird.targetFrames 0 4096, trivial⟩, hpull.primed⟩

theorem buffered_at_start :
    1 ≤ (Runs.run (step (fun x => (1 - x)⁻¹) phone) {}
      (starting (List.replicate 16384 0))).player.ring.fill := by
  have hexp : ∀ x : ℚ, x < 0 → 0 ≤ (1 - x)⁻¹ ∧ (1 - x)⁻¹ ≤ 1 := fun x hx =>
    ⟨inv_nonneg.mpr (by linarith), inv_le_one_of_one_le₀ (by linarith)⟩
  obtain ⟨hsized, hprimed⟩ :=
    starting_spec (fun x => (1 - x)⁻¹) (List.length_replicate (n := 16384) (a := 0))
  exact (plays_pushed_frames hexp _ hsized).1 hprimed

end Start

end Recording
end Ppm.Receiver

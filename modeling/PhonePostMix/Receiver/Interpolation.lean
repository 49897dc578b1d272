import PhonePostMix.Receiver.RingPush
import PhonePostMix.Receiver.Sampling

/-! The resampler against the linear interpolation of what was pushed. -/

namespace Ppm.Receiver

inductive Feed where
  | push (left right : ℕ → Sample) (count : ℕ)
  /-- The sample loop of `pull`, at any ratio. -/
  | pull (ratio concealDecay : ℚ) (count : ℕ)
  /-- A change to everything but the ring, the resampler and the concealment. -/
  | others (q : Player)

/-- A sample after priming, with the ratio in force and the ring frames consumed by then. -/
structure Emission where
  output : Output
  ratio : ℚ
  consumed : ℤ

/-- The player, with the frames pushed and the samples put out since the last `ringReset`. -/
structure Playback where
  player : Player
  frames : List (Sample × Sample) := []
  emissions : List Emission := []

namespace Playback
open Player

def emission (ratio d : ℚ) (t : Playback) : Emission where
  output := t.player.heard d
  ratio := ratio
  consumed := t.frames.length - (t.player.sampled ratio d).ring.fill

def sampled (ratio d : ℚ) (t : Playback) : Playback :=
  if t.player.Waits then t
  else
    { t with
      player := t.player.sampled ratio d
      emissions := t.emissions ++ [t.emission ratio d] }

def step (t : Playback) : Feed → Playback
  | .push left right count =>
    { t with
      player := t.player.ringPush t.player.exactTarget left right count
      frames := t.frames ++ Ring.pushed left right count }
  | .pull ratio concealDecay count => (sampled ratio concealDecay)^[count] t
  | .others q =>
    { t with
      player :=
        { q with
          ring := t.player.ring, resampler := t.player.resampler, conceal := t.player.conceal } }

/-- Pushes overflow nothing, and whenever a frame has to be consumed there are two. -/
def Fed (t : Playback) : Feed → Prop
  | .push _ _ count => t.player.ring.fill + count ≤ t.player.exactTarget.limit
  | .pull ratio concealDecay count =>
    0 < ratio ∧ ∀ i < count,
      let p := ((sampled ratio concealDecay)^[i] t).player
      p.Waits ∨ ¬ p.Starves
  | .others _ => True

instance (t : Playback) : DecidablePred t.Fed := fun e => by
  cases e <;> (unfold Fed; infer_instance)

def position (es : List Emission) (k : ℕ) : ℚ := ((es.take k).map Emission.ratio).sum

/-- Sample `k` is the linear interpolation of the frames `x` at its position. -/
def Interpolated (x : List (Sample × Sample)) (es : List Emission) (k : ℕ) (o : Output) : Prop :=
  let j := ⌊position es k⌋₊
  ∃ f g, x[j]? = some f ∧ x[j + 1]? = some g ∧
    o = ⟨interpolate f.1 g.1 (position es k - j), interpolate f.2 g.2 (position es k - j), false⟩

structure Reading (x : List (Sample × Sample)) (pos : ℚ) (c : ℕ) (p : Player) : Prop where
  indexed : p.ring.Indexed
  buffered : 1 ≤ p.ring.fill
  unread : p.ring.frames = x.drop (c + 1)
  last : x[c]? = some (p.resampler.prevL, p.resampler.prevR)
  position : c + p.resampler.phase = pos
  phase : 0 ≤ p.resampler.phase
  clean : p.conceal.active = false

variable {x : List (Sample × Sample)} {pos ratio d : ℚ} {c : ℕ} {p : Player}

section Reading

theorem getElem?_grow {α : Type*} {l : List α} {i : ℕ} {a : α} (h : l[i]? = some a)
    (more : List α) : (l ++ more)[i]? = some a := by
  rw [List.getElem?_append_left (List.getElem?_eq_some_iff.mp h).1]
  exact h

theorem Reading.next (h : Reading x pos c p) :
    x[c + 1]? = some (p.ring.l p.ring.read, p.ring.r p.ring.read) := by
  have hhead : (x.drop (c + 1))[0]? = some (p.ring.l p.ring.read, p.ring.r p.ring.read) := by
    rw [← h.unread, Ring.frames_next h.indexed h.buffered]
    rfl
  rwa [List.getElem?_drop] at hhead

theorem Reading.frames_next (h : Reading x pos c p) : p.ring.next.frames = x.drop (c + 2) := by
  have htail := congrArg List.tail h.unread
  rw [Ring.frames_next h.indexed h.buffered, List.tail_drop] at htail
  exact htail

theorem Reading.consumed_eq (h : Reading x pos c p) : (x.length : ℤ) - p.ring.fill = c + 1 := by
  have hlength := congrArg List.length h.unread
  have hfill := h.buffered
  rw [Ring.length_frames, List.length_drop] at hlength
  omega

theorem Reading.consume (h : Reading x pos c p) (hphase : 1 ≤ p.resampler.phase)
    (hfill : 2 ≤ p.ring.fill) : Reading x pos (c + 1) p.consume := by
  refine ⟨Ring.indexed_next h.indexed, ?_, h.frames_next, h.next, ?_, sub_nonneg.mpr hphase, rfl⟩
  · have hnext : p.ring.next.fill = p.ring.fill - 1 := Ring.fill_next h.indexed.valid (by omega)
    show 1 ≤ p.ring.next.fill
    omega
  · have hposition := h.position
    show ((c + 1 : ℕ) : ℚ) + (p.resampler.phase - 1) = pos
    push_cast
    linarith

theorem Reading.floor_eq (h : Reading x pos c p) (hphase : p.resampler.phase < 1) :
    ⌊pos⌋₊ = c := by
  have hposition := h.position
  have hlow := h.phase
  rw [Nat.floor_eq_iff (by rw [← hposition]; positivity)]
  constructor <;> linarith

theorem Reading.ready (h : Reading x pos c p.started) (hfed : ¬ p.Starves) :
    Reading x pos ⌊pos⌋₊ p.ready ∧ p.ready.resampler.phase < 1 := by
  obtain ⟨⟨c', hready⟩, hphase⟩ := catchUp_fed (I := fun q => ∃ c, Reading x pos c q)
    (fun _ ⟨c, hq⟩ hphase hfill => ⟨c + 1, hq.consume hphase hfill⟩) _ le_rfl
    ((Bool.not_eq_true _).mp hfed) ⟨c, h⟩
  have hfloor := hready.floor_eq hphase
  exact ⟨hfloor ▸ hready, hphase⟩

theorem Reading.voice (h : Reading x pos c p) : p.voice d =
    ⟨interpolate p.resampler.prevL (p.ring.l p.ring.read) (pos - c),
      interpolate p.resampler.prevR (p.ring.r p.ring.read) (pos - c), false⟩ := by
  have hphase : p.resampler.phase = pos - c := by
    have hposition := h.position
    linarith
  simp only [Player.voice, h.clean, Bool.false_eq_true, if_false, hphase]

theorem Reading.emitted (h : Reading x pos c p) (hratio : 0 ≤ ratio) :
    Reading x (pos + ratio) c (p.emitted ratio d) := by
  refine ⟨h.indexed, h.buffered, h.unread, h.last, ?_, add_nonneg h.phase hratio, h.clean⟩
  have hposition := h.position
  show (c : ℚ) + (p.resampler.phase + ratio) = _
  linarith

theorem Reading.push (h : Reading x pos c p) {T : TargetFrames} {left right : ℕ → Sample}
    {count : ℕ} (hring : (p.ringPush T left right count).ring = p.ring.push left right count)
    (hless : p.ring.fill + count < ringFrames) :
    Reading (x ++ Ring.pushed left right count) pos c (p.ringPush T left right count) := by
  have hconsumed := h.consumed_eq
  have hbuffered := h.buffered
  have hlength : c + 1 ≤ x.length := by omega
  refine ⟨?_, ?_, ?_, ?_, ?_, ?_, ?_⟩
  · rw [hring]
    exact Ring.indexed_push left right h.indexed count
  · rw [hring, Ring.fill_push h.indexed.valid left right count hless]
    omega
  · rw [hring, Ring.frames_push left right h.indexed count hless, h.unread,
      List.drop_append_of_le_length hlength]
  · rw [resampler_ringPush]
    exact getElem?_grow h.last _
  · rw [resampler_ringPush]
    exact h.position
  · rw [resampler_ringPush]
    exact h.phase
  · rw [conceal_ringPush]
    exact h.clean

end Reading

section Position

theorem position_append (es fs : List Emission) {k : ℕ} (hk : k ≤ es.length) :
    Playback.position (es ++ fs) k = Playback.position es k := by
  rw [Playback.position, Playback.position, List.take_append_of_le_length hk]

theorem position_concat (es : List Emission) (e : Emission) :
    Playback.position (es ++ [e]) (es.length + 1) =
      Playback.position es es.length + e.ratio := by
  have hwhole : (es ++ [e]).take (es.length + 1) = es ++ [e] :=
    List.take_of_length_le (by simp)
  rw [Playback.position, Playback.position, hwhole, List.take_length, List.map_append,
    List.sum_append, List.map_singleton, List.sum_singleton]

theorem Interpolated.later {es : List Emission} {k : ℕ} {o : Output} (h : Interpolated x es k o)
    (hk : k ≤ es.length) (fs : List Emission) : Interpolated x (es ++ fs) k o := by
  rw [Interpolated, position_append es fs hk]
  exact h

theorem Interpolated.more {es : List Emission} {k : ℕ} {o : Output} (h : Interpolated x es k o)
    (y : List (Sample × Sample)) : Interpolated (x ++ y) es k o := by
  obtain ⟨f, g, hf, hg, ho⟩ := h
  exact ⟨f, g, getElem?_grow hf y, getElem?_grow hg y, ho⟩

end Position

structure Tracks (t : Playback) : Prop where
  samples : ∀ k e, t.emissions[k]? = some e →
    Interpolated t.frames t.emissions k e.output ∧
      |(e.consumed : ℚ) - Playback.position t.emissions (k + 1)| < 1 + e.ratio
  reading : t.player.resampler.primed = true →
    ∃ c, Reading t.frames (Playback.position t.emissions t.emissions.length) c t.player
  waiting : t.player.resampler.primed = false →
    t.emissions = [] ∧ t.player.ring.Indexed ∧ t.player.ring.frames = t.frames ∧
      t.player.conceal.active = false

variable {t : Playback}

section Sample

theorem Tracks.started (ht : t.Tracks) (h : ¬ t.player.Waits) :
    ∃ c, Reading t.frames (Playback.position t.emissions t.emissions.length) c
      t.player.started := by
  cases hprimed : t.player.resampler.primed with
  | true =>
    rw [started_of_primed hprimed]
    exact ht.reading hprimed
  | false =>
    obtain ⟨hnone, hindexed, hframes, hclean⟩ := ht.waiting hprimed
    have hfill : 2 ≤ t.player.ring.fill := not_lt.mp fun hfew => h ⟨hprimed, .inr hfew⟩
    have hnext : t.player.ring.next.fill = t.player.ring.fill - 1 :=
      Ring.fill_next hindexed.valid (by omega)
    have hall := Ring.frames_next hindexed (by omega)
    rw [hframes] at hall
    rw [started_of_unprimed hprimed, hnone, hall]
    refine ⟨0, Ring.indexed_next hindexed, ?_, rfl, rfl, ?_, le_rfl, hclean⟩
    · show 1 ≤ t.player.ring.next.fill
      omega
    · show ((0 : ℕ) : ℚ) + 0 = _
      norm_num [Playback.position]

theorem emission_spec (ht : t.Tracks) (hratio : 0 < ratio) (h : ¬ t.player.Waits)
    (hfed : ¬ t.player.Starves) :
    let pos := Playback.position t.emissions t.emissions.length
    Reading t.frames (pos + ratio) ⌊pos⌋₊ (t.player.sampled ratio d) ∧
      Interpolated t.frames t.emissions t.emissions.length (t.emission ratio d).output ∧
      |((t.emission ratio d).consumed : ℚ) - (pos + ratio)| < 1 + ratio := by
  obtain ⟨c, hstarted⟩ := ht.started h
  obtain ⟨hready, hphase⟩ := hstarted.ready hfed
  have hemitted := hready.emitted (d := d) hratio.le
  rw [← sampled_of_not_waits h] at hemitted
  have houtput : (t.emission ratio d).output = t.player.ready.voice d := heard_of_not_waits h
  have hconsumed : (t.emission ratio d).consumed =
      ⌊Playback.position t.emissions t.emissions.length⌋₊ + 1 := hemitted.consumed_eq
  refine ⟨hemitted, ⟨_, _, hready.last, hready.next, houtput.trans hready.voice⟩, ?_⟩
  have hposition := hready.position
  have hlow := hready.phase
  rw [hconsumed, abs_lt]
  push_cast
  constructor <;> linarith

theorem Tracks.sampled (ht : t.Tracks) (hratio : 0 < ratio)
    (hfed : t.player.Waits ∨ ¬ t.player.Starves) : (t.sampled ratio d).Tracks := by
  by_cases h : t.player.Waits
  · rw [Playback.sampled, if_pos h]
    exact ht
  obtain ⟨hreading, hinterpolated, hconsumed⟩ :=
    emission_spec (d := d) ht hratio h (hfed.resolve_left h)
  have hend : Playback.position (t.emissions ++ [t.emission ratio d]) (t.emissions.length + 1) =
      Playback.position t.emissions t.emissions.length + ratio := position_concat _ _
  rw [Playback.sampled, if_neg h]
  refine ⟨fun k e hk => ?_, fun _ => ?_, fun hno => ?_⟩
  · rcases lt_trichotomy k t.emissions.length with hlt | rfl | hgt
    · obtain ⟨hold, hbound⟩ := ht.samples k e (by rwa [List.getElem?_append_left hlt] at hk)
      rw [position_append _ _ hlt]
      exact ⟨hold.later hlt.le _, hbound⟩
    · rw [List.getElem?_concat_length] at hk
      obtain rfl := Option.some.inj hk
      rw [hend]
      exact ⟨hinterpolated.later le_rfl _, hconsumed⟩
    · rw [List.getElem?_eq_none (by simp; omega)] at hk
      cases hk
  · rw [List.length_append, List.length_singleton, hend]
    exact ⟨_, hreading⟩
  · exact absurd (hno.symm.trans (primed_sampled h)) (by decide)

end Sample

section Step

theorem Tracks.push (ht : t.Tracks) {count : ℕ}
    (hfits : t.player.ring.fill + count ≤ t.player.exactTarget.limit) (left right : ℕ → Sample) :
    (t.step (.push left right count)).Tracks := by
  have hring := ringPush_of_le hfits left right
  have hless : t.player.ring.fill + count < ringFrames := by
    have hlimit : t.player.exactTarget.limit ≤ ringFrames - 2 := min_le_left _ _
    omega
  refine ⟨fun k e hk => ?_, fun hprimed => ?_, fun hwaiting => ?_⟩
  · obtain ⟨hold, hbound⟩ := ht.samples k e hk
    exact ⟨hold.more _, hbound⟩
  · have hprimed' : (t.player.ringPush t.player.exactTarget left right count).resampler.primed = true := hprimed
    rw [resampler_ringPush] at hprimed'
    obtain ⟨c, h⟩ := ht.reading hprimed'
    exact ⟨c, h.push hring hless⟩
  · have hwaiting' : (t.player.ringPush t.player.exactTarget left right count).resampler.primed = false := hwaiting
    rw [resampler_ringPush] at hwaiting'
    obtain ⟨hnone, hindexed, hframes, hclean⟩ := ht.waiting hwaiting'
    refine ⟨hnone, ?_, ?_, ?_⟩
    · show (t.player.ringPush t.player.exactTarget left right count).ring.Indexed
      rw [hring]
      exact Ring.indexed_push left right hindexed count
    · show (t.player.ringPush t.player.exactTarget left right count).ring.frames = t.frames ++ _
      rw [hring, Ring.frames_push left right hindexed count hless, hframes]
    · show (t.player.ringPush t.player.exactTarget left right count).conceal.active = false
      rw [conceal_ringPush]
      exact hclean

theorem Tracks.others (ht : t.Tracks) (q : Player) : (t.step (.others q)).Tracks := by
  refine ⟨ht.samples, fun hprimed => ?_, ht.waiting⟩
  obtain ⟨c, h⟩ := ht.reading hprimed
  exact ⟨c, h.indexed, h.buffered, h.unread, h.last, h.position, h.phase, h.clean⟩

theorem Tracks.step (ht : t.Tracks) {e : Feed} (hfed : t.Fed e) : (t.step e).Tracks := by
  cases e with
  | push left right count => exact ht.push hfed left right
  | others q => exact ht.others q
  | pull ratio d count =>
    obtain ⟨hratio, hfed⟩ := hfed
    show ((Playback.sampled ratio d)^[count] t).Tracks
    induction count with
    | zero => exact ht
    | succ n ih =>
      rw [Function.iterate_succ_apply']
      exact (ih fun i hi => hfed i (by omega)).sampled hratio (hfed n n.lt_succ_self)

theorem tracks_run (p : Player) (hclean : p.conceal.active = false) {es : List Feed}
    (h : Runs.Along step Fed { player := p.ringReset } es) :
    (Runs.run step { player := p.ringReset } es).Tracks := by
  have hstart : Tracks { player := p.ringReset } := by
    refine ⟨nofun, nofun, fun _ => ⟨rfl, ?_, Ring.frames_of_zero rfl rfl, hclean⟩⟩
    constructor <;> simp [Player.ringReset, ringFrames]
  exact Runs.invariant_along (fun _ _ ht hfed => ht.step hfed) hstart h

theorem Tracks.outputs_eq {t t' : Playback} (ht : t.Tracks) (ht' : t'.Tracks)
    (hframes : t'.frames = t.frames)
    (hratios : t'.emissions.map Emission.ratio = t.emissions.map Emission.ratio) :
    t'.emissions.map Emission.output = t.emissions.map Emission.output := by
  have hlength : t'.emissions.length = t.emissions.length := by
    simpa using congrArg List.length hratios
  have hposition (k : ℕ) : Playback.position t'.emissions k = Playback.position t.emissions k := by
    rw [Playback.position, Playback.position, List.map_take, List.map_take, hratios]
  refine List.ext_getElem (by simpa using hlength) fun k hk hk' => ?_
  rw [List.length_map] at hk hk'
  obtain ⟨f, g, hf, hg, ho⟩ := (ht.samples k _ (List.getElem?_eq_getElem hk')).1
  obtain ⟨f', g', hf', hg', ho'⟩ := (ht'.samples k _ (List.getElem?_eq_getElem hk)).1
  rw [hframes, hposition] at hf' hg'
  rw [hposition] at ho'
  obtain rfl := Option.some.inj (hf'.symm.trans hf)
  obtain rfl := Option.some.inj (hg'.symm.trans hg)
  rw [List.getElem_map, List.getElem_map, ho, ho']

/-- From a reset with nothing left to conceal, as long as no push overflows the ring and no frame
is missing, each sample is the linear interpolation of the pushed frames at the sum of the
ratios before it, the frames consumed keep up with that sum, and how the samples are split into
calls of `pull` makes no difference. -/
theorem interpolates (p : Player) (hclean : p.conceal.active = false) (es : List Feed)
    (h : Runs.Along step Fed { player := p.ringReset } es) :
    let t := Runs.run step { player := p.ringReset } es
    (∀ k e, t.emissions[k]? = some e →
      Interpolated t.frames t.emissions k e.output ∧
        ∀ largest : ℚ, (∀ e' ∈ t.emissions, e'.ratio ≤ largest) →
          |(e.consumed : ℚ) - Playback.position t.emissions (k + 1)| < 1 + largest) ∧
      ∀ es', Runs.Along step Fed { player := p.ringReset } es' →
        let t' := Runs.run step { player := p.ringReset } es'
        t'.frames = t.frames → t'.emissions.map Emission.ratio = t.emissions.map Emission.ratio →
          t'.emissions.map Emission.output = t.emissions.map Emission.output := by
  have htracks := tracks_run p hclean h
  refine ⟨fun k e hk => ?_, fun es' h' => (htracks.outputs_eq (tracks_run p hclean h'))⟩
  obtain ⟨hinterpolated, hbound⟩ := htracks.samples k e hk
  refine ⟨hinterpolated, fun largest hlargest => hbound.trans_le ?_⟩
  exact add_le_add_right (hlargest e (List.mem_of_getElem? hk)) 1

def resampling : List Feed :=
  [.others { stream := { sampleRate := 1000 }, target := { ms := 2 } },
    .push (fun i => .number i) (fun i => .number (2 * i)) 4, .pull (3 / 2) 1 2,
    .push (fun i => .number (4 + i)) (fun i => .number (8 + 2 * i)) 2, .pull (1 / 2) 1 1]

theorem interpolates_resampling :
    let t := Runs.run step { player := ({} : Player).ringReset } resampling
    ∃ e, t.emissions[1]? = some e ∧ Interpolated t.frames t.emissions 1 e.output := by
  intro t
  obtain ⟨e, he⟩ : ∃ e, t.emissions[1]? = some e :=
    Option.isSome_iff_exists.mp (by decide +kernel)
  exact ⟨e, he, ((interpolates {} rfl resampling (by decide +kernel)).1 1 e he).1⟩

end Step

section Pull
variable (exp : ℚ → ℚ) (ctx : AudioContext) (now : ℚ) (count : ℕ)

theorem player_iterate (n : ℕ) (t : Playback) :
    ((sampled ratio d)^[n] t).player = (Player.sampled ratio d)^[n] t.player := by
  have hone (t : Playback) : (t.sampled ratio d).player = t.player.sampled ratio d := by
    unfold Playback.sampled
    split_ifs with hwaits
    · exact (sampled_of_waits hwaits).symm
    · rfl
  induction n with
  | zero => rfl
  | succ n ih => rw [Function.iterate_succ_apply', Function.iterate_succ_apply', hone, ih]

theorem frames_iterate (n : ℕ) (t : Playback) : ((sampled ratio d)^[n] t).frames = t.frames := by
  induction n with
  | zero => rfl
  | succ n ih =>
    rw [Function.iterate_succ_apply', Playback.sampled]
    split_ifs <;> exact ih

theorem outputs_iterate (n : ℕ) (t : Playback) :
    ((sampled ratio d)^[n] t).emissions.map Emission.output =
      t.emissions.map Emission.output ++ if t.player.Waits then [] else
        (List.range n).map fun i => ((Player.sampled ratio d)^[i] t.player).heard d := by
  induction n with
  | zero => simp
  | succ n ih =>
    have hplayer : ((sampled ratio d)^[n] t).player = (Player.sampled ratio d)^[n] t.player :=
      player_iterate n t
    rw [Function.iterate_succ_apply']
    by_cases h : t.player.Waits
    · rw [Function.iterate_fixed (sampled_of_waits h)] at hplayer
      rw [if_pos h] at ih ⊢
      rw [Playback.sampled, if_pos (hplayer ▸ h), ih]
    · have hstays : ¬ ((sampled ratio d)^[n] t).player.Waits := by
        rw [hplayer]
        exact not_waits_iterate n h
      rw [if_neg h] at ih ⊢
      rw [Playback.sampled, if_neg hstays, List.map_append, ih, List.map_singleton, emission,
        hplayer, List.range_succ, List.map_append, List.map_singleton, List.append_assoc]

theorem step_others {t : Playback} {q : Player} (hring : q.ring = t.player.ring)
    (hresampler : q.resampler = t.player.resampler) (hconceal : q.conceal = t.player.conceal) :
    t.step (.others q) = { t with player := q } := by
  rw [step, ← hring, ← hresampler, ← hconceal]

theorem pull_playback (t : Playback) (hplaying : t.player.playing = true)
    (hring : (t.player.atLoop ctx now count).ring = t.player.ring) :
    let loop := t.player.atLoop ctx now count
    let t' := Runs.run step t [.others loop,
      .pull (loop.ratio ctx) (concealDecay exp ctx) count,
      .others (t.player.pull exp ctx now count).2]
    t'.player = (t.player.pull exp ctx now count).2 ∧ t'.frames = t.frames ∧
      t'.emissions.map Emission.output = t.emissions.map Emission.output ++
        if loop.Waits then [] else (t.player.pull exp ctx now count).1 := by
  have hsteered := steered_atLoop ctx t.player now count
  have hplayer := pull_player exp ctx now count hplaying
  dsimp only
  rw [Runs.run_cons, Runs.run_cons, Runs.run_cons, Runs.run_nil,
    step_others hring hsteered.resampler hsteered.conceal]
  have hend : (({ t with player := t.player.atLoop ctx now count } : Playback).step
      (.pull ((t.player.atLoop ctx now count).ratio ctx) (concealDecay exp ctx) count)).player =
      t.player.before exp ctx now count count := player_iterate count _
  rw [step_others (by rw [hend, hplayer]) (by rw [hend, hplayer]) (by rw [hend, hplayer]),
    pull_output exp ctx now count hplaying]
  exact ⟨rfl, frames_iterate count _, outputs_iterate count _⟩

end Pull

end Playback
end Ppm.Receiver

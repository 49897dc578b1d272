import Mathlib.Algebra.Order.Floor.Ring
import Mathlib.Algebra.Order.Floor.Semiring
import Mathlib.Algebra.Order.Ring.WithTop
import Mathlib.Data.Rat.Floor
import Mathlib.Logic.Function.Basic
import PhonePostMix.Library.Resampling

/-! The page's player: the ring between the socket and the audio callback, the resampler, the
drift control and the concealment of underruns, in exact rational arithmetic. -/

namespace Ppm.Receiver

/-- A number of the page, its finite values exact. -/
inductive Sample
  | number (q : ℚ)
  | infinity (negative : Bool)
  | nan
  deriving DecidableEq, Repr

namespace Sample

def isFinite : Sample → Bool
  | number _ => true
  | _ => false

def neg : Sample → Sample
  | number q => number (-q)
  | infinity negative => infinity !negative
  | nan => nan

def add : Sample → Sample → Sample
  | number a, number b => number (a + b)
  | number _, infinity negative => infinity negative
  | infinity negative, number _ => infinity negative
  | infinity negative, infinity negative' =>
    if negative = negative' then infinity negative else nan
  | _, _ => nan

def scale (t : ℚ) : Sample → Sample
  -- a product with a finite number; an infinity times zero is not a number
  | number q => number (q * t)
  | infinity negative =>
    if t = 0 then nan else infinity (if t < 0 then !negative else negative)
  | nan => nan

def abs : Sample → Option (WithTop ℚ)
  -- `Math.abs`; none is NaN
  | number q => some (|q| : ℚ)
  | infinity _ => some ⊤
  | nan => none

@[simp] theorem isFinite_neg (s : Sample) : s.neg.isFinite = s.isFinite := by cases s <;> rfl

@[simp] theorem isFinite_add (s s' : Sample) :
    (s.add s').isFinite = (s.isFinite && s'.isFinite) := by
  cases s <;> cases s' <;> simp only [add] <;> try rfl
  split_ifs <;> rfl

@[simp] theorem isFinite_scale (t : ℚ) (s : Sample) : (s.scale t).isFinite = s.isFinite := by
  cases s <;> simp only [scale] <;> try rfl
  split_ifs <;> rfl

end Sample

def ringFrames : ℤ := 262144

def spnBuffer : ℕ := 4096

structure AudioContext where
  sampleRate : ℚ
  sampleRate_pos : 0 < sampleRate

/-- Two arrays of `ringFrames` samples; what lies outside them reads as undefined, and the page
computes with it as with NaN. -/
structure Ring where
  l : ℤ → Sample := fun i => if 0 ≤ i ∧ i < ringFrames then .number 0 else .nan
  r : ℤ → Sample := fun i => if 0 ≤ i ∧ i < ringFrames then .number 0 else .nan
  write : ℤ := 0
  read : ℤ := 0

structure Stream where
  sampleRate : ℚ := 48000
  channels : ℚ := 2
  format : ℕ := 0
  framesPerPacket : ℕ := 512
  configEpoch : ℤ := -1
  deriving DecidableEq, Repr

structure Stats where
  packets : ℕ := 0
  bytes : ℕ := 0
  bytesWindow : ℕ := 0
  lost : ℕ := 0
  reordered : ℕ := 0
  underruns : ℕ := 0
  resyncs : ℕ := 0
  lastSeq : ℤ := -1
  deriving DecidableEq, Repr

structure Target where
  ms : ℚ := 240
  floorMs : ℤ := 0
  deriving DecidableEq, Repr

structure Drift where
  integral : ℚ := 0
  correction : ℚ := 0
  ppm : ℚ := 0
  outOfRangeSince : ℚ := 0
  deriving DecidableEq, Repr

structure Resampler where
  phase : ℚ := 0
  prevL : Sample := .number 0
  prevR : Sample := .number 0
  primed : Bool := false
  deriving DecidableEq, Repr

structure Meter where
  l : WithTop ℚ := 0
  r : WithTop ℚ := 0

structure Conceal where
  active : Bool := false
  gain : ℚ := 1
  deriving DecidableEq, Repr

structure Scratch where
  length : ℕ := 8192
  l : ℕ → Sample := fun _ => .number 0
  r : ℕ → Sample := fun _ => .number 0

structure Player where
  ring : Ring := {}
  stream : Stream := {}
  stats : Stats := {}
  target : Target := {}
  drift : Drift := {}
  resampler : Resampler := {}
  meter : Meter := {}
  conceal : Conceal := {}
  scratch : Scratch := {}
  observedBlockFrames : ℕ := spnBuffer
  playing : Bool := false

namespace Ring

def fill (g : Ring) : ℤ :=
  -- `ringFill`; `%` keeps the sign of its left operand
  (g.write - g.read + ringFrames).tmod ringFrames

def put (g : Ring) (left right : Sample) : Ring where
  l := Function.update g.l g.write left
  r := Function.update g.r g.write right
  write := (g.write + 1).tmod ringFrames
  read := g.read

def push (g : Ring) (left right : ℕ → Sample) (count : ℕ) : Ring :=
  (List.range count).foldl (fun g i => g.put (left i) (right i)) g

def next (g : Ring) : Ring := { g with read := (g.read + 1).tmod ringFrames }

def discardTo (g : Ring) (wanted : ℚ) : Ring :=
  -- back to `wanted` frames behind the newest one
  { g with read := (g.write + ringFrames - ⌊wanted⌋).tmod ringFrames }

/-- The indices the page can reach. A resynchronisation with a target beyond the ring leaves
`read` negative. -/
structure Valid (g : Ring) : Prop where
  write_nonneg : 0 ≤ g.write
  write_lt : g.write < ringFrames
  read_gt : -ringFrames < g.read
  read_lt : g.read < ringFrames

theorem tmod_wrap {a : ℤ} (hlow : -ringFrames < a) (hhigh : a ≤ ringFrames) :
    a.tmod ringFrames = if a = ringFrames then 0 else a := by
  rcases le_or_gt 0 a with hpos | hneg
  · rw [Int.tmod_eq_emod_of_nonneg hpos]
    unfold ringFrames at *
    omega
  · have hflip : a.tmod ringFrames = -((-a).tmod ringFrames) := by rw [Int.neg_tmod, neg_neg]
    rw [hflip, Int.tmod_eq_emod_of_nonneg (by omega)]
    unfold ringFrames at *
    omega

variable {g : Ring}

theorem fill_eq (hg : g.Valid) : g.fill = (g.write - g.read) % ringFrames := by
  have hnonneg : 0 ≤ g.write - g.read + ringFrames := by
    have hwrite := hg.write_nonneg
    have hread := hg.read_lt
    omega
  rw [fill, Int.tmod_eq_emod_of_nonneg hnonneg, Int.add_emod_right]

theorem fill_nonneg (hg : g.Valid) : 0 ≤ g.fill := by
  rw [fill_eq hg]
  exact Int.emod_nonneg _ (by decide)

theorem fill_lt (hg : g.Valid) : g.fill < ringFrames := by
  rw [fill_eq hg]
  exact Int.emod_lt_of_pos _ (by decide)

theorem valid_of_zero (hwrite : g.write = 0) (hread : g.read = 0) : g.Valid := by
  refine ⟨?_, ?_, ?_, ?_⟩ <;> simp [hwrite, hread, ringFrames]

theorem fill_of_zero (hwrite : g.write = 0) (hread : g.read = 0) : g.fill = 0 := by
  rw [fill, hwrite, hread]
  exact Int.tmod_self

theorem valid_discardTo (hg : g.Valid) (wanted : ℚ) : (g.discardTo wanted).Valid :=
  ⟨hg.write_nonneg, hg.write_lt, Int.lt_tmod_of_pos _ (by decide),
    Int.tmod_lt_of_pos _ (by decide)⟩

theorem valid_next (hg : g.Valid) : g.next.Valid :=
  ⟨hg.write_nonneg, hg.write_lt, Int.lt_tmod_of_pos _ (by decide),
    Int.tmod_lt_of_pos _ (by decide)⟩

theorem fill_next (hg : g.Valid) (h : 1 ≤ g.fill) : g.next.fill = g.fill - 1 := by
  have hlow := hg.read_gt
  have hhigh := hg.read_lt
  rw [fill_eq hg] at h ⊢
  rw [fill_eq (valid_next hg)]
  have hread : g.next.read = if g.read + 1 = ringFrames then 0 else g.read + 1 :=
    tmod_wrap (by omega) (by omega)
  have hwrite : g.next.write = g.write := rfl
  rw [hread, hwrite]
  unfold ringFrames at *
  split_ifs <;> omega

theorem valid_put (hg : g.Valid) (left right : Sample) : (g.put left right).Valid := by
  have hwrite : (g.put left right).write = (g.write + 1) % ringFrames :=
    Int.tmod_eq_emod_of_nonneg (by have hpos := hg.write_nonneg; omega)
  refine ⟨?_, ?_, hg.read_gt, hg.read_lt⟩ <;> rw [hwrite] <;> unfold ringFrames <;> omega

theorem fill_put (hg : g.Valid) (left right : Sample) (h : g.fill + 1 < ringFrames) :
    (g.put left right).fill = g.fill + 1 := by
  have hwrite : (g.put left right).write = (g.write + 1) % ringFrames :=
    Int.tmod_eq_emod_of_nonneg (by have hpos := hg.write_nonneg; omega)
  have hread : (g.put left right).read = g.read := rfl
  rw [fill_eq hg] at h ⊢
  rw [fill_eq (valid_put hg left right), hwrite, hread]
  unfold ringFrames at *
  omega

theorem push_succ (left right : ℕ → Sample) (count : ℕ) :
    g.push left right (count + 1) = (g.push left right count).put (left count) (right count) := by
  simp [push, List.range_succ]

theorem valid_push (hg : g.Valid) (left right : ℕ → Sample) (count : ℕ) :
    (g.push left right count).Valid := by
  induction count with
  | zero => exact hg
  | succ n ih =>
    rw [push_succ]
    exact valid_put ih _ _

theorem fill_push (hg : g.Valid) (left right : ℕ → Sample) (count : ℕ)
    (h : g.fill + count < ringFrames) : (g.push left right count).fill = g.fill + count := by
  induction count with
  | zero => simp [push]
  | succ n ih =>
    push_cast at h
    have hn := ih (by omega)
    rw [push_succ, fill_put (valid_push hg left right n) _ _ (by omega), hn]
    push_cast
    ring

end Ring

namespace Player

def ringReset (p : Player) : Player :=
  { p with
    ring := { p.ring with read := 0, write := 0 }
    resampler := { p.resampler with primed := false, phase := 0 }
    drift := { p.drift with integral := 0, correction := 0 } }

def minimumTargetMs (ctx : AudioContext) (p : Player) : ℤ :=
  ⌈2 * (p.observedBlockFrames : ℚ) / ctx.sampleRate * 1000⌉

def refreshFloor (ctx : AudioContext) (p : Player) : Player :=
  { p with target := { p.target with floorMs := p.minimumTargetMs ctx } }

def effectiveTargetMs (p : Player) : ℚ := max p.target.ms p.target.floorMs

def targetFrames (p : Player) : ℚ :=
  -- in exact arithmetic
  p.effectiveTargetMs * (1 / 1000) * p.stream.sampleRate

end Player

/-- `targetFrames ()` and `targetFrames () * 3` as the page computes them, rounding each product;
a product keeps its sign. -/
structure TargetFrames where
  frames : ℚ
  thrice : ℚ
  thrice_neg : frames < 0 → thrice < 0

def TargetFrames.limit (T : TargetFrames) : ℤ := min (ringFrames - 2) ⌊T.thrice⌋

namespace Player

def exactTarget (p : Player) : TargetFrames where
  frames := p.targetFrames
  thrice := p.targetFrames * 3
  thrice_neg h := by linarith

def ringPush (p : Player) (T : TargetFrames) (left right : ℕ → Sample) (count : ℕ) : Player :=
  -- an overflow cuts the ring back to the target, and the new frames come on top of that
  let p :=
    if T.limit < p.ring.fill + count then
      { p with
        ring := p.ring.discardTo T.frames
        stats := { p.stats with resyncs := p.stats.resyncs + 1 } }
    else p
  { p with ring := p.ring.push left right count }

def resynchronise (wanted now : ℚ) (p : Player) : Player :=
  -- the branch of `updateDrift` where the correction is out of range at the time `now`
  if p.drift.outOfRangeSince = 0 then { p with drift := { p.drift with outOfRangeSince := now } }
  else if 5000 < now - p.drift.outOfRangeSince then
    { p with
      ring := p.ring.discardTo wanted
      drift := { p.drift with integral := 0, outOfRangeSince := 0 }
      stats := { p.stats with resyncs := p.stats.resyncs + 1 } }
  else p

def updateDrift (ctx : AudioContext) (now : ℚ) (blockFrames : ℕ) (p : Player) : Player :=
  let wanted := p.targetFrames
  if wanted ≤ 0 then p
  else
    let err := ((p.ring.fill : ℚ) - wanted) / wanted
    let integral := max (-50) (min 50 (p.drift.integral + err * (blockFrames / ctx.sampleRate)))
    let correction := 2 / 100000 * err + 1 / 1000000 * integral
    let clamped := max (-2 / 1000) (min (2 / 1000) correction)
    let p := { p with drift := { p.drift with integral } }
    let p :=
      if clamped ≠ correction then p.resynchronise wanted now
      else { p with drift := { p.drift with outOfRangeSince := 0 } }
    { p with drift := { p.drift with correction := clamped, ppm := clamped * 1000000 } }

def ratio (ctx : AudioContext) (p : Player) : ℚ :=
  p.stream.sampleRate / ctx.sampleRate * (1 + p.drift.correction)

def prime (p : Player) : Player :=
  { p with
    resampler :=
      { primed := true, phase := 0, prevL := p.ring.l p.ring.read, prevR := p.ring.r p.ring.read }
    ring := p.ring.next }

def underrun (p : Player) : Player :=
  if p.conceal.active then p
  else
    { p with
      conceal := { active := true, gain := 1 }
      stats := { p.stats with underruns := p.stats.underruns + 1 } }

def consume (p : Player) : Player :=
  { p with
    resampler :=
      { p.resampler with
        prevL := p.ring.l p.ring.read
        prevR := p.ring.r p.ring.read
        phase := p.resampler.phase - 1 }
    ring := p.ring.next
    conceal := { active := false, gain := 1 } }

/-- The `while` loop of `pull`, which an underrun breaks, for at most `n` iterations. -/
def catchUp : ℕ → Player → Player
  | 0, p => p
  | n + 1, p =>
    if p.resampler.phase < 1 then p
    else if p.ring.fill < 2 then p.underrun
    else catchUp n p.consume

end Player

structure Output where
  left : Sample
  right : Sample
  concealed : Bool
  deriving DecidableEq, Repr

structure Block where
  player : Player
  output : List Output := []
  peakL : WithTop ℚ := 0
  peakR : WithTop ℚ := 0

def interpolate (prev next : Sample) (t : ℚ) : Sample :=
  prev.add ((next.add prev.neg).scale t)

theorem interpolate_number (a b t : ℚ) :
    interpolate (.number a) (.number b) t = .number (a + (b - a) * t) := by
  rw [sub_eq_add_neg]
  rfl

theorem isFinite_interpolate (prev next : Sample) (t : ℚ) :
    (interpolate prev next t).isFinite = (prev.isFinite && next.isFinite) := by
  simp only [interpolate, Sample.isFinite_add, Sample.isFinite_scale, Sample.isFinite_neg]
  cases prev.isFinite <;> simp

def peak (old : WithTop ℚ) (s : Sample) : WithTop ℚ :=
  match s.abs with
  | none => old
  | some a => if old < a then a else old

namespace Block

def wait (b : Block) : Block :=
  { b with output := b.output ++ [⟨.number 0, .number 0, b.player.conceal.active⟩] }

def emit (ratio concealDecay : ℚ) (b : Block) : Block :=
  let p := b.player
  let gain := if p.conceal.active then p.conceal.gain * concealDecay else p.conceal.gain
  let channel (prev next : Sample) : Sample :=
    if p.conceal.active then prev.scale gain else interpolate prev next p.resampler.phase
  let sl := channel p.resampler.prevL (p.ring.l p.ring.read)
  let sr := channel p.resampler.prevR (p.ring.r p.ring.read)
  { player :=
      { p with
        conceal := { p.conceal with gain }
        resampler := { p.resampler with phase := p.resampler.phase + ratio } }
    output := b.output ++ [⟨sl, sr, p.conceal.active⟩]
    peakL := peak b.peakL sl
    peakR := peak b.peakR sr }

def sample (ratio concealDecay : ℚ) (b : Block) : Block :=
  let p := b.player
  if p.resampler.primed = false ∧ ((p.ring.fill : ℚ) < p.targetFrames ∨ p.ring.fill < 2) then
    b.wait
  else
    let p := if p.resampler.primed then p else p.prime
    emit ratio concealDecay { b with player := p.catchUp ⌊p.resampler.phase⌋₊ }

end Block

namespace Player

def atLoop (ctx : AudioContext) (now : ℚ) (count : ℕ) (p : Player) : Player :=
  { p with observedBlockFrames := count }.updateDrift ctx now count

def block (exp : ℚ → ℚ) (ctx : AudioContext) (now : ℚ) (count : ℕ) (p : Player) : Block :=
  -- the sample loop of `pull`; `exp` is `Math.exp`
  let p := p.atLoop ctx now count
  let concealDecay := exp (-1 / (6 / 1000 * ctx.sampleRate))
  (Block.sample (p.ratio ctx) concealDecay)^[count] { player := p }

def pull (exp : ℚ → ℚ) (ctx : AudioContext) (now : ℚ) (count : ℕ) (p : Player) :
    List Output × Player :=
  if !p.playing then (List.replicate count ⟨.number 0, .number 0, p.conceal.active⟩, p)
  else
    let b := p.block exp ctx now count
    (b.output,
      { b.player with
        meter :=
          { l := max b.peakL (b.player.meter.l * (82 / 100 : ℚ))
            r := max b.peakR (b.player.meter.r * (82 / 100 : ℚ)) } })

end Player
end Ppm.Receiver

import PhonePostMix.Library.Resampling
import PhonePostMix.Receiver.Incoming
import PhonePostMix.Receiver.Sampling

/-! The drift control: what it can answer to the fills it meets. -/

namespace Ppm.Receiver
namespace Player
open Feedback

def err (p : Player) : ℚ := ((p.ring.fill : ℚ) - p.targetFrames) / p.targetFrames

section Update
variable (ctx : AudioContext) (now : ℚ) (blockFrames : ℕ)

def integrated (p : Player) : ℚ :=
  clamp 50 (p.drift.integral + p.err * (blockFrames / ctx.sampleRate))

def correction (p : Player) : ℚ :=
  response (2 / 100000) (1 / 1000000) p.err (p.integrated ctx blockFrames)

variable {p : Player}

theorem clamp_correction (x : ℚ) : clamp (2 / 1000) x = max (-2 / 1000) (min (2 / 1000) x) := by
  rw [clamp, neg_div]

theorem updateDrift_in_range (htarget : 0 < p.targetFrames)
    (h : |p.correction ctx blockFrames| ≤ 2 / 1000) :
    p.updateDrift ctx now blockFrames =
      { p with
        drift :=
          { integral := p.integrated ctx blockFrames
            correction := p.correction ctx blockFrames
            ppm := p.correction ctx blockFrames * 1000000
            outOfRangeSince := 0 } } := by
  have hclamp := clamp_of_abs_le h
  rw [clamp_correction] at hclamp
  unfold updateDrift
  dsimp only
  rw [if_neg (not_le.mpr htarget)]
  unfold correction integrated response clamp err at hclamp ⊢
  rw [hclamp, if_neg (not_not.mpr rfl)]

theorem abs_integrated_le : |p.integrated ctx blockFrames| ≤ 50 := abs_clamp_le (by norm_num) _

theorem updateDrift_cases (p : Player) :
    (|p.drift.integral| ≤ 50 → |(p.updateDrift ctx now blockFrames).drift.integral| ≤ 50) ∧
      ((p.updateDrift ctx now blockFrames).ring = p.ring ∨
        0 < p.targetFrames ∧ 2 / 1000 < |p.correction ctx blockFrames| ∧
          (p.updateDrift ctx now blockFrames).ring = p.ring.discardTo p.targetFrames) := by
  rcases le_or_gt p.targetFrames 0 with hnone | htarget
  · rw [updateDrift]
    dsimp only
    rw [if_pos hnone]
    exact ⟨id, .inl rfl⟩
  rcases le_or_gt |p.correction ctx blockFrames| (2 / 1000) with hrange | hout
  · rw [updateDrift_in_range ctx now blockFrames htarget hrange]
    exact ⟨fun _ => abs_integrated_le ctx blockFrames, .inl rfl⟩
  · have hintegral : |p.integrated ctx blockFrames| ≤ 50 := abs_integrated_le ctx blockFrames
    unfold integrated clamp err at hintegral
    unfold updateDrift resynchronise
    dsimp only
    rw [if_neg (not_le.mpr htarget)]
    split_ifs
    · exact ⟨fun _ => hintegral, .inl rfl⟩
    · exact ⟨fun _ => by norm_num, .inr ⟨htarget, hout, rfl⟩⟩
    · exact ⟨fun _ => hintegral, .inl rfl⟩
    · exact ⟨fun _ => hintegral, .inl rfl⟩

theorem neg_one_le_err (hring : p.ring.Valid) (htarget : 0 < p.targetFrames) : -1 ≤ p.err := by
  have hfill : (0 : ℚ) ≤ p.ring.fill := by exact_mod_cast Ring.fill_nonneg hring
  rw [err, le_div_iff₀ htarget]
  linarith

theorem fill_of_out_of_range (hring : p.ring.Valid) (htarget : 0 < p.targetFrames)
    (hout : 2 / 1000 < |p.correction ctx blockFrames|) : 98 * p.targetFrames < p.ring.fill := by
  have hlow := neg_one_le_err hring htarget
  have hlarge : 2 / 1000 - 1 / 1000000 * 50 < 2 / 100000 * |p.err| :=
    lt_of_lt_abs_response (by norm_num) (by norm_num) (abs_integrated_le ctx blockFrames) hout
  have herr : 97 < p.err := by
    rcases le_total 0 p.err with hpos | hneg
    · rw [abs_of_nonneg hpos] at hlarge
      linarith
    · rw [abs_of_nonpos hneg] at hlarge
      linarith
  rw [err, lt_div_iff₀ htarget] at herr
  linarith

end Update

/-- The target stays at `T`, and the packets are of a size that suits it. -/
def Steady (exp : ℚ → ℚ) (ctx : AudioContext) (T : ℚ) (p : Player) (i : Incoming) : Prop :=
  (p.take exp ctx i).targetFrames = T ∧
    ∀ buffer, i = .event (.packet buffer) → Passes buffer →
      ((readHeader buffer).frames : ℚ) ≤ 2 * T ∧
        T + (readHeader buffer).frames < ringFrames - 2

structure Controlled (T since : ℚ) (p : Player) : Prop where
  indexed : p.ring.Indexed
  target : p.targetFrames = T
  fill_le : (p.ring.fill : ℚ) ≤ 3 * T
  correction : |p.drift.correction| ≤ 9 / 100000
  quiet : since = 0 → p.drift.outOfRangeSince = 0

section Run
variable {exp : ℚ → ℚ} {ctx : AudioContext} {T since : ℚ} {p : Player}

theorem Controlled.abs_err_le (h : Controlled T since p) (hT : 0 < T) : -1 ≤ p.err ∧ p.err ≤ 2 := by
  have htarget : 0 < p.targetFrames := h.target ▸ hT
  refine ⟨neg_one_le_err h.indexed.valid htarget, ?_⟩
  have hfill := h.fill_le
  rw [err, div_le_iff₀ htarget, h.target]
  linarith

theorem Controlled.correction_le (h : Controlled T since p) (hT : 0 < T) (blockFrames : ℕ) :
    |p.correction ctx blockFrames| ≤ 9 / 100000 := by
  obtain ⟨hlow, hhigh⟩ := h.abs_err_le hT
  have herr : |p.err| ≤ 2 := abs_le.mpr ⟨by linarith, hhigh⟩
  have hresponse : |p.correction ctx blockFrames| ≤ 2 / 100000 * 2 + 1 / 1000000 * 50 :=
    abs_response_le (by norm_num) (by norm_num) herr (abs_integrated_le ctx blockFrames)
  linarith

theorem Controlled.updateDrift_eq (h : Controlled T since p) (hT : 0 < T) (now : ℚ)
    (blockFrames : ℕ) :
    p.updateDrift ctx now blockFrames =
      { p with
        drift :=
          { integral := p.integrated ctx blockFrames
            correction := p.correction ctx blockFrames
            ppm := p.correction ctx blockFrames * 1000000
            outOfRangeSince := 0 } } := by
  have hcorrection : |p.correction ctx blockFrames| ≤ 9 / 100000 := h.correction_le hT blockFrames
  exact updateDrift_in_range ctx now blockFrames (h.target ▸ hT) (by linarith)

theorem controlled_ringReset (hT : 0 < T) (htarget : p.targetFrames = T)
    (hquiet : since = 0 → p.drift.outOfRangeSince = 0) : Controlled T since p.ringReset := by
  have hempty : p.ringReset.ring.fill = 0 := Ring.fill_of_zero rfl rfl
  refine ⟨Ring.indexed_of_reset ⟨rfl, rfl⟩, htarget, ?_, ?_, hquiet⟩
  · rw [hempty]
    push_cast
    linarith
  · norm_num [ringReset]

theorem Controlled.carried {q : Player} (h : Controlled T since p) (hcarried : Carried p q)
    (htarget : q.targetFrames = T) : Controlled T since q := by
  refine ⟨?_, htarget, ?_, ?_, ?_⟩
  · rw [hcarried.ring]
    exact h.indexed
  · rw [hcarried.ring]
    exact h.fill_le
  · rw [hcarried.drift]
    exact h.correction
  · rw [hcarried.drift]
    exact h.quiet

theorem Controlled.ringPush (h : Controlled T since p) (hT : 0 < T) {count : ℕ}
    (hroomy : p.Roomy count) (left right : ℕ → Sample) :
    Controlled T since (p.ringPush p.exactTarget left right count) := by
  have htarget : 0 ≤ p.targetFrames := h.target ▸ hT.le
  have hdisciplined := (hroomy.safePush h.indexed htarget).disciplined h.indexed left right
  refine ⟨hdisciplined.indexed, ?_, ?_, ?_, ?_⟩
  · rw [targetFrames_ringPush]
    exact h.target
  · rw [← h.target]
    have hthree : ((min (ringFrames - 2) ⌊p.targetFrames * 3⌋ : ℤ) : ℚ) ≤ 3 * p.targetFrames := by
      rw [mul_comm 3]
      exact (Int.cast_le.mpr (min_le_right _ _)).trans (Int.floor_le _)
    have hcut : ((⌊p.targetFrames⌋ + count : ℤ) : ℚ) ≤ 3 * p.targetFrames := by
      have hfloor := Int.floor_le p.targetFrames
      have htwice := hroomy.1
      push_cast
      linarith
    rcases le_max_iff.mp hdisciplined.fill_le with hkept | hcutBack
    · exact (Int.cast_le.mpr hkept).trans hthree
    · exact (Int.cast_le.mpr hcutBack).trans hcut
  · rw [drift_ringPush]
    exact h.correction
  · rw [drift_ringPush]
    exact h.quiet

theorem Controlled.next {q : Player} (h : Controlled T since p) (hfill : 2 ≤ p.ring.fill)
    (hring : q.ring = p.ring.next) (htarget : q.targetFrames = p.targetFrames)
    (hdrift : q.drift = p.drift) : Controlled T since q := by
  refine ⟨?_, htarget.trans h.target, ?_, ?_, ?_⟩
  · rw [hring]
    exact Ring.indexed_next h.indexed
  · have hbound := h.fill_le
    rw [hring, Ring.fill_next h.indexed.valid (by omega)]
    push_cast
    linarith
  · rw [hdrift]
    exact h.correction
  · rw [hdrift]
    exact h.quiet

theorem Controlled.underrun (h : Controlled T since p) : Controlled T since p.underrun := by
  unfold Player.underrun
  split_ifs
  · exact h
  · exact ⟨h.indexed, h.target, h.fill_le, h.correction, h.quiet⟩

theorem Controlled.sampled (ratio d : ℚ) (h : Controlled T since p) :
    Controlled T since (p.sampled ratio d) := by
  by_cases hwaits : p.Waits
  · rw [sampled_of_waits hwaits]
    exact h
  have hready : Controlled T since p.ready :=
    ready_invariant (fun _ hp _ hfill => hp.next hfill rfl rfl rfl)
      (fun _ hp _ hfill => hp.next hfill rfl rfl rfl) (fun _ hp _ _ => hp.underrun) hwaits h
  rw [sampled_of_not_waits hwaits]
  exact ⟨hready.indexed, hready.target, hready.fill_le, hready.correction, hready.quiet⟩

theorem Controlled.atLoop (h : Controlled T since p) (hT : 0 < T) (now : ℚ) (count : ℕ) :
    Controlled T since (p.atLoop ctx now count) := by
  have hobserved : Controlled T since { p with observedBlockFrames := count } :=
    ⟨h.indexed, h.target, h.fill_le, h.correction, h.quiet⟩
  rw [Player.atLoop, hobserved.updateDrift_eq hT]
  exact ⟨h.indexed, h.target, h.fill_le, hobserved.correction_le hT count, fun _ => rfl⟩

theorem Controlled.pull (h : Controlled T since p) (hT : 0 < T) (now : ℚ) (count : ℕ) :
    Controlled T since (p.pull exp ctx now count).2 := by
  cases hplaying : p.playing with
  | false =>
    rw [pull_stopped exp ctx now count hplaying]
    exact h
  | true =>
    have hend : Controlled T since (p.before exp ctx now count count) :=
      before_invariant exp ctx now count (h.atLoop hT now count)
        (fun _ hq => hq.sampled _ _) count
    rw [pull_player exp ctx now count hplaying]
    exact ⟨hend.indexed, hend.target, hend.fill_le, hend.correction, hend.quiet⟩

theorem Controlled.cleared (h : Controlled T since p) (hT : 0 < T) (i : Incoming) :
    Controlled T since (p.cleared i) := by
  unfold Player.cleared
  split_ifs
  · exact controlled_ringReset hT h.target h.quiet
  · exact h

theorem Controlled.take (h : Controlled T since p) (hT : 0 < T) {i : Incoming}
    (hsteady : p.Steady exp ctx T i) : Controlled T since (p.take exp ctx i) := by
  have hcleared := h.cleared hT i
  obtain ⟨htarget, hpackets⟩ := hsteady
  rcases take_cases exp ctx p i with ⟨now, count, rfl⟩ | ⟨-, hcarried⟩ |
    ⟨buffer, hi, hpasses, r, left, right, hcarried, -, -, htake⟩
  · exact h.pull hT now count
  · exact hcleared.carried hcarried htarget
  · rw [htake, targetFrames_ringPush] at htarget
    have hroomy : r.Roomy (readHeader buffer).frames := by
      rw [Roomy, htarget]
      exact hpackets buffer hi hpasses
    rw [htake]
    exact (hcleared.carried hcarried htarget).ringPush hT hroomy left right

theorem Controlled.steady_pull (h : Controlled T since p) (hT : 0 < T) (now : ℚ) (count : ℕ) :
    p.Steady exp ctx T (.event (.pull now count)) := ⟨(h.pull hT now count).target, nofun⟩

/-- From a reset on, with a steady target and packets that suit it, the error of the fill and
the correction stay in a range in which the clamp changes nothing. -/
theorem drift_range (p : Player) (hT : 0 < p.targetFrames) (is : List Incoming)
    (h : Runs.Along (take exp ctx) (Steady exp ctx p.targetFrames) p.ringReset is) :
    let q := Runs.run (take exp ctx) p.ringReset is
    (-1 ≤ q.err ∧ q.err ≤ 2) ∧ |q.drift.correction| ≤ 9 / 100000 ∧
      (p.drift.outOfRangeSince = 0 → q.drift.outOfRangeSince = 0) ∧
      ∀ (now : ℚ) (blockFrames : ℕ),
        let u := q.updateDrift ctx now blockFrames
        u.drift.correction = 2 / 100000 * q.err + 1 / 1000000 * u.drift.integral ∧
          |u.drift.correction| ≤ 9 / 100000 ∧ u.drift.outOfRangeSince = 0 ∧ u.ring = q.ring := by
  have hcontrolled : Controlled p.targetFrames p.drift.outOfRangeSince
      (Runs.run (take exp ctx) p.ringReset is) :=
    Runs.invariant_along (fun _ _ hq hsteady => hq.take hT hsteady)
      (controlled_ringReset hT rfl id) h
  refine ⟨hcontrolled.abs_err_le hT, hcontrolled.correction, hcontrolled.quiet,
    fun now blockFrames => ?_⟩
  dsimp only
  rw [hcontrolled.updateDrift_eq hT]
  exact ⟨rfl, hcontrolled.correction_le hT blockFrames, rfl, rfl⟩

def feeding (samples : List UInt8) : List Incoming :=
  [.event (.packet (audioPacket 0 samples)), .event (.pull 0 4096)]

theorem steady_feeding {samples : List UInt8} (hsamples : samples.length = 16384)
    (hT : 0 < tuned.targetFrames) :
    Runs.Along (take exp phone) (Steady exp phone tuned.targetFrames) tuned.ringReset
      (feeding samples) := by
  have htarget : tuned.targetFrames = 11520 := at_tuned.targetFrames
  have hpacket := at_packet exp at_tuned (by decide) 0 hsamples
  have hsteady : Steady exp phone tuned.targetFrames tuned.ringReset
      (.event (.packet (audioPacket 0 samples))) := by
    refine ⟨hpacket.targetFrames.trans htarget.symm, ?_⟩
    rintro buffer ⟨⟩ -
    rw [readHeader_audioPacket, htarget]
    norm_num [ringFrames, audioHeader]
  have hcontrolled := (controlled_ringReset hT rfl id).take hT hsteady
  exact ⟨hsteady, hcontrolled.steady_pull hT 0 4096, trivial⟩

theorem drift_range_feeding :
    |(Runs.run (take (fun _ => 1) phone) tuned.ringReset
      (feeding (List.replicate 16384 0))).drift.correction| ≤ 9 / 100000 := by
  have hT : 0 < tuned.targetFrames := by
    rw [show tuned.targetFrames = 11520 from at_tuned.targetFrames]
    norm_num
  exact (drift_range tuned hT _ (steady_feeding List.length_replicate hT)).2.1

end Run
end Player
end Ppm.Receiver

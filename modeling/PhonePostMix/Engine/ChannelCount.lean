import PhonePostMix.Engine.StreamEngine

/-! The channel count an iteration samples, the one the ring has when frames are copied out
of it, and what keeps the two the same. -/

namespace Ppm.Engine
open Wire

namespace Stage

def active : Stage → Bool
  | .enter | .getSettings => false
  | _ => true

def sampled : Stage → Bool
  | .enter | .getSettings | .readChannels => false
  | _ => true

def sized : Stage → Bool
  | .enter | .getSettings | .readChannels | .resizeScratch => false
  | _ => true

def described : Stage → Bool
  | .readEpoch | .checkRing | .readRing | .sendPacket => true
  | _ => false

end Stage

namespace StreamEngine
variable {α : Type} [Zero α]

def Stale (e : StreamEngine α) : Prop :=
  0 < e.ring.channels ∧ 0 < min e.iteration.frames.toNat e.ring.getNumReady ∧
    e.currentChannels ≠ e.iteration.sampledFrom

instance (e : StreamEngine α) : Decidable e.Stale := by
  unfold Stale
  infer_instance

/-- No other channel count has been prepared between an iteration's look at the count and its
copy out of the ring. -/
def ChannelsKept (e : StreamEngine α) (ev : EngineEvent α) : Prop :=
  match ev, e.stage with
  | .stream _, some .readRing => ¬ e.Stale
  | _, _ => True

instance (e : StreamEngine α) (ev : EngineEvent α) : Decidable (e.ChannelsKept ev) := by
  unfold ChannelsKept
  split <;> infer_instance

/-- Copies fit the scratch buffer, and packets declare the count their frames have. -/
def ChannelsMatch (e : StreamEngine α) : Prop :=
  (∀ c ∈ e.copies, c.1 ≤ c.2) ∧
    ∀ p ∈ e.sent, ∀ channels ∈ p.copied, p.info.channels.toNat = channels

structure Sampling (e : StreamEngine α) : Prop where
  current : e.currentChannels = 1 ∨ e.currentChannels = 2
  sampled : ∀ s ∈ e.stage, s.sampled = true →
    e.iteration.channels.toNat = e.iteration.sampledFrom
  ring : 0 < e.ring.channels → e.ring.channels = e.currentChannels
  sized : ∀ s ∈ e.stage, s.sized = true → e.iteration.numSamples ≤ e.scratch.length
  described : ∀ s ∈ e.stage, s.described = true →
    e.iteration.info.channels = e.iteration.channels ∧
      e.iteration.info.frames = e.iteration.frames
  copied : e.stage = some .sendPacket → ∀ channels ∈ e.iteration.copied,
    e.iteration.channels.toNat = channels
  matched : ChannelsMatch e

omit [Zero α] in
theorem sampling_new : Sampling ({} : StreamEngine α) where
  current := .inr rfl
  sampled := by simp
  ring h := absurd h (by simp [AudioRingBuffer.released])
  sized := by simp
  described := by simp
  copied := by simp
  matched := ⟨by simp, by simp⟩

variable {e : StreamEngine α}

theorem sampling_prepare (h : Sampling e) (sampleRate : ℚ) (maximumBlockSize numChannels : ℤ) :
    Sampling (e.prepare sampleRate maximumBlockSize numChannels) := by
  refine ⟨?_, h.sampled, fun _ => rfl, h.sized, h.described, h.copied, h.matched⟩
  show (jlimit 1 2 numChannels).toNat = 1 ∨ (jlimit 1 2 numChannels).toNat = 2
  unfold jlimit
  omega

theorem sampling_checkRing (h : Sampling e) (clock : UInt32) (hstage : e.stage = some .checkRing) :
    Sampling (e.checkRing clock) := by
  have hsampled := h.sampled _ hstage rfl
  have hsized := h.sized _ hstage rfl
  have hdescribed := h.described _ hstage rfl
  unfold checkRing
  dsimp only
  split_ifs
  · refine ⟨h.current, fun _ _ _ => hsampled, h.ring, ?_, ?_, ?_, h.matched⟩
    · exact fun _ _ _ => hsized
    · exact fun _ _ _ => hdescribed
    · exact fun _ _ hnone => absurd hnone (by simp)
  · exact ⟨h.current, by simp [Stage.sampled], h.ring, by simp [Stage.sized],
      by simp [Stage.described], by simp, h.matched⟩
  · refine ⟨h.current, fun _ _ _ => hsampled, h.ring, fun _ _ _ => ?_, fun _ _ _ => hdescribed,
      ?_, h.matched⟩
    · show e.iteration.numSamples ≤ _
      rw [List.length_append, List.length_replicate]
      exact Nat.le_add_right _ _
    · exact fun _ _ hnone => absurd hnone (by simp)

omit [Zero α] in
theorem readRing_floats (h : Sampling e) (hstage : e.stage = some .readRing)
    (hkept : ¬ e.Stale) :
    (e.ring.read e.iteration.frames.toNat).2.1.length ≤ e.scratch.length ∧
      ((e.ring.read e.iteration.frames.toNat).1 ≠ 0 →
        e.iteration.channels.toNat = e.ring.channels) := by
  have hsized := h.sized _ hstage rfl
  obtain ⟨hcount, -⟩ := AudioRingBuffer.read_spec e.ring e.iteration.frames.toNat
  rw [AudioRingBuffer.length_read]
  rcases Nat.eq_zero_or_pos (e.ring.read e.iteration.frames.toNat).1 with hzero | hpos
  · rw [hzero]
    exact ⟨by omega, fun hne => absurd rfl hne⟩
  · -- something was read, so the ring is prepared and its count is the current one
    have hchannels : e.ring.channels ≠ 0 := by
      intro hnone
      rw [hcount, if_pos hnone] at hpos
      omega
    rw [if_neg hchannels] at hcount
    have hsame : e.iteration.channels.toNat = e.ring.channels := by
      rw [h.ring (Nat.pos_of_ne_zero hchannels), h.sampled _ hstage rfl]
      by_contra hother
      exact hkept ⟨Nat.pos_of_ne_zero hchannels, hcount ▸ hpos, Ne.symm hother⟩
    refine ⟨?_, fun _ => hsame⟩
    calc (e.ring.read e.iteration.frames.toNat).1 * e.ring.channels
        ≤ e.iteration.frames.toNat * e.ring.channels :=
          Nat.mul_le_mul_right _ (hcount ▸ Nat.min_le_left _ _)
      _ = e.iteration.numSamples := by rw [Iteration.numSamples, hsame]
      _ ≤ e.scratch.length := hsized

omit [Zero α] in
theorem sampling_readRing (h : Sampling e) (hstage : e.stage = some .readRing)
    (hkept : ¬ e.Stale) : Sampling e.readRing := by
  obtain ⟨hfloats, hsame⟩ := readRing_floats h hstage hkept
  have hchannels := (AudioRingBuffer.read_spec e.ring e.iteration.frames.toNat).2.2.1
  refine ⟨h.current, fun _ _ _ => h.sampled _ hstage rfl, ?_, ?_, ?_, ?_, ?_, h.matched.2⟩
  · show 0 < (e.ring.read e.iteration.frames.toNat).2.2.channels → _
    rw [hchannels]
    exact fun hpos => hchannels.trans (h.ring hpos)
  · intro s _ _
    show e.iteration.numSamples ≤ (_ ++ List.drop _ e.scratch).length
    have hsized := h.sized _ hstage rfl
    rw [List.length_append, List.length_drop]
    omega
  · exact fun _ _ _ => h.described _ hstage rfl
  · intro _ channels hcopied
    simp only [readRing] at hcopied
    split_ifs at hcopied with hzero
    · simp at hcopied
    · obtain rfl : e.ring.channels = channels := by simpa using hcopied
      exact hsame hzero
  · intro c hc
    rcases List.mem_append.mp hc with hold | hnew
    · exact h.matched.1 c hold
    · rw [List.mem_singleton.mp hnew]
      exact hfloats

omit [Zero α] in
theorem sampling_sendPacket (h : Sampling e) (clock : UInt32)
    (hstage : e.stage = some .sendPacket) : Sampling (e.sendPacket clock) := by
  refine ⟨h.current, by simp [sendPacket, Stage.sampled], h.ring,
    by simp [sendPacket, Stage.sized], by simp [sendPacket, Stage.described],
    by simp [sendPacket], h.matched.1, ?_⟩
  intro p hp channels hchannels
  rcases List.mem_append.mp hp with hold | hnew
  · exact h.matched.2 p hold channels hchannels
  · rw [List.mem_singleton.mp hnew] at hchannels ⊢
    show e.iteration.info.channels.toNat = channels
    rw [(h.described _ hstage rfl).1]
    exact h.copied hstage channels hchannels

omit [Zero α] in
theorem sampling_unsampled (h : Sampling e) {e' : StreamEngine α}
    (hstage : ∀ s ∈ e'.stage, s.sampled = false) (hcurrent : e'.currentChannels = e.currentChannels)
    (hring : e'.ring = e.ring) (hcopies : e'.copies = e.copies) (hsent : e'.sent = e.sent) :
    Sampling e' := by
  have hnot : ∀ s ∈ e'.stage, ¬ s.sampled = true := fun s hs => by simp [hstage s hs]
  refine ⟨hcurrent ▸ h.current, fun s hs hsampled => absurd hsampled (hnot s hs),
    hring ▸ hcurrent ▸ h.ring, fun s hs hsized => absurd ?_ (hnot s hs),
    fun s hs hdescribed => absurd ?_ (hnot s hs), fun hs => absurd rfl (hnot _ hs), ?_⟩
  · cases s <;> simp_all [Stage.sized, Stage.sampled]
  · cases s <;> simp_all [Stage.described, Stage.sampled]
  · rw [ChannelsMatch, hcopies, hsent]
    exact h.matched

theorem sampling_streamStep (h : Sampling e) (clock : UInt32)
    (hkept : e.ChannelsKept (.stream clock)) : Sampling (e.streamStep clock) := by
  unfold streamStep
  rcases hstage : e.stage with _ | s
  · exact h
  cases s with
  | enter => exact sampling_unsampled h (by simp [Stage.sampled]) rfl rfl rfl rfl
  | getSettings =>
    dsimp only
    split_ifs <;> exact sampling_unsampled h (by simp [Stage.sampled]) rfl rfl rfl rfl
  | readChannels =>
    refine ⟨h.current, fun _ _ _ => ?_, h.ring, by simp [Stage.sized], by simp [Stage.described],
      by simp, h.matched⟩
    show (UInt8.ofNat (max 1 e.currentChannels)).toNat = e.currentChannels
    rcases h.current with hmono | hstereo
    · rw [hmono]
      rfl
    · rw [hstereo]
      rfl
  | resizeScratch =>
    refine ⟨h.current, fun _ _ _ => h.sampled _ hstage rfl, h.ring, fun _ _ _ => ?_,
      by simp [resizeScratch, Stage.described], by simp [resizeScratch], h.matched⟩
    simp only [resizeScratch, List.length_append, List.length_replicate]
    omega
  | readPlaying =>
    exact ⟨h.current, fun _ _ _ => h.sampled _ hstage rfl, h.ring,
      fun _ _ _ => h.sized _ hstage rfl, by simp [Stage.described], by simp, h.matched⟩
  | readSampleRate =>
    -- the header takes the channel count that this iteration has sampled
    exact ⟨h.current, fun _ _ _ => h.sampled _ hstage rfl, h.ring,
      fun _ _ _ => h.sized _ hstage rfl, fun _ _ _ => ⟨rfl, rfl⟩, by simp, h.matched⟩
  | readEpoch =>
    exact ⟨h.current, fun _ _ _ => h.sampled _ hstage rfl, h.ring,
      fun _ _ _ => h.sized _ hstage rfl, fun _ _ _ => h.described _ hstage rfl, by simp,
      h.matched⟩
  | checkRing => exact sampling_checkRing h clock hstage
  | readRing =>
    apply sampling_readRing h hstage
    simpa only [ChannelsKept, hstage] using hkept
  | sendPacket => exact sampling_sendPacket h clock hstage

theorem sampling_step (h : Sampling e) (ev : EngineEvent α) (hkept : e.ChannelsKept ev) :
    Sampling (e.step ev) := by
  cases ev with
  | stream clock => exact sampling_streamStep h clock hkept
  | pushAudio buffer =>
    simp only [step, pushAudio]
    split_ifs
    · refine ⟨h.current, h.sampled, ?_, h.sized, h.described, h.copied, h.matched⟩
      show 0 < (e.ring.write buffer).2.channels → _
      rw [AudioRingBuffer.write_channels]
      exact h.ring
    · exact h
  | prepare sampleRate maximumBlockSize numChannels =>
    exact sampling_prepare h sampleRate maximumBlockSize numChannels
  | release =>
    refine ⟨h.current, h.sampled, fun hpos => ?_, h.sized, h.described, h.copied, h.matched⟩
    exact absurd hpos (by simp [step, AudioRingBuffer.release, AudioRingBuffer.released])
  | setSettings settings =>
    simp only [step, setSettings]
    split_ifs <;>
      exact ⟨h.current, h.sampled, h.ring, h.sized, h.described, h.copied, h.matched⟩
  | setHostPlaying isPlaying =>
    exact ⟨h.current, h.sampled, h.ring, h.sized, h.described, h.copied, h.matched⟩
  | start bound =>
    simp only [step, start]
    split_ifs
    · exact h
    · exact sampling_unsampled h (by simp [Stage.sampled]) rfl rfl rfl rfl
  | stop =>
    simp only [step, stop]
    split_ifs
    · exact ⟨h.current, h.sampled, h.ring, h.sized, h.described, h.copied, h.matched⟩
    · exact h

/-- In every run in which the channel count is still the one that the iteration found whenever
frames are copied, the copies fit and the packets declare the count of their frames. -/
theorem channelsMatch_run (es : List (EngineEvent α))
    (h : Runs.Along step ChannelsKept ({} : StreamEngine α) es) :
    ChannelsMatch (run ({} : StreamEngine α) es) :=
  (Runs.invariant_along (I := Sampling) (fun _ ev hs hkept => sampling_step hs ev hkept)
    sampling_new h).matched

def ramp (numChannels numSamples : ℕ) (h : 0 < numChannels) : AudioBuffer ℕ :=
  ⟨numChannels, numSamples, fun ch i => 1000 * ch + i + 1, h⟩

theorem channelsMatch_stereo : ChannelsMatch (run ({} : StreamEngine ℕ)
    ([.setSettings { framesPerPacket := 128 }, .prepare 48000 128 2, .start true,
      .pushAudio (ramp 2 128 (by decide))] ++ List.replicate 11 (.stream 0))) :=
  channelsMatch_run _ (by decide +kernel)

/-- Mono is sampled, the host prepares for stereo and pushes a block: 256 floats go into a
scratch buffer of 128, and the packet declares one channel. -/
theorem mono_sampled_stereo_copied :
    let e := run ({} : StreamEngine ℕ)
      ([.setSettings { framesPerPacket := 128 }, .prepare 48000 128 1, .start true] ++
        List.replicate 5 (.stream 0) ++
        [.prepare 48000 128 2, .pushAudio (ramp 2 128 (by decide))] ++
        List.replicate 6 (.stream 0))
    e.copies = [(256, 128)] ∧ e.sent.map (fun p => (p.info.channels, p.copied)) = [(1, some 2)] ∧
      ¬ ChannelsMatch e := by
  intro e
  have hcopies : e.copies = [(256, 128)] := by decide +kernel
  refine ⟨hcopies, by decide +kernel, fun h => ?_⟩
  have hfits := h.1 (256, 128) (by simp [hcopies])
  exact absurd hfits (by decide)

end StreamEngine
end Ppm.Engine

import PhonePostMix.Engine.Host

/-! Overruns of the ring as the receiver sees them: a discarded block leaves a gap in the frames
the packets carry, and the headers go on as if there were none. -/

namespace Ppm.Engine
open Wire

def Continues (previous info : PacketInfo) : Prop :=
  -- sequence number and sample clock go on where the packet before ended
  info.sequence = previous.sequence + 1 ∧
    info.sampleClock = previous.sampleClock + previous.frames.toUInt64

/-- The headers tell that audio may be missing before this packet or in it. -/
def ShowsGap (previous : Option PacketInfo) (info : PacketInfo) : Prop :=
  info.flags &&& Flags.discontinuity ≠ 0 ∨ ∃ last ∈ previous, ¬ Continues last info

/-- Wherever two consecutive transmitted frames were not adjacent in the host's audio, the
packet with the later one shows it. -/
def GapsVisible (sent : List (Packet ℕ)) : Prop :=
  ∀ earlier p later, sent = earlier ++ p :: later →
    ∀ i a b, (transmitted (earlier ++ [p]))[i]? = some a →
      (transmitted (earlier ++ [p]))[i + 1]? = some b →
      (transmitted earlier).length ≤ i + 1 → b ≠ a + 1 →
      ShowsGap (earlier.getLast?.map Packet.info) p.info

def Adjacent (places : List ℕ) : Prop := places.IsChain fun a b => b = a + 1

instance (places : List ℕ) : Decidable (Adjacent places) :=
  inferInstanceAs (Decidable (List.IsChain _ places))

theorem adjacent_range' (first n : ℕ) : Adjacent (List.range' first n) :=
  List.isChain_range' first n 1

theorem adjacent_getElem {places : List ℕ} (h : Adjacent places) {i a b : ℕ}
    (ha : places[i]? = some a) (hb : places[i + 1]? = some b) : b = a + 1 := by
  obtain ⟨hi, rfl⟩ := List.getElem?_eq_some_iff.mp hb
  obtain ⟨_, rfl⟩ := List.getElem?_eq_some_iff.mp ha
  exact List.isChain_iff_getElem.mp h i hi

theorem adjacent_push {places : List ℕ} {k first : ℕ} (n : ℕ) (h : Adjacent (places.drop k))
    (hnext : k < places.length → ∀ last ∈ places.getLast?, first = last + 1) :
    Adjacent ((places ++ List.range' first n).drop k) := by
  have hsuffix : Adjacent ((List.range' first n).drop (k - places.length)) :=
    (adjacent_range' first n).drop _
  rw [List.drop_append]
  apply List.IsChain.append h hsuffix
  intro last hlast b hb
  rcases Nat.lt_or_ge k places.length with hk | hk
  · rw [List.getLast?_drop, if_neg (by omega)] at hlast
    rw [Nat.sub_eq_zero_of_le (Nat.le_of_lt hk), List.drop_zero, List.head?_range'] at hb
    have hfirst := hnext hk last hlast
    split_ifs at hb
    · simp at hb
    · rw [← hfirst]
      exact (Option.mem_some_iff.mp hb).symm
  · rw [List.drop_eq_nil_of_le hk] at hlast
    simp at hlast

namespace Host

def NoneLost (h : Host) : Prop := ∀ last ∈ h.accepted.getLast?, h.pushed = last + 1

/-- A block is accepted after a discarded one only while the first packet has room for it, and
no keepalive takes the place of a first packet that has a gap in it. -/
def GapsInFirst (h : Host) : HostEvent → Prop
  | .push _ numSamples _ => 0 < numSamples → h.fits numSamples = true → ¬ h.NoneLost →
    h.engine.sent = [] ∧ h.accepted.length < h.framesPerPacket
  | .setHostPlaying _ => True
  | .stream _ => h.engine.stage = some .sendPacket → h.engine.sent = [] →
    h.engine.iteration.copied = none → Adjacent h.accepted

instance (h : Host) : Decidable h.NoneLost :=
  inferInstanceAs (Decidable (∀ last ∈ h.accepted.getLast?, h.pushed = last + 1))

instance (h : Host) (ev : HostEvent) : Decidable (h.GapsInFirst ev) := by
  cases ev <;> (unfold GapsInFirst; infer_instance)

variable {h : Host}

structure Flagged (h : Host) : Prop where
  late : Adjacent (h.accepted.drop (h.framesPerPacket - 1))
  early : Adjacent h.accepted ∨
    ∀ first ∈ h.engine.sent.head?, h.framesPerPacket ≤ first.places.length

theorem flagged_push (hf : Flagged h) {numChannels numSamples : ℕ} (hpos : 0 < numChannels)
    (hrunning : h.engine.serverRunning = true)
    (hfirst : h.GapsInFirst (.push numChannels numSamples hpos)) :
    Flagged (h.step (.push numChannels numSamples hpos)) := by
  have hframes := framesPerPacket_step h (.push numChannels numSamples hpos)
  have hsent : (h.step (.push numChannels numSamples hpos)).engine.sent = h.engine.sent := by
    rw [engine_push, StreamEngine.pushAudio, if_pos hrunning]
  by_cases hfit : h.fits numSamples = true
  · have haccepted : (h.step (.push numChannels numSamples hpos)).accepted =
        h.accepted ++ List.range' h.pushed numSamples := if_pos hfit
    rcases Nat.eq_zero_or_pos numSamples with rfl | hn
    · rw [List.range'_zero, List.append_nil] at haccepted
      refine ⟨?_, ?_⟩ <;> rw [haccepted, hframes]
      · exact hf.late
      · rw [hsent]
        exact hf.early
    · by_cases hnone : h.NoneLost
      · -- the block follows the accepted frames, so nothing becomes less adjacent
        refine ⟨?_, ?_⟩ <;> rw [haccepted, hframes]
        · exact adjacent_push numSamples hf.late fun _ => hnone
        · rw [hsent]
          rcases hf.early with hadjacent | hfull
          · exact .inl (adjacent_push (k := 0) numSamples hadjacent fun _ => hnone)
          · exact .inr hfull
      · -- the gap lies below `framesPerPacket`, and no packet has gone out
        obtain ⟨hnothing, hroom⟩ := hfirst hn hfit hnone
        refine ⟨?_, ?_⟩ <;> rw [haccepted, hframes]
        · exact adjacent_push numSamples hf.late (by omega)
        · rw [hsent, hnothing]
          exact .inr (by simp)
  · have haccepted : (h.step (.push numChannels numSamples hpos)).accepted = h.accepted :=
      if_neg hfit
    refine ⟨?_, ?_⟩ <;> rw [haccepted, hframes]
    · exact hf.late
    · rw [hsent]
      exact hf.early

theorem flagged_stream (hl : Ledger h) (hf : Flagged h) {clock : UInt32}
    (hfirst : h.GapsInFirst (.stream clock)) : Flagged (h.step (.stream clock)) := by
  have hframes := framesPerPacket_step h (.stream clock)
  refine ⟨hframes ▸ hf.late, ?_⟩
  rw [hframes, engine_stream]
  rcases hf.early with hadjacent | hfull
  · exact .inl hadjacent
  by_cases hstage : h.engine.stage = some .sendPacket
  · obtain ⟨p, hsent, hplaces, -⟩ := places_sendPacket h.engine clock hstage
    have hstep : (h.engine.streamStep clock).sent = h.engine.sent ++ [p] := by
      rw [StreamEngine.streamStep, hstage, ← hsent]
    rw [hstep]
    rcases hold : h.engine.sent with _ | ⟨first, rest⟩
    · -- the first packet: a keepalive, or as many frames as fit
      by_cases hcopied : h.engine.iteration.copied = none
      · exact .inl (hfirst hstage hold hcopied)
      · have hlength := hl.conserves.steady.length_held hstage hcopied
        have hplaces' := congrArg List.length hplaces
        rw [List.length_map] at hplaces'
        right
        simp only [List.nil_append, List.head?_cons, Option.mem_some_iff, forall_eq']
        rw [hplaces', ← hl.sampled _ hstage rfl]
        exact hlength.ge
    · rw [hold] at hfull
      exact .inr hfull
  · have hsent : (h.engine.streamStep clock).sent = h.engine.sent := by
      by_cases hread : h.engine.stage = some .readRing
      · rw [StreamEngine.streamStep, hread]
        rfl
      · exact (StreamEngine.streamStep_quiet clock hread hstage).2.1
    rw [hsent]
    exact .inr hfull

theorem flagged_step (hl : Ledger h) (hf : Flagged h) (ev : HostEvent) (hfirst : h.GapsInFirst ev) :
    Flagged (h.step ev) := by
  cases ev with
  | push numChannels numSamples hpos => exact flagged_push hf hpos hl.running hfirst
  | setHostPlaying isPlaying => exact ⟨hf.late, hf.early⟩
  | stream clock => exact flagged_stream hl hf hfirst

def Follows (p q : Packet ℕ) : Prop :=
  Continues p.info q.info ∧ q.info.flags &&& Flags.discontinuity = 0

structure Headers (e : StreamEngine ℕ) : Prop where
  flags : ∀ s ∈ e.stage, s.described = true →
    e.iteration.info.flags = Flags.none ∨ e.iteration.info.flags = Flags.silence
  pending : e.sent = [] → e.discontinuityPending = true
  first : ∀ first ∈ e.sent.head?, first.info.flags &&& Flags.discontinuity ≠ 0
  next : ∀ last ∈ e.sent.getLast?, e.discontinuityPending = false ∧
    e.sequence = last.info.sequence + 1 ∧
    e.sampleClock = last.info.sampleClock + last.info.frames.toUInt64
  chain : e.sent.IsChain Follows

theorem packetInfo_flags {e : StreamEngine ℕ} (hh : Headers e) (clock : UInt32)
    (hstage : e.stage = some .sendPacket) :
    (e.packetInfo clock).flags &&& Flags.discontinuity ≠ 0 ↔ e.discontinuityPending = true := by
  have hflags := hh.flags _ hstage rfl
  simp only [StreamEngine.packetInfo]
  rcases hflags with hplain | hsilence
  · rw [hplain]
    cases e.iteration.playing <;> cases e.discontinuityPending <;> decide
  · rw [hsilence]
    cases e.iteration.playing <;> cases e.discontinuityPending <;> decide

theorem headers_sendPacket {e : StreamEngine ℕ} (hh : Headers e) (clock : UInt32)
    (hstage : e.stage = some .sendPacket) : Headers (e.sendPacket clock) := by
  obtain ⟨p, hsent, -, hinfo⟩ := places_sendPacket e clock hstage
  have hflags := packetInfo_flags hh clock hstage
  rw [← hinfo] at hflags
  refine ⟨by simp [StreamEngine.sendPacket, Stage.described], by simp [hsent], ?_, ?_, ?_⟩
  · intro first hfirst
    rw [hsent] at hfirst
    rcases hold : e.sent with _ | ⟨q, rest⟩
    · rw [hold] at hfirst
      obtain rfl := Option.mem_some_iff.mp hfirst
      exact hflags.mpr (hh.pending hold)
    · rw [hold] at hfirst
      exact hh.first first (hold ▸ hfirst)
  · intro last hlast
    rw [hsent, List.getLast?_concat] at hlast
    obtain rfl := Option.mem_some_iff.mp hlast
    rw [hinfo]
    exact ⟨rfl, rfl, rfl⟩
  · rw [hsent]
    apply List.IsChain.append hh.chain (List.isChain_singleton p)
    intro last hlast q hq
    obtain rfl : p = q := by simpa using hq
    obtain ⟨hpending, hsequence, hsampleClock⟩ := hh.next last hlast
    refine ⟨⟨?_, ?_⟩, ?_⟩
    · rw [hinfo]
      exact hsequence
    · rw [hinfo]
      simp only [StreamEngine.packetInfo, hpending]
      exact hsampleClock
    · by_contra hflagged
      rw [hflags.mp hflagged] at hpending
      cases hpending

theorem Headers.quiet {e e' : StreamEngine ℕ} (hh : Headers e) (hsent : e'.sent = e.sent)
    (hpending : e'.discontinuityPending = e.discontinuityPending)
    (hsequence : e'.sequence = e.sequence) (hclock : e'.sampleClock = e.sampleClock)
    (hflags : ∀ s ∈ e'.stage, s.described = true →
      e'.iteration.info.flags = Flags.none ∨ e'.iteration.info.flags = Flags.silence) :
    Headers e' := by
  refine ⟨hflags, ?_, ?_, ?_, ?_⟩ <;> rw [hsent]
  · exact hpending ▸ hh.pending
  · exact hh.first
  · rw [hpending, hsequence, hclock]
    exact hh.next
  · exact hh.chain

theorem headers_stream {e : StreamEngine ℕ} (hh : Headers e) (clock : UInt32) :
    Headers (e.streamStep clock) := by
  rcases hstage : e.stage with _ | s
  · simpa only [StreamEngine.streamStep, hstage] using hh
  have hflags := hh.flags s hstage
  cases s <;> simp only [StreamEngine.streamStep, hstage]
  case sendPacket => exact headers_sendPacket hh clock hstage
  case checkRing =>
    have hplain := hflags rfl
    unfold StreamEngine.checkRing
    dsimp only
    split_ifs
    · exact hh.quiet rfl rfl rfl rfl fun _ _ _ => hplain
    · exact hh.quiet rfl rfl rfl rfl fun _ _ _ => hplain
    · refine hh.quiet rfl rfl rfl rfl fun _ _ _ => .inr ?_
      rcases hplain with hnone | hsilence
      · simp [hnone, Flags.none]
      · simp [hsilence]
  case readRing => exact hh.quiet rfl rfl rfl rfl fun _ _ _ => hflags rfl
  case readSampleRate => exact hh.quiet rfl rfl rfl rfl fun _ _ _ => .inl rfl
  case readEpoch => exact hh.quiet rfl rfl rfl rfl fun _ _ _ => hflags rfl
  case getSettings =>
    split_ifs <;> exact hh.quiet rfl rfl rfl rfl (by simp [Stage.described])
  all_goals
    exact hh.quiet rfl rfl rfl rfl (by simp [StreamEngine.resizeScratch, Stage.described])

theorem headers_step (hh : Headers h.engine) (ev : HostEvent) : Headers (h.step ev).engine := by
  cases ev with
  | push numChannels numSamples hpos =>
    rw [engine_push, StreamEngine.pushAudio]
    split_ifs
    · exact hh.quiet rfl rfl rfl rfl hh.flags
    · exact hh
  | setHostPlaying isPlaying => exact hh.quiet rfl rfl rfl rfl hh.flags
  | stream clock => exact headers_stream hh clock

theorem headers_started (settings : Settings) (sampleRate : ℚ)
    (maximumBlockSize numChannels : ℤ) :
    Headers (started settings sampleRate maximumBlockSize numChannels).engine := by
  obtain ⟨-, -, hstage, -, hsent, -, hpending, -⟩ :=
    started_engine settings sampleRate maximumBlockSize numChannels
  refine ⟨?_, fun _ => hpending, ?_, ?_, ?_⟩
  · simp [hstage, Stage.described]
  · simp [hsent]
  · simp [hsent]
  · simp [hsent]

theorem headers_run (settings : Settings) (sampleRate : ℚ) (maximumBlockSize numChannels : ℤ)
    (es : List HostEvent) :
    Headers (run (started settings sampleRate maximumBlockSize numChannels) es).engine :=
  Runs.invariant (I := fun h : Host => Headers h.engine) (fun _ ev hh => headers_step hh ev)
    (headers_started settings sampleRate maximumBlockSize numChannels) es

theorem gapsVisible (hl : Ledger h) (hf : Flagged h) (hh : Headers h.engine) :
    GapsVisible h.engine.sent := by
  intro earlier p later hsent i a b ha hb hlength hgap
  have hpre : transmitted (earlier ++ [p]) <+: h.accepted := by
    refine ⟨transmitted later ++ h.engine.held.map place ++ h.engine.ring.frames.map place, ?_⟩
    have hsplit : h.engine.sent = (earlier ++ [p]) ++ later := by simp [hsent]
    rw [← hl.places, hsplit, transmitted_append (earlier ++ [p])]
    simp only [List.append_assoc]
  have hplace : ∀ j x : ℕ,
      (transmitted (earlier ++ [p]))[j]? = some x → h.accepted[j]? = some x := by
    intro j x hx
    obtain ⟨hj, rfl⟩ := List.getElem?_eq_some_iff.mp hx
    exact List.prefix_iff_getElem?.mp hpre j hj
  have ha' := hplace i a ha
  have hb' := hplace (i + 1) b hb
  rcases hf.early with hadjacent | hfull
  · exact absurd (adjacent_getElem hadjacent ha' hb') hgap
  rcases earlier with _ | ⟨first, rest⟩
  · -- the packet with the gap is the first, and flagged
    exact .inl (hh.first p (by simp [hsent]))
  · -- the first packet is full, so these frames lie beyond it, and are adjacent
    have hroom : h.framesPerPacket ≤ i + 1 := by
      have hfirst := hfull first (by simp [hsent])
      rw [transmitted_cons, List.length_append] at hlength
      omega
    have hlate : ∀ j, h.framesPerPacket ≤ j + 1 →
        (h.accepted.drop (h.framesPerPacket - 1))[j - (h.framesPerPacket - 1)]? =
          h.accepted[j]? := by
      intro j hj
      rw [List.getElem?_drop]
      congr 1
      omega
    refine absurd (adjacent_getElem hf.late ((hlate i hroom).trans ha') ?_) hgap
    rw [← hb', ← hlate (i + 1) (by omega)]
    congr 1
    omega

/-- In every run of a started engine in which a block is accepted after a discarded one only as
part of the first packet, every gap is in that packet, and that packet is flagged. -/
theorem gapsVisible_run (settings : Settings) (sampleRate : ℚ) (maximumBlockSize numChannels : ℤ)
    (es : List HostEvent)
    (h : Runs.Along step GapsInFirst
      (started settings sampleRate maximumBlockSize numChannels) es) :
    GapsVisible (run (started settings sampleRate maximumBlockSize numChannels) es).engine.sent := by
  have hkept := Runs.invariant_along (I := fun h => Ledger h ∧ Flagged h ∧ Headers h.engine)
    (fun h ev hh hfirst => ⟨ledger_step hh.1 ev, flagged_step hh.1 hh.2.1 ev hfirst,
      headers_step hh.2.2 ev⟩)
    ⟨ledger_started settings sampleRate maximumBlockSize numChannels,
      ⟨by simp [started, Adjacent], .inl .nil⟩,
      headers_started settings sampleRate maximumBlockSize numChannels⟩ h
  exact gapsVisible hkept.1 hkept.2.1 hkept.2.2

theorem gapsVisible_first_packet :
    let sent := (run (started { framesPerPacket := 256 } 16000 128 1)
      ([.setHostPlaying true, .push 1 128 Nat.one_pos, .push 1 10000 Nat.one_pos,
        .push 1 128 Nat.one_pos, .push 1 256 Nat.one_pos] ++
        List.replicate 19 (.stream 0))).engine.sent
    (transmitted sent)[127]? = some 127 ∧ (transmitted sent)[128]? = some 10128 ∧
      sent.map (fun p => p.info.flags) = [Flags.discontinuity ||| Flags.configChanged, 0] ∧
      GapsVisible sent :=
  ⟨by decide +kernel, by decide +kernel, by decide +kernel,
    gapsVisible_run _ _ _ _ _ (by decide +kernel)⟩

structure At (h : Host) (total ready pushed : ℕ) (accepted sizes : List ℕ) : Prop where
  ledger : Ledger h
  stage : h.engine.stage = some .getSettings
  going : h.engine.shouldExit = false
  total : h.engine.ring.fifo.totalSize = total
  ready : h.engine.ring.fifo.numReady = ready
  pushed : h.pushed = pushed
  accepted : h.accepted = accepted
  sizes : (h.engine.sent.map fun p => p.places.length) = sizes

section Following
variable {total ready pushed : ℕ} {accepted sizes : List ℕ}

theorem at_started (settings : Settings) (sampleRate : ℚ) (maximumBlockSize numChannels : ℤ) :
    At (run (started settings sampleRate maximumBlockSize numChannels) [.stream 0])
      (StreamEngine.ringCapacity sampleRate maximumBlockSize).toNat 0 0 [] [] := by
  obtain ⟨hprepared, -, hstage, hgoing, hsent, -, -, htotal⟩ :=
    started_engine settings sampleRate maximumBlockSize numChannels
  have hledger := ledger_run settings sampleRate maximumBlockSize numChannels [.stream 0]
  have hready := congrArg List.length hprepared.empty
  rw [AudioRingBuffer.length_frames] at hready
  have hstep : (run (started settings sampleRate maximumBlockSize numChannels)
      [.stream 0]).engine = _ := engine_stream _ 0
  rw [StreamEngine.streamStep, hstage] at hstep
  refine ⟨hledger, ?_, ?_, ?_, ?_, rfl, rfl, ?_⟩ <;> rw [hstep]
  · exact hgoing
  · exact htotal
  · exact hready
  · exact congrArg (List.map fun p : Packet ℕ => p.places.length) hsent

theorem at_push (hat : At h total ready pushed accepted sizes) (n : ℕ) (hn : 0 < n)
    (hroom : ready + n < total) :
    At (h.step (.push 1 n Nat.one_pos)) total (ready + n) (pushed + n)
      (accepted ++ List.range' pushed n) sizes := by
  have hfree : n ≤ h.engine.ring.fifo.getFreeSpace := by
    rw [AbstractFifo.getFreeSpace, hat.total, hat.ready]
    omega
  have hfit : h.fits n = true := decide_eq_true hfree
  obtain ⟨-, -, htotal, hframes⟩ := AudioRingBuffer.write_fits
    (.placed h.pushed 1 n Nat.one_pos) (Nat.ne_of_gt hn)
    hat.ledger.conserves.steady.prepared.ne' hfree
  have hready := congrArg List.length hframes
  rw [List.length_append, AudioRingBuffer.length_frames, AudioRingBuffer.length_frames,
    List.length_map, List.length_range] at hready
  have hpush : (h.step (.push 1 n Nat.one_pos)).engine = _ :=
    (engine_push h 1 n Nat.one_pos).trans (if_pos hat.ledger.running)
  refine ⟨ledger_step hat.ledger _, ?_, ?_, ?_, ?_, ?_, ?_, ?_⟩ <;> try rw [hpush]
  · exact hat.stage
  · exact hat.going
  · exact htotal.trans hat.total
  · exact hready.trans (congrArg (· + n) hat.ready)
  · exact congrArg (· + n) hat.pushed
  · rw [← hat.pushed, ← hat.accepted]
    exact if_pos hfit
  · exact hat.sizes

theorem at_discard (hat : At h total ready pushed accepted sizes) (n : ℕ)
    (hroom : total ≤ ready + n) :
    At (h.step (.push 1 n Nat.one_pos)) total ready (pushed + n) accepted sizes := by
  have hready := h.engine.ring.fifo.numReady_lt
  rw [hat.ready, hat.total] at hready
  have hfull : h.engine.ring.fifo.getFreeSpace < n := by
    rw [AbstractFifo.getFreeSpace, hat.total, hat.ready]
    omega
  have hfit : h.fits n ≠ true := by
    simpa [fits] using hfull
  obtain ⟨-, hfifo, -⟩ := AudioRingBuffer.write_refused h.engine.ring
    (.placed h.pushed 1 n Nat.one_pos) (.inr (.inr hfull))
  have hpush : (h.step (.push 1 n Nat.one_pos)).engine = _ :=
    (engine_push h 1 n Nat.one_pos).trans (if_pos hat.ledger.running)
  refine ⟨ledger_step hat.ledger _, ?_, ?_, ?_, ?_, ?_, ?_, ?_⟩ <;> try rw [hpush]
  · exact hat.stage
  · exact hat.going
  · rw [← hat.total, ← hfifo]
  · rw [← hat.ready, ← hfifo]
  · exact congrArg (· + n) hat.pushed
  · rw [← hat.accepted]
    exact if_neg hfit
  · exact hat.sizes

theorem framesPerPacket_run (g : Host) (es : List HostEvent) :
    (run g es).framesPerPacket = g.framesPerPacket :=
  Runs.invariant (I := fun h => h.framesPerPacket = g.framesPerPacket)
    (fun h ev hh => (framesPerPacket_step h ev).trans hh) rfl es

theorem iteration_checks (hstage : h.engine.stage = some .getSettings)
    (hgoing : h.engine.shouldExit = false) :
    let g := run h (List.replicate 6 (.stream 0))
    g.engine.stage = some .checkRing ∧ g.engine.ring = h.engine.ring ∧
      g.engine.sent = h.engine.sent ∧ g.engine.shouldExit = false ∧
      g.framesPerPacket = h.framesPerPacket ∧ g.pushed = h.pushed ∧ g.accepted = h.accepted := by
  obtain ⟨hsteps, hpushed, haccepted⟩ := engine_streams h 6
  intro g
  refine ⟨?_, ?_, ?_, ?_, framesPerPacket_run h _, hpushed, haccepted⟩ <;> rw [hsteps] <;>
    simp [StreamEngine.streamStep, StreamEngine.resizeScratch, hstage, hgoing]

theorem checkRing_enough (e : StreamEngine ℕ) (clock : UInt32)
    (h : 0 < e.ring.channels ∧ e.iteration.frames.toNat ≤ e.ring.getNumReady) :
    (e.checkRing clock).stage = some .readRing ∧ (e.checkRing clock).ring = e.ring ∧
      (e.checkRing clock).sent = e.sent ∧ (e.checkRing clock).shouldExit = e.shouldExit ∧
      (e.checkRing clock).iteration.frames = e.iteration.frames := by
  unfold StreamEngine.checkRing
  dsimp only
  split_ifs with hcond
  · exact ⟨rfl, rfl, rfl, rfl, rfl⟩
  all_goals exact absurd h hcond

theorem iteration_sends (hl : Ledger h) (hstage : h.engine.stage = some .checkRing)
    (henough : h.framesPerPacket ≤ h.engine.ring.fifo.numReady) :
    let g := run h (List.replicate 3 (.stream 0))
    g.engine.stage = some .getSettings ∧ g.engine.shouldExit = h.engine.shouldExit ∧
      g.engine.ring.fifo.totalSize = h.engine.ring.fifo.totalSize ∧
      g.engine.ring.fifo.numReady = h.engine.ring.fifo.numReady - h.framesPerPacket ∧
      g.pushed = h.pushed ∧ g.accepted = h.accepted ∧
      ∃ p, g.engine.sent = h.engine.sent ++ [p] ∧ p.places.length = h.framesPerPacket := by
  have hsampled := hl.sampled _ hstage rfl
  have hsteady : h.engine.Steady := hl.conserves.steady
  obtain ⟨hread, hring, hsent, hgoing, hframes⟩ :=
    checkRing_enough h.engine 0 ⟨hsteady.prepared, hsampled ▸ henough⟩
  have hchecked := StreamEngine.steady_checkRing hsteady 0 hstage
  obtain ⟨k, hk⟩ : ∃ k, k = h.engine.checkRing 0 := ⟨_, rfl⟩
  rw [← hk] at hread hring hsent hgoing hframes hchecked
  rw [← hsampled, ← hframes] at henough ⊢
  have hsend := StreamEngine.readRing_stage hchecked hread
  have hheld := StreamEngine.held_readRing hchecked hread
  obtain ⟨-, -, -, hrest⟩ := hchecked.read hread
  obtain ⟨-, -, -, htotal, -⟩ := AudioRingBuffer.read_spec k.ring k.iteration.frames.toNat
  obtain ⟨p, hpsent, hplaces, -⟩ := places_sendPacket k.readRing 0 hsend
  obtain ⟨hsteps, hpushed, haccepted⟩ := engine_streams h 3
  have hlast : (run h (List.replicate 3 (.stream 0))).engine = k.readRing.sendPacket 0 := by
    have hcheck : h.engine.streamStep 0 = k := by rw [StreamEngine.streamStep, hstage, hk]
    have htake : k.streamStep 0 = k.readRing := by rw [StreamEngine.streamStep, hread]
    have hgive : k.readRing.streamStep 0 = k.readRing.sendPacket 0 := by
      rw [StreamEngine.streamStep, hsend]
    rw [hsteps]
    simp only [Function.iterate_succ, Function.comp_apply, Function.iterate_zero, id_eq, hcheck,
      htake, hgive]
  have hleft := congrArg List.length hrest
  rw [AudioRingBuffer.length_frames, List.length_drop, AudioRingBuffer.length_frames] at hleft
  dsimp only
  rw [hlast, ← hring]
  refine ⟨rfl, hgoing, htotal, hleft, hpushed, haccepted, p, ?_, ?_⟩
  · rw [hpsent, ← hsent]
    rfl
  · rw [hplaces, List.length_map, hheld, List.length_take, AudioRingBuffer.length_frames, hring]
    exact Nat.min_eq_left henough

theorem at_iteration (hat : At h total ready pushed accepted sizes) {frames : ℕ}
    (hsame : h.framesPerPacket = frames) (henough : frames ≤ ready) :
    At (run h (List.replicate 9 (.stream 0))) total (ready - frames) pushed accepted
      (sizes ++ [frames]) := by
  subst hsame
  obtain ⟨hstage, hring, hsent, hgoing, hframes, hpushed, haccepted⟩ :=
    iteration_checks hat.stage hat.going
  have hledger : ∀ es, Ledger (run h es) := fun es =>
    Runs.invariant (I := Ledger) (fun _ ev hl => ledger_step hl ev) hat.ledger es
  have hready : (run h (List.replicate 6 (.stream 0))).framesPerPacket ≤
      (run h (List.replicate 6 (.stream 0))).engine.ring.fifo.numReady := by
    rw [hring, hat.ready, hframes]
    exact henough
  obtain ⟨hback, hgo, htotal, hleft, hpushed', haccepted', p, hp, hsize⟩ :=
    iteration_sends (hledger _) hstage hready
  have hsteps : run h (List.replicate 9 (.stream 0)) =
      run (run h (List.replicate 6 (.stream 0))) (List.replicate 3 (.stream 0)) := rfl
  refine ⟨hledger _, ?_, ?_, ?_, ?_, ?_, ?_, ?_⟩ <;> rw [hsteps]
  · exact hback
  · exact hgo.trans hgoing
  · rw [htotal, hring, hat.total]
  · rw [hleft, hring, hat.ready, hframes]
  · rw [hpushed', hpushed, hat.pushed]
  · rw [haccepted', haccepted, hat.accepted]
  · rw [hp, hsent, List.map_append, hat.sizes, List.map_singleton, hsize, hframes]

theorem at_setHostPlaying (hat : At h total ready pushed accepted sizes) (isPlaying : Bool) :
    At (h.step (.setHostPlaying isPlaying)) total ready pushed accepted sizes :=
  ⟨ledger_step hat.ledger _, hat.stage, hat.going, hat.total, hat.ready, hat.pushed, hat.accepted,
    hat.sizes⟩

end Following

def overrun : List HostEvent :=
  -- the ring of a host with blocks of 2048 holds three of them. A fourth is discarded before the
  -- first packet goes out, and the second packet has the gap in the middle
  [.stream 0, .setHostPlaying true, .push 1 2048 Nat.one_pos, .push 1 2048 Nat.one_pos,
    .push 1 2048 Nat.one_pos, .push 1 2048 Nat.one_pos] ++ List.replicate 9 (.stream 0) ++
    [.push 1 2048 Nat.one_pos] ++ List.replicate 9 (.stream 0)

theorem at_overrun :
    At (run (started { framesPerPacket := 4096 } 16000 2048 1) overrun) 8192 0 10240
      (List.range' 0 2048 ++ List.range' 2048 2048 ++ List.range' 4096 2048 ++
        List.range' 8192 2048) [4096, 4096] := by
  have hframes (es) : (run (started { framesPerPacket := 4096 } 16000 2048 1) es).framesPerPacket =
      4096 := by
    rw [framesPerPacket_run, framesPerPacket]
    obtain ⟨-, -, -, -, -, hsettings, -⟩ := started_engine { framesPerPacket := 4096 } 16000 2048 1
    rw [hsettings]
    rfl
  have htotal : (StreamEngine.ringCapacity 16000 2048).toNat = 8192 := by decide +kernel
  have hstart := at_started { framesPerPacket := 4096 } 16000 2048 1
  rw [htotal] at hstart
  generalize started { framesPerPacket := 4096 } 16000 2048 1 = g at hstart hframes ⊢
  have hone := at_push (at_setHostPlaying hstart true) 2048 (by decide) (by decide)
  have htwo := at_push hone 2048 (by decide) (by decide)
  have hthree := at_push htwo 2048 (by decide) (by decide)
  have hdiscard := at_discard hthree 2048 (by decide)
  have hfirst := at_iteration hdiscard (hframes (overrun.take 6)) (by decide)
  have hfour := at_push hfirst 2048 (by decide) (by decide)
  simp only [overrun, run, Runs.run_append]
  exact at_iteration hfour (hframes (overrun.take 16)) (by decide)

theorem overrun_hidden :
    ¬ GapsVisible (run (started { framesPerPacket := 4096 } 16000 2048 1) overrun).engine.sent := by
  intro hvisible
  obtain ⟨hledger, -, -, -, -, -, haccepted, hsizes⟩ := at_overrun
  have hchain := (headers_run { framesPerPacket := 4096 } 16000 2048 1 overrun).chain
  have hplaces := hledger.places
  generalize (run (started { framesPerPacket := 4096 } 16000 2048 1) overrun) = h at *
  obtain ⟨p, rest, hsent, hp, hrest⟩ := List.map_eq_cons_iff.mp hsizes
  obtain ⟨q, none, hq, hqsize, hnone⟩ := List.map_eq_cons_iff.mp hrest
  obtain rfl := List.map_eq_nil_iff.mp hnone
  rw [hq] at hsent
  rw [haccepted, hsent] at hplaces
  rw [hsent] at hvisible hchain
  have hfirst : (transmitted [p]).length = 4096 := by
    rw [transmitted_cons, List.length_append, hp]
    rfl
  have hlength : (transmitted [p, q]).length = 8192 := by
    rw [transmitted_cons, transmitted_cons, List.length_append, List.length_append, hp, hqsize]
    rfl
  have hplace : ∀ j < 8192, (transmitted [p, q])[j]? =
      (List.range' 0 2048 ++ List.range' 2048 2048 ++ List.range' 4096 2048 ++
        List.range' 8192 2048)[j]? := by
    intro j hj
    rw [← hplaces, List.append_assoc, List.getElem?_append_left (by omega)]
  obtain ⟨hcontinues, hplain⟩ : Follows p q := by simpa using hchain
  have hshows := hvisible [p] q [] rfl 6143 6143 8192 ?_ ?_ (by omega) (by decide)
  · rcases hshows with hflagged | ⟨last, hlast, hnot⟩
    · exact hflagged hplain
    · obtain rfl := Option.mem_some_iff.mp hlast
      exact hnot hcontinues
  · rw [List.singleton_append, hplace _ (by decide)]
    simp
  · rw [List.singleton_append, hplace _ (by decide)]
    simp

end Host
end Ppm.Engine

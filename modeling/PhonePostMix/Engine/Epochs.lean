import Mathlib.Data.List.Chain
import PhonePostMix.Engine.Writers

/-! What the epoch and the flags of a packet say about the configuration, and the steps of the
other threads that make them say something else. -/

namespace Ppm.Engine
open Wire

theorem ofNat_inj_of_near {k l : ℕ} (h : UInt16.ofNat k = UInt16.ofNat l)
    (hk : k < l + 2 ^ 16) (hl : l < k + 2 ^ 16) : k = l := by
  have hmod := congrArg UInt16.toNat h
  simp only [UInt16.toNat_ofNat'] at hmod
  omega

namespace Threads
variable {α : Type} [Zero α]

/-- The epoch identifies the configuration, unless it has come round between two packets. -/
def EpochIdentifies (w : Threads α) : Prop :=
  ∀ p ∈ w.log, ∀ q ∈ w.log, p.1.configEpoch = q.1.configEpoch →
    p.2 < q.2 + 2 ^ 16 → q.2 < p.2 + 2 ^ 16 → p.1.config = q.1.config

instance (w : Threads α) : Decidable w.EpochIdentifies :=
  inferInstanceAs (Decidable (∀ p ∈ w.log, ∀ q ∈ w.log, _ → _ → _ → _))

/-- The iteration that sends has met no call that had stored a configuration and not incremented
the epoch when it read the epoch, and no store of what it had read before. -/
def ReadWhole (w : Threads α) (ev : ThreadEvent α) : Prop :=
  match ev, w.engine.stage with
  | .stream _, some .sendPacket => w.torn = false
  | _, _ => True

instance (w : Threads α) (ev : ThreadEvent α) : Decidable (w.ReadWhole ev) := by
  unfold ReadWhole
  split <;> infer_instance

variable {w : Threads α}

def Settled (w : Threads α) : Prop := w.Unsettled ∨ w.engine.config = w.inForce w.bumps

theorem mem_set_of_ne {β : Type} {l : List β} {i : ℕ} {a b c : β} (ha : l[i]? = some a)
    (hb : b ∈ l) (hne : b ≠ a) : b ∈ l.set i c := by
  obtain ⟨j, hj⟩ := List.mem_iff_getElem?.mp hb
  have hij : i ≠ j := by
    rintro rfl
    rw [ha] at hj
    exact hne (Option.some.inj hj).symm
  exact List.mem_iff_getElem?.mpr ⟨j, by rw [List.getElem?_set_ne hij, hj]⟩

theorem storing_of_changes {c : Call} (h : w.Changes c) :
    (c.next w.engine w.bumps).storing = true ∧ c ≠ .addEpoch := by
  cases c with
  | storeSettings newSettings =>
    have hchanged : w.engine.formatChanged newSettings := by
      by_contra hsame
      obtain ⟨hformat, hframes⟩ := not_or.mp hsame
      apply h
      simp only [Call.act, StreamEngine.config, not_not.mp hformat, not_not.mp hframes]
    rw [Call.next, if_pos hchanged]
    exact ⟨rfl, by simp⟩
  | storeSampleRate | storeChannels => exact ⟨rfl, by simp⟩
  | startThread =>
    refine absurd ?_ h
    rw [Call.act]
    split_ifs <;> rfl
  | _ => exact absurd rfl h

theorem settled_advance (h : w.Settled) {i : ℕ} {c : Call} (hc : w.calls[i]? = some c) :
    Settled (w.advance i c) := by
  obtain ⟨hi, -⟩ := List.getElem?_eq_some_iff.mp hc
  by_cases hadd : c = .addEpoch
  · subst hadd
    refine .inr ?_
    simp only [advance, if_pos, Function.update_self]
    rfl
  by_cases hchanges : w.Changes c
  · refine .inl ⟨?_, _, List.mem_set hi _, (storing_of_changes hchanges).1⟩
    simp [advance, hadd, hchanges]
  rcases h with ⟨hchanged, c', hc', hstoring⟩ | hsame
  · refine .inl ⟨by simp [advance, hadd, hchanged], ?_⟩
    by_cases hself : c' = c
    · -- the call itself goes on storing
      subst hself
      refine ⟨_, List.mem_set hi _, ?_⟩
      cases c' with
      | storeChannels | prepareRing => rfl
      | addEpoch => exact absurd rfl hadd
      | _ => simp [Call.storing] at hstoring
    · exact ⟨c', mem_set_of_ne hc hc' hself, hstoring⟩
  · refine .inr ?_
    simp only [advance, if_neg hadd]
    exact (not_not.mp hchanges).trans hsame

theorem settled_step (h : w.Settled) (ev : ThreadEvent α) : Settled (w.step ev) := by
  have hcall : ∀ c : Call, Settled { w with calls := w.calls ++ [c] } := by
    intro c
    rcases h with ⟨hchanged, c', hc', hstoring⟩ | hsame
    · exact .inl ⟨hchanged, c', List.mem_append_left _ hc', hstoring⟩
    · exact .inr hsame
  cases ev with
  | advance i =>
    simp only [step]
    split
    · exact h
    · rename_i c hc
      exact settled_advance h hc
  | stream clock =>
    obtain ⟨hshared, -⟩ := w.engine.streamStep_epoch clock
    exact h.imp id hshared.config.trans
  | pushAudio buffer =>
    simp only [step, StreamEngine.pushAudio]
    split_ifs <;> exact h
  | stop =>
    simp only [step, StreamEngine.stop]
    split_ifs <;> exact h
  | release | setHostPlaying => exact h
  | setSettings | prepare | start => exact hcall _

/-- What an iteration has read without a store in between: the configuration there is, and from
the epoch on the one of the epoch. -/
structure Whole (w : Threads α) : Prop where
  current : w.torn = false → ∀ s ∈ w.engine.stage, s.stamped = false → w.engine.Reads s
  stamped : w.torn = false → ∀ s ∈ w.engine.stage, s.stamped = true →
    w.engine.iteration.config = w.inForce w.stamp

structure Identified (w : Threads α) : Prop where
  numbered : w.Numbered
  settled : w.Settled
  whole : w.Whole
  inForce : ∀ p ∈ w.log, p.1.config = w.inForce p.2

omit [Zero α] in
theorem Identified.epochIdentifies (h : w.Identified) : w.EpochIdentifies := by
  intro p hp q hq hepoch hnear hnear'
  rw [(h.numbered.stamped p hp).1, (h.numbered.stamped q hq).1] at hepoch
  rw [h.inForce p hp, h.inForce q hq, ofNat_inj_of_near hepoch hnear hnear']

theorem inForce_advance (i : ℕ) (c : Call) {k : ℕ} (hk : k ≤ w.bumps) :
    (w.advance i c).inForce k = w.inForce k := by
  show (if c = .addEpoch then Function.update _ _ _ else _) k = _
  split_ifs
  · exact Function.update_of_ne (by omega) _ _
  · rfl

theorem whole_advance (h : w.Whole) (hordered : w.stamp ≤ w.bumps) (i : ℕ) (c : Call) :
    Whole (w.advance i c) := by
  obtain ⟨hiteration, -, hstage⟩ := c.act_stream w.engine
  refine ⟨fun htorn s hs hunstamped => ?_, fun htorn s hs hstamped => ?_⟩
  all_goals obtain ⟨htorn, hkept⟩ := Bool.or_eq_false_iff.mp htorn
  · rcases hstage s hs with hold | rfl
    · refine c.reads_act (h.current htorn s hold hunstamped) hunstamped ?_
      rcases Bool.and_eq_false_iff.mp hkept with hsame | hbehind
      · exact .inl (not_not.mp (of_decide_eq_false hsame))
      · rw [Option.mem_def.mp hold] at hbehind
        exact .inr hbehind
    · exact ⟨nofun, nofun, nofun⟩
  · show (c.act w.engine).iteration.config = (w.advance i c).inForce w.stamp
    rw [inForce_advance i c hordered, hiteration]
    rcases hstage s hs with hold | rfl
    · exact h.stamped htorn s hold hstamped
    · exact absurd hstamped (by decide)

theorem whole_stream (h : w.Whole) (hsettled : w.Settled) (clock : UInt32) :
    Whole (w.stream clock) := by
  obtain ⟨-, hstep⟩ := w.engine.streamStep_epoch clock
  -- before the top of the loop nothing has been read, and there the record starts anew
  have htorn : (w.stream clock).torn = false →
      ∀ s ∈ w.engine.stage, s ≠ .getSettings → w.torn = false := by
    intro htorn s hs hother
    rw [stream, Option.mem_def.mp hs] at htorn
    cases s <;> first | exact htorn | exact absurd rfl hother |
      exact (Bool.or_eq_false_iff.mp htorn).1
  refine ⟨fun hnow => ?_, fun hnow s hs hstamped => ?_⟩
  · exact StreamEngine.reads_streamStep clock fun s hs hother hunstamped =>
      h.current (htorn hnow s hs hother) s hs hunstamped
  · show (w.engine.streamStep clock).iteration.config =
      w.inForce (if w.engine.stage = some .readEpoch then w.bumps else w.stamp)
    rw [StreamEngine.config_streamStep clock s hs hstamped]
    rcases hstep with ⟨-, hsend⟩ | ⟨-, -, -, hread⟩
    · rw [stream, hsend] at hs
      obtain rfl : .getSettings = s := Option.some.inj hs
      exact absurd hstamped (by decide)
    rcases hread s hs hstamped with ⟨hstage, -⟩ | ⟨⟨s', hs', hstamped'⟩, hother, -⟩
    · -- the epoch is read with every call's increment behind it
      rw [if_pos hstage]
      have hreads := h.current (htorn hnow _ hstage (by simp)) _ hstage rfl
      rw [stream, hstage] at hnow
      have hfinished := of_decide_eq_false (Bool.or_eq_false_iff.mp hnow).2
      exact (hreads.config rfl).trans (hsettled.resolve_left hfinished)
    · rw [if_neg hother]
      refine h.stamped (htorn hnow s' hs' ?_) s' hs' hstamped'
      rintro rfl
      exact absurd hstamped' (by decide)

theorem whole_step (h : w.Whole) (hsettled : w.Settled) (hordered : w.stamp ≤ w.bumps)
    (ev : ThreadEvent α) : Whole (w.step ev) := by
  cases ev with
  | advance i =>
    simp only [step]
    split
    · exact h
    · exact whole_advance h hordered i _
  | stream clock => exact whole_stream h hsettled clock
  | pushAudio buffer =>
    simp only [step, StreamEngine.pushAudio]
    split_ifs <;> exact ⟨fun htorn s hs hunstamped =>
      ⟨(h.current htorn s hs hunstamped).settings, (h.current htorn s hs hunstamped).channels,
        (h.current htorn s hs hunstamped).sampleRate⟩, h.stamped⟩
  | stop =>
    simp only [step, StreamEngine.stop]
    split_ifs <;> exact ⟨fun htorn s hs hunstamped =>
      ⟨(h.current htorn s hs hunstamped).settings, (h.current htorn s hs hunstamped).channels,
        (h.current htorn s hs hunstamped).sampleRate⟩, h.stamped⟩
  | release | setHostPlaying =>
    exact ⟨fun htorn s hs hunstamped =>
      ⟨(h.current htorn s hs hunstamped).settings, (h.current htorn s hs hunstamped).channels,
        (h.current htorn s hs hunstamped).sampleRate⟩, h.stamped⟩
  | _ => exact ⟨h.current, h.stamped⟩

theorem identified_step (h : w.Identified) (ev : ThreadEvent α) (hread : w.ReadWhole ev) :
    Identified (w.step ev) := by
  refine ⟨numbered_step h.numbered ev, settled_step h.settled ev,
    whole_step h.whole h.settled h.numbered.ordered ev, ?_⟩
  cases ev with
  | advance i =>
    simp only [step]
    split
    · exact h.inForce
    · intro p hp
      have hstamped := (h.numbered.stamped p hp).2
      have hordered := h.numbered.ordered
      rw [inForce_advance i _ (hstamped.trans hordered)]
      exact h.inForce p hp
  | stream clock =>
    show ∀ p ∈ (if w.engine.stage = some .sendPacket then _ else _), _
    split_ifs with hstage
    · intro p hp
      rcases List.mem_append.mp hp with hold | hnew
      · exact h.inForce p hold
      · rw [List.mem_singleton.mp hnew]
        have hwhole : w.torn = false := by simpa only [ReadWhole, hstage] using hread
        exact (h.numbered.declared _ hstage rfl).trans (h.whole.stamped hwhole _ hstage rfl)
    · exact h.inForce
  | _ => exact h.inForce

/-- In every run in which each iteration that sends has read its configuration and its epoch
with no store left unfinished or made in between, equal epochs mean equal configurations. -/
theorem epochIdentifies_run (es : List (ThreadEvent α))
    (h : Runs.Along step ReadWhole ({} : Threads α) es) :
    EpochIdentifies (run ({} : Threads α) es) ∧
      (run ({} : Threads α) es).log.map Prod.fst =
        (run ({} : Threads α) es).engine.sent.map Packet.info := by
  have hend : Identified (run ({} : Threads α) es) :=
    Runs.invariant_along (I := Identified) (fun _ ev hs hread => identified_step hs ev hread)
      ⟨numbered_new, .inr rfl, ⟨by simp, by simp⟩, by simp⟩ h
  exact ⟨hend.epochIdentifies, hend.numbered.logged⟩

end Threads

def Flagged (info : PacketInfo) : Prop :=
  info.flags &&& Flags.discontinuity = Flags.discontinuity ∧
    info.flags &&& Flags.configChanged = Flags.configChanged ∧ info.sampleClock = 0

instance (info : PacketInfo) : Decidable (Flagged info) := inferInstanceAs (Decidable (_ ∧ _))

theorem or_and_mask {flags mask added : UInt8} (h : added &&& mask = mask) :
    (flags ||| added) &&& mask = mask := by
  rw [← UInt8.toBitVec_inj] at h ⊢
  simp only [UInt8.toBitVec_and, UInt8.toBitVec_or] at h ⊢
  rw [BitVec.and_or_distrib_right, h]
  ext i hi
  simp

theorem packetInfo_flagged {α : Type} {e : StreamEngine α} (h : e.discontinuityPending = true)
    (clock : UInt32) : Flagged (e.packetInfo clock) := by
  simp only [Flagged, StreamEngine.packetInfo, h, if_true, and_true]
  exact ⟨or_and_mask rfl, or_and_mask rfl⟩

def Call.flagDue (k : ℕ) : Call → Bool
  -- the call has incremented the epoch, at most to `k`, and still has to set the flag
  | .storePending epochs => epochs ≤ k
  | _ => false

namespace Threads
variable {α : Type} [Zero α]

/-- Every packet with another epoch than the packet before it is flagged. -/
def Announced (w : Threads α) : Prop :=
  w.engine.sent.IsChain fun p q => p.info.configEpoch ≠ q.info.configEpoch → Flagged q.info

instance (w : Threads α) : Decidable w.Announced := inferInstanceAs (Decidable (List.IsChain _ _))

/-- A packet that takes the flag carries the current epoch, unless the flag is still to be set
for a later one; and a packet sent while the flag for its epoch is still to be set finds one
set already, or has a predecessor with its epoch. -/
def FlagInTime (w : Threads α) (ev : ThreadEvent α) : Prop :=
  match ev, w.engine.stage with
  | .stream _, some .sendPacket =>
    (w.engine.discontinuityPending = true →
        w.stamp = w.bumps ∨ ∃ c ∈ w.calls, c.flagDue w.bumps = true) ∧
      ((∃ c ∈ w.calls, c.flagDue w.stamp = true) →
        w.engine.discontinuityPending = true ∨
          ∀ p ∈ w.log.getLast?, p.1.configEpoch = w.engine.iteration.info.configEpoch)
  | _, _ => True

instance (w : Threads α) (ev : ThreadEvent α) : Decidable (w.FlagInTime ev) := by
  unfold FlagInTime
  split <;> infer_instance

def Covered (w : Threads α) (k : ℕ) : Prop :=
  (∃ p ∈ w.log.getLast?, p.2 = k) ∨ w.engine.discontinuityPending = true ∨
    ∃ c ∈ w.calls, c.flagDue k = true

structure Announcing (w : Threads α) : Prop where
  numbered : w.Numbered
  current : w.Covered w.bumps
  iteration : ∀ s ∈ w.engine.stage, s.stamped = true → w.Covered w.stamp
  announced : w.log.IsChain fun p q => p.1.configEpoch ≠ q.1.configEpoch → Flagged q.1

variable {w : Threads α}

omit [Zero α] in
theorem Covered.mono {k : ℕ} (h : w.Covered k) {w' : Threads α} (hlog : w'.log = w.log)
    (hpending : w.engine.discontinuityPending = true → w'.engine.discontinuityPending = true)
    (hcalls : ∀ c ∈ w.calls, c.flagDue k = true →
      c ∈ w'.calls ∨ w'.engine.discontinuityPending = true) : w'.Covered k := by
  rcases h with hlast | hset | ⟨c, hc, hdue⟩
  · exact .inl (hlog ▸ hlast)
  · exact .inr (.inl (hpending hset))
  · rcases hcalls c hc hdue with hkept | hset
    · exact .inr (.inr ⟨c, hkept, hdue⟩)
    · exact .inr (.inl hset)

theorem covered_advance {i : ℕ} {c : Call} (hc : w.calls[i]? = some c) {k : ℕ}
    (h : w.Covered k) : (w.advance i c).Covered k := by
  have hpending := c.act_pending w.engine
  refine h.mono rfl ?_ fun c' hc' hdue => ?_
  · intro hset
    rcases hpending with hnow | ⟨hsame, -⟩
    · exact hnow
    · exact hsame.trans hset
  · by_cases hsame : c' = c
    · -- the call itself sets the flag
      subst hsame
      rcases hpending with hnow | ⟨-, hother⟩
      · exact .inr hnow
      · cases c' with
        | storePending n => exact absurd rfl (hother n)
        | _ => simp [Call.flagDue] at hdue
    · exact .inl (mem_set_of_ne hc hc' hsame)

theorem announcing_advance (h : w.Announcing) {i : ℕ} {c : Call} (hc : w.calls[i]? = some c) :
    Announcing (w.advance i c) := by
  refine ⟨numbered_advance h.numbered i c, ?_, ?_, h.announced⟩
  · by_cases hadd : c = .addEpoch
    · subst hadd
      obtain ⟨hi, -⟩ := List.getElem?_eq_some_iff.mp hc
      exact .inr (.inr ⟨.storePending (w.bumps + 1), List.mem_set hi _, decide_eq_true le_rfl⟩)
    · have hbumps : (w.advance i c).bumps = w.bumps := if_neg hadd
      rw [hbumps]
      exact covered_advance hc h.current
  · intro s hs hstamped
    obtain ⟨-, -, hstage⟩ := c.act_stream w.engine
    rcases hstage s hs with hold | rfl
    · exact covered_advance hc (h.iteration s hold hstamped)
    · exact absurd hstamped (by decide)

omit [Zero α] in
theorem flagged_sendPacket (h : w.Announcing) (clock : UInt32)
    (hstage : w.engine.stage = some .sendPacket)
    (hdue : (∃ c ∈ w.calls, c.flagDue w.stamp = true) → w.engine.discontinuityPending = true ∨
      ∀ p ∈ w.log.getLast?, p.1.configEpoch = w.engine.iteration.info.configEpoch)
    {p : PacketInfo × ℕ} (hp : p ∈ w.log.getLast?)
    (hnew : p.1.configEpoch ≠ (w.engine.packetInfo clock).configEpoch) :
    Flagged (w.engine.packetInfo clock) := by
  have hread := h.numbered.read _ hstage rfl
  rcases h.iteration _ hstage rfl with ⟨q, hq, hsame⟩ | hset | hlate
  · -- the previous packet had this epoch
    obtain rfl : p = q := Option.mem_unique hp hq
    have hold := (h.numbered.stamped p (List.mem_of_mem_getLast? hp)).1
    rw [hsame, ← hread] at hold
    exact absurd hold hnew
  · exact packetInfo_flagged hset clock
  · rcases hdue hlate with hset | hold
    · exact packetInfo_flagged hset clock
    · exact absurd (hold p hp) hnew

theorem covered_sendPacket (h : w.Announcing) (clock : UInt32)
    (hstage : w.engine.stage = some .sendPacket)
    (htaken : w.engine.discontinuityPending = true →
      w.stamp = w.bumps ∨ ∃ c ∈ w.calls, c.flagDue w.bumps = true) :
    (w.stream clock).Covered w.bumps := by
  have hlog : (w.stream clock).log = w.log ++ [(w.engine.packetInfo clock, w.stamp)] :=
    if_pos hstage
  have hcurrent : w.stamp = w.bumps ∨ ∃ c ∈ w.calls, c.flagDue w.bumps = true := by
    rcases h.current with ⟨p, hp, hlast⟩ | hset | hlate
    · have hle := (h.numbered.stamped p (List.mem_of_mem_getLast? hp)).2
      have hordered := h.numbered.ordered
      exact .inl (by omega)
    · exact htaken hset
    · exact .inr hlate
  rcases hcurrent with hnow | hlate
  · exact .inl ⟨_, by rw [hlog, List.getLast?_concat]; rfl, hnow⟩
  · exact .inr (.inr hlate)

theorem announcing_stream (h : w.Announcing) (clock : UInt32)
    (htime : w.FlagInTime (.stream clock)) : Announcing (w.stream clock) := by
  have hnumbered := numbered_stream h.numbered clock
  obtain ⟨-, ⟨hstage, hsend⟩ | ⟨hstage, -, hpending, hread⟩⟩ := w.engine.streamStep_epoch clock
  · obtain ⟨htaken, hdue⟩ : _ ∧ _ := by simpa only [FlagInTime, hstage] using htime
    refine ⟨hnumbered, covered_sendPacket h clock hstage htaken, ?_, ?_⟩
    · show ∀ s ∈ (w.engine.streamStep clock).stage, _
      rw [hsend]
      simp [StreamEngine.sendPacket, Stage.stamped]
    · show List.IsChain _ (if w.engine.stage = some .sendPacket then _ else _)
      rw [if_pos hstage]
      apply h.announced.append (List.isChain_singleton _)
      rintro p hp q hq
      obtain rfl : (w.engine.packetInfo clock, w.stamp) = q := by simpa using hq
      exact flagged_sendPacket h clock hstage hdue hp
  · have hkept : ∀ k, w.Covered k → (w.stream clock).Covered k := by
      intro k hk
      refine hk.mono (if_neg hstage) (fun hset => hpending.trans hset) fun c hc _ => .inl hc
    refine ⟨hnumbered, hkept _ h.current, ?_, ?_⟩
    · intro s hs hstamped
      show (w.stream clock).Covered (if w.engine.stage = some .readEpoch then _ else _)
      rcases hread s hs hstamped with ⟨hnow, -⟩ | ⟨⟨s', hs', hstamped'⟩, hother, -⟩
      · rw [if_pos hnow]
        exact hkept _ h.current
      · rw [if_neg hother]
        exact hkept _ (h.iteration s' hs' hstamped')
    · show List.IsChain _ (if w.engine.stage = some .sendPacket then _ else _)
      rw [if_neg hstage]
      exact h.announced

theorem announcing_step (h : w.Announcing) (ev : ThreadEvent α) (htime : w.FlagInTime ev) :
    Announcing (w.step ev) := by
  have hnumbered := numbered_step h.numbered ev
  have hcall : ∀ c : Call, ∀ k, w.Covered k → Covered { w with calls := w.calls ++ [c] } k :=
    fun _ _ hk => hk.mono rfl id fun c hc _ => .inl (List.mem_append_left _ hc)
  cases ev with
  | stream clock => exact announcing_stream h clock htime
  | advance i =>
    simp only [step]
    split
    · exact h
    · rename_i c hc
      exact announcing_advance h hc
  | pushAudio buffer =>
    simp only [step, StreamEngine.pushAudio] at hnumbered ⊢
    split_ifs at hnumbered ⊢ <;> exact ⟨hnumbered, h.current, h.iteration, h.announced⟩
  | stop =>
    simp only [step, StreamEngine.stop] at hnumbered ⊢
    split_ifs at hnumbered ⊢ <;> exact ⟨hnumbered, h.current, h.iteration, h.announced⟩
  | release | setHostPlaying => exact ⟨hnumbered, h.current, h.iteration, h.announced⟩
  | setSettings | prepare | start =>
    exact ⟨hnumbered, hcall _ _ h.current, fun s hs hstamped =>
      hcall _ _ (h.iteration s hs hstamped), h.announced⟩

omit [Zero α] in
theorem announcing_new : Announcing ({} : Threads α) :=
  ⟨numbered_new, .inr (.inl rfl), by simp, List.isChain_nil⟩

omit [Zero α] in
theorem Announcing.announced_sent (h : w.Announcing) : w.Announced := by
  have hinfos : (w.engine.sent.map Packet.info).IsChain fun p q =>
      p.configEpoch ≠ q.configEpoch → Flagged q := by
    rw [← h.numbered.logged, List.isChain_map]
    exact h.announced
  rwa [List.isChain_map] at hinfos

/-- In every run in which no packet takes the flag of a later epoch and none comes between an
increment and its flag, the first packet of every epoch is flagged and restarts the clock. -/
theorem announced_run (es : List (ThreadEvent α))
    (h : Runs.Along step FlagInTime ({} : Threads α) es) :
    Announced (run ({} : Threads α) es) :=
  (Runs.invariant_along (I := Announcing) (fun _ ev hs htime => announcing_step hs ev htime)
    announcing_new h).announced_sent

def oneKeepalive : List (ThreadEvent ℕ) :=
  .prepare 48000 128 2 :: List.replicate 5 (.advance 0) ++
    .start true :: List.replicate 4 (.advance 1) ++ .stream 0 :: List.replicate 8 (.stream 250)

def formatChange (n : ℕ) : List (ThreadEvent ℕ) :=
  oneKeepalive ++ .setSettings { format := .float32 } :: List.replicate n (.advance 2) ++
    List.replicate 8 (.stream 500)

theorem epochIdentifies_change : EpochIdentifies (run ({} : Threads ℕ) (formatChange 3)) :=
  (epochIdentifies_run _ (by decide +kernel)).1

/-- The settings are stored, the epoch not incremented: the second keepalive has the new format
and the old epoch. -/
theorem format_before_epoch :
    let w := run ({} : Threads ℕ) (formatChange 1)
    w.log.map Prod.fst = w.engine.sent.map Packet.info ∧
      w.log.map (fun p => (p.1.configEpoch, p.1.format, p.2)) =
        [(1, .pcm16, 1), (1, .float32, 1)] ∧ ¬ EpochIdentifies w := by
  intro w
  have hlog : w.log.map (fun p => (p.1.configEpoch, p.1.format, p.2)) =
      [(1, .pcm16, 1), (1, .float32, 1)] := by decide +kernel
  exact ⟨by decide +kernel, hlog, by decide +kernel⟩

theorem announced_change : Announced (run ({} : Threads ℕ) (formatChange 3)) :=
  announced_run _ (by decide +kernel)

/-- The epoch is incremented, the flag not set: the second keepalive has the new epoch and
goes on with the old clock. -/
theorem epoch_before_flag :
    let w := run ({} : Threads ℕ) (formatChange 2)
    w.engine.sent.map (fun p => (p.info.configEpoch, p.info.flags, p.info.sampleClock)) =
        [(1, Flags.discontinuity ||| Flags.silence ||| Flags.configChanged, 0),
          (2, Flags.silence, 512)] ∧ ¬ Announced w := by
  exact ⟨by decide +kernel, by decide +kernel⟩

end Threads
end Ppm.Engine

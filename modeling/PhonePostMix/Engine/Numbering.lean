import PhonePostMix.Engine.Epochs
import PhonePostMix.Library.Latch

/-! Sequence numbers and sample clocks: the streaming thread counts, the other threads ask for a
new start of the clock. -/

namespace Ppm.Engine
open Wire Latch

def Unflagged (info : PacketInfo) : Prop :=
  info.flags &&& Flags.discontinuity = 0 ∧ info.flags &&& Flags.configChanged = 0

instance (info : PacketInfo) : Decidable (Unflagged info) := inferInstanceAs (Decidable (_ ∧ _))

theorem Unflagged.not_flagged {info : PacketInfo} (h : Unflagged info) : ¬ Flagged info := by
  rintro ⟨hset, -⟩
  rw [h.1] at hset
  exact absurd hset (by decide)

def nextClock (info : PacketInfo) : UInt64 := info.sampleClock + info.frames.toUInt64

namespace StreamEngine
variable {α : Type}

def Unmarked (e : StreamEngine α) : Prop :=
  -- the packet under construction has only been marked as silence, if at all
  ∀ s ∈ e.stage, s.described = true →
    e.iteration.info.flags = Flags.none ∨ e.iteration.info.flags = Flags.silence

theorem packetInfo_unflagged {e : StreamEngine α} (h : e.discontinuityPending = false)
    (hflags : e.iteration.info.flags = Flags.none ∨ e.iteration.info.flags = Flags.silence)
    (clock : UInt32) : Unflagged (e.packetInfo clock) := by
  simp only [Unflagged, packetInfo, h, Bool.false_eq_true, if_false]
  cases e.iteration.playing
  all_goals
    rcases hflags with hnone | hsilence
    · rw [hnone]; decide
    · rw [hsilence]; decide

variable [Zero α]

theorem unmarked_streamStep {e : StreamEngine α} (h : e.Unmarked) (clock : UInt32) :
    (e.streamStep clock).Unmarked := by
  unfold streamStep
  rcases hstage : e.stage with _ | s
  · exact h
  cases s with
  | getSettings =>
    dsimp only
    split_ifs <;> simp [Unmarked, Stage.described]
  | readSampleRate => exact fun _ _ _ => .inl rfl
  | checkRing =>
    have hflags := h _ hstage rfl
    simp only [checkRing]
    split_ifs
    · exact fun _ _ _ => hflags
    · exact fun _ _ _ => hflags
    · refine fun _ _ _ => .inr ?_
      rcases hflags with hnone | hsilence
      · simp only [hnone]; decide
      · simp only [hsilence]; decide
  | readEpoch | readRing => exact fun _ _ _ => h _ hstage rfl
  | _ => simp [Unmarked, Stage.described, resizeScratch, sendPacket]

theorem streamStep_counters (e : StreamEngine α) (clock : UInt32) (h : e.stage ≠ some .sendPacket) :
    (e.streamStep clock).sequence = e.sequence ∧
      (e.streamStep clock).sampleClock = e.sampleClock := by
  unfold streamStep
  rcases hstage : e.stage with _ | s
  · exact ⟨rfl, rfl⟩
  cases s with
  | sendPacket => exact absurd hstage h
  | getSettings =>
    dsimp only
    split_ifs <;> exact ⟨rfl, rfl⟩
  | checkRing =>
    simp only [checkRing]
    split_ifs <;> exact ⟨rfl, rfl⟩
  | _ => exact ⟨rfl, rfl⟩

end StreamEngine

def Call.requests : Call → Bool
  | .storePending _ | .storePendingAtStart => true
  | _ => false

theorem Call.act_counters {α : Type} [Zero α] (c : Call) (e : StreamEngine α) :
    (c.act e).sequence = e.sequence ∧ (c.act e).sampleClock = e.sampleClock ∧
      (c.act e).discontinuityPending = (c.requests || e.discontinuityPending) := by
  cases c with
  | startThread =>
    simp only [act]
    split_ifs <;> exact ⟨rfl, rfl, rfl⟩
  | _ => exact ⟨rfl, rfl, rfl⟩

namespace Threads
variable {α : Type} [Zero α]

def marks (w : Threads α) : ThreadEvent α → List (Mark PacketInfo)
  -- what an event does to the flag: a call sets it, or a packet takes it
  | .advance i =>
    match w.calls[i]? with
    | none => []
    | some c => if c.requests then [.set] else []
  | .stream clock =>
    if w.engine.stage = some .sendPacket then [.take (w.engine.packetInfo clock)] else []
  | _ => []

def history (es : List (ThreadEvent α)) : List (Mark PacketInfo) :=
  -- the requests and the packets of a run, in the order in which they reach the flag
  Runs.emitted step marks ({} : Threads α) es

/-- What a packet says, given the marks before it. -/
def NumberedAfter (before : List (Mark PacketInfo)) (p : PacketInfo) : Prop :=
  p.sequence = UInt32.ofNat (takes before).length ∧
    (pending true before = true ∧ Flagged p ∨
      pending true before = false ∧ Unflagged p ∧
        ∀ q ∈ (takes before).getLast?, p.sampleClock = nextClock q)

structure Counted (w : Threads α) (h : List (Mark PacketInfo)) : Prop where
  taken : takes h = w.engine.sent.map Packet.info
  pending : w.engine.discontinuityPending = pending true h
  sequence : w.engine.sequence = UInt32.ofNat (takes h).length
  sampleClock : ∀ p ∈ (takes h).getLast?, w.engine.sampleClock = nextClock p
  unmarked : w.engine.Unmarked
  numbered : ∀ before p after, h = before ++ .take p :: after → NumberedAfter before p

variable {w : Threads α} {h : List (Mark PacketInfo)}

omit [Zero α] in
theorem counted_new : Counted ({} : Threads α) [] where
  taken := rfl
  pending := rfl
  sequence := rfl
  sampleClock := by simp [takes]
  unmarked := by simp [StreamEngine.Unmarked]
  numbered before p after hsplit := by simp at hsplit

omit [Zero α] in
theorem Counted.quiet (hw : Counted w h) {w' : Threads α}
    (hsent : w'.engine.sent = w.engine.sent)
    (hpending : w'.engine.discontinuityPending = w.engine.discontinuityPending)
    (hsequence : w'.engine.sequence = w.engine.sequence)
    (hclock : w'.engine.sampleClock = w.engine.sampleClock)
    (hunmarked : w'.engine.Unmarked) : Counted w' (h ++ []) := by
  rw [List.append_nil]
  refine ⟨?_, hpending.trans hw.pending, hsequence.trans hw.sequence, ?_, hunmarked, hw.numbered⟩
  · rw [hsent]
    exact hw.taken
  · rw [hclock]
    exact hw.sampleClock

omit [Zero α] in
theorem numbered_snoc (hold : ∀ before p after, h = before ++ .take p :: after →
      NumberedAfter before p) {m : Mark PacketInfo} (hnew : ∀ p, m = .take p → NumberedAfter h p) :
    ∀ before p after, h ++ [m] = before ++ .take p :: after → NumberedAfter before p := by
  intro before p after hsplit
  rcases List.eq_nil_or_concat after with rfl | ⟨after', m', rfl⟩
  · obtain ⟨rfl, hm⟩ := List.append_inj' hsplit rfl
    exact hnew p (List.singleton_inj.mp hm)
  · rw [List.concat_eq_append, ← List.cons_append, ← List.append_assoc] at hsplit
    exact hold before p after' (List.append_inj' hsplit rfl).1

theorem counted_advance (hw : Counted w h) (i : ℕ) (c : Call) :
    Counted (w.advance i c) (h ++ if c.requests then [.set] else []) := by
  obtain ⟨hsequence, hclock, hpending⟩ := c.act_counters w.engine
  obtain ⟨hiteration, hsent, hstage⟩ := c.act_stream w.engine
  have hunmarked : (c.act w.engine).Unmarked := by
    intro s hs hdescribed
    rw [hiteration]
    rcases hstage s hs with hold | rfl
    · exact hw.unmarked s hold hdescribed
    · exact absurd hdescribed (by decide)
  cases hrequests : c.requests with
  | false =>
    rw [hrequests, Bool.false_or] at hpending
    exact hw.quiet hsent hpending hsequence hclock hunmarked
  | true =>
    rw [hrequests, Bool.true_or] at hpending
    have htakes : takes (h ++ [.set]) = takes h := by
      rw [takes_append]
      exact List.append_nil _
    refine ⟨?_, ?_, ?_, ?_, hunmarked, numbered_snoc hw.numbered (by simp)⟩
    · rw [if_pos rfl, htakes, hw.taken]
      exact congrArg (List.map Packet.info) hsent.symm
    · rw [if_pos rfl, pending_snoc]
      exact hpending
    · rw [if_pos rfl, htakes]
      exact hsequence.trans hw.sequence
    · rw [if_pos rfl, htakes]
      intro p hp
      exact hclock.trans (hw.sampleClock p hp)

omit [Zero α] in
theorem numberedAfter_packetInfo (hw : Counted w h) (clock : UInt32)
    (hstage : w.engine.stage = some .sendPacket) : NumberedAfter h (w.engine.packetInfo clock) := by
  refine ⟨hw.sequence, ?_⟩
  cases hpending : w.engine.discontinuityPending with
  | true => exact .inl ⟨hw.pending.symm.trans hpending, packetInfo_flagged hpending clock⟩
  | false =>
    refine .inr ⟨hw.pending.symm.trans hpending,
      StreamEngine.packetInfo_unflagged hpending (hw.unmarked _ hstage rfl) clock, fun q hq => ?_⟩
    rw [← hw.sampleClock q hq]
    simp [StreamEngine.packetInfo, hpending]

theorem counted_stream (hw : Counted w h) (clock : UInt32) :
    Counted (w.stream clock) (h ++ marks w (.stream clock)) := by
  have hunmarked := StreamEngine.unmarked_streamStep hw.unmarked clock
  by_cases hstage : w.engine.stage = some .sendPacket
  · have hsend : w.engine.streamStep clock = w.engine.sendPacket clock := by
      rw [StreamEngine.streamStep, hstage]
    have htakes : takes (h ++ [.take (w.engine.packetInfo clock)]) =
        takes h ++ [w.engine.packetInfo clock] := takes_append _ _
    simp only [marks, if_pos hstage]
    refine ⟨?_, ?_, ?_, ?_, hunmarked, numbered_snoc hw.numbered ?_⟩
    · rw [htakes, hw.taken]
      show _ = (w.engine.streamStep clock).sent.map _
      rw [hsend]
      show _ = (w.engine.sent ++ [_]).map _
      rw [List.map_append]
      rfl
    · rw [pending_snoc]
      show (w.engine.streamStep clock).discontinuityPending = _
      rw [hsend]
      rfl
    · show (w.engine.streamStep clock).sequence = _
      rw [hsend, htakes, List.length_append, UInt32.ofNat_add, ← hw.sequence]
      rfl
    · rw [htakes, List.getLast?_concat]
      rintro p ⟨⟩
      show (w.engine.streamStep clock).sampleClock = _
      rw [hsend]
      rfl
    · rintro p ⟨⟩
      exact numberedAfter_packetInfo hw clock hstage
  · obtain ⟨-, ⟨hsend, -⟩ | ⟨-, hsent, hpending, -⟩⟩ := w.engine.streamStep_epoch clock
    · exact absurd hsend hstage
    · obtain ⟨hsequence, hclock⟩ := w.engine.streamStep_counters clock hstage
      simp only [marks, if_neg hstage]
      exact hw.quiet hsent hpending hsequence hclock hunmarked

theorem counted_step (w : Threads α) (h : List (Mark PacketInfo)) (ev : ThreadEvent α)
    (hw : Counted w h) : Counted (w.step ev) (h ++ marks w ev) := by
  cases ev with
  | advance i =>
    cases hc : w.calls[i]? with
    | none =>
      simp only [step, marks, hc]
      exact hw.quiet rfl rfl rfl rfl hw.unmarked
    | some c =>
      simp only [step, marks, hc]
      exact counted_advance hw i c
  | stream clock => exact counted_stream hw clock
  | pushAudio buffer =>
    simp only [step, StreamEngine.pushAudio]
    split_ifs <;> exact hw.quiet rfl rfl rfl rfl hw.unmarked
  | stop =>
    simp only [step, StreamEngine.stop]
    split_ifs <;> exact hw.quiet rfl rfl rfl rfl hw.unmarked
  | _ => exact hw.quiet rfl rfl rfl rfl hw.unmarked

theorem counted_run (es : List (ThreadEvent α)) :
    Counted (run ({} : Threads α) es) (history es) :=
  Runs.emitted_invariant counted_step counted_new es

theorem toUInt64_frames (n : UInt16) : n.toUInt64 = UInt64.ofNat n.toNat := by
  apply UInt64.toNat_inj.mp
  have := n.toNat_lt
  rw [UInt16.toNat_toUInt64, UInt64.toNat_ofNat', Nat.mod_eq_of_lt (by omega)]

theorem clock_since {p q : PacketInfo} {b : List PacketInfo}
    (hchain : (p :: b ++ [q]).IsChain fun p q => Unflagged q → q.sampleClock = nextClock p)
    (hp : Flagged p) (hb : ∀ x ∈ b, Unflagged x) (hq : Unflagged q) :
    q.sampleClock = UInt64.ofNat ((p :: b).map fun x => x.frames.toNat).sum := by
  induction b using List.reverseRecOn generalizing q with
  | nil =>
    have hnext := (List.isChain_pair.mp hchain) hq
    rw [hnext, nextClock, hp.2.2, toUInt64_frames]
    simp
  | append_singleton b x ih =>
    have hx : Unflagged x := hb x (by simp)
    have hsplit : p :: (b ++ [x]) ++ [q] = (p :: b) ++ x :: q :: [] := by simp
    rw [hsplit, List.isChain_append_cons_cons] at hchain
    obtain ⟨hfirst, hnext, -⟩ := hchain
    have hprev := ih hfirst (fun y hy => hb y (by simp [hy])) hx
    rw [hnext hq, nextClock, hprev, toUInt64_frames, ← UInt64.ofNat_add]
    congr 1
    simp only [List.map_cons, List.map_append, List.map_nil, List.sum_cons, List.sum_append,
      List.sum_nil]
    omega

omit [Zero α] in
theorem Counted.after (hw : Counted w h) {a b : List PacketInfo} {p : PacketInfo}
    (hsplit : w.engine.sent.map Packet.info = a ++ p :: b) :
    ∃ before, takes before = a ∧ NumberedAfter before p := by
  rw [← hw.taken] at hsplit
  obtain ⟨before, after, rfl, hbefore, -⟩ := takes_eq_append_cons hsplit
  exact ⟨before, hbefore, hw.numbered before p after rfl⟩

omit [Zero α] in
theorem Counted.sequence_chain (hw : Counted w h) :
    (w.engine.sent.map Packet.info).IsChain fun p q => q.sequence = p.sequence + 1 := by
  rw [List.isChain_iff_forall_rel_of_append_cons_cons]
  intro p q a c hsplit
  obtain ⟨before, hbefore, hp, -⟩ := hw.after hsplit
  obtain ⟨before', hbefore', hq, -⟩ := hw.after (hsplit.trans (List.append_cons a p (q :: c)))
  rw [hp, hq, hbefore, hbefore', List.length_append, UInt32.ofNat_add]
  rfl

omit [Zero α] in
theorem Counted.clock_chain (hw : Counted w h) :
    (w.engine.sent.map Packet.info).IsChain fun p q =>
      Unflagged q → q.sampleClock = nextClock p := by
  rw [List.isChain_iff_forall_rel_of_append_cons_cons]
  intro p q a c hsplit hunflagged
  obtain ⟨before, hbefore, -, hq⟩ := hw.after (hsplit.trans (List.append_cons a p (q :: c)))
  rcases hq with ⟨-, hflagged⟩ | ⟨-, -, hclock⟩
  · exact absurd hflagged hunflagged.not_flagged
  · exact hclock p (by rw [hbefore, List.getLast?_concat]; rfl)

/-- The numbering of the packets of any run. -/
theorem packet_numbering (es : List (ThreadEvent α)) :
    let sent := (run ({} : Threads α) es).engine.sent.map Packet.info
    takes (history es) = sent ∧
      sent.IsChain (fun p q => q.sequence = p.sequence + 1) ∧
      (∀ p ∈ sent, Flagged p ∨ Unflagged p) ∧
      sent.IsChain (fun p q => Unflagged q → q.sampleClock = nextClock p) ∧
      (∀ p ∈ sent.head?, Flagged p) ∧
      (∀ a p b q c, sent = a ++ p :: b ++ q :: c → Flagged p → (∀ x ∈ b, Unflagged x) →
        Unflagged q → q.sampleClock = UInt64.ofNat ((p :: b).map fun x => x.frames.toNat).sum) ∧
      (∀ a b q c, history es = a ++ .set :: b ++ .take q :: c → takes b = [] → Flagged q) ∧
      ∀ a p b q c, history es = a ++ .take p :: b ++ .take q :: c → Flagged q → .set ∈ b := by
  have hw := counted_run es
  refine ⟨hw.taken, hw.sequence_chain, ?_, hw.clock_chain, ?_, ?_, ?_, ?_⟩
  · intro p hp
    obtain ⟨a, b, hsplit⟩ := List.append_of_mem hp
    obtain ⟨before, -, -, hflag⟩ := hw.after hsplit
    exact hflag.imp And.right fun hq => hq.2.1
  · intro p hp
    obtain ⟨b, hsplit⟩ := List.head?_eq_some_iff.mp hp
    obtain ⟨before, hbefore, -, hflag⟩ := hw.after (a := []) hsplit
    rcases hflag with ⟨-, hflagged⟩ | ⟨hpending, -⟩
    · exact hflagged
    · rw [pending_of_not_taken hbefore] at hpending
      exact absurd hpending (by decide)
  · intro a p b q c hsplit hp hb hq
    have hchain := hw.clock_chain
    have hparts : a ++ p :: b ++ q :: c = a ++ (p :: b ++ [q] ++ c) := by simp
    rw [hsplit, hparts] at hchain
    exact clock_since hchain.right_of_append.left_of_append hp hb hq
  · intro a b q c hsplit hb
    rcases (hw.numbered _ q c hsplit).2 with ⟨-, hflagged⟩ | ⟨hpending, -⟩
    · exact hflagged
    · rw [pending_after_set true a hb] at hpending
      exact absurd hpending (by decide)
  · intro a p b q c hsplit hflagged
    rcases (hw.numbered _ q c hsplit).2 with ⟨hpending, -⟩ | ⟨-, hunflagged, -⟩
    · exact set_of_pending_after_take hpending
    · exact absurd hflagged hunflagged.not_flagged

end Threads
end Ppm.Engine

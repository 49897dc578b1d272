import PhonePostMix.Receiver.Control
import PhonePostMix.Receiver.Recovery

/-! Everything that reaches the player, and what it does to the audio that is being played. -/

namespace Ppm.Receiver

inductive Incoming where
  | event (e : PlayerEvent)
  | control (message : Message)

namespace Player

def take (exp : ℚ → ℚ) (ctx : AudioContext) (p : Player) : Incoming → Player
  | .event e => p.step exp ctx e
  | .control message => p.handleControl message

theorem take_event (exp : ℚ → ℚ) (ctx : AudioContext) (p : Player) (e : PlayerEvent) :
    p.take exp ctx (.event e) = p.step exp ctx e := rfl

def Resets (p : Player) : Incoming → Prop
  | .event (.packet buffer) =>
    Passes buffer ∧
      (¬ Traced.Unchanged (readHeader buffer) p ∨ (readHeader buffer).flags &&& 1 ≠ 0)
  | .event .ringReset => True
  | .control message => message.type = .config ∧ message.protocol = .number version
  | _ => False

instance (p : Player) : DecidablePred p.Resets := fun i => by
  cases i with
  | event e => cases e <;> (unfold Resets; infer_instance)
  | control message => unfold Resets; infer_instance

def cleared (p : Player) (i : Incoming) : Player := if p.Resets i then p.ringReset else p

def delivered (p : Player) : Incoming → List (Sample × Sample)
  -- the frames the input adds to the ring
  | .event (.packet buffer) =>
    if Passes buffer ∧ (p.decoding buffer).1 = true then
      Ring.pushed (p.decoding buffer).2.l (p.decoding buffer).2.r (readHeader buffer).frames
    else []
  | _ => []

structure Carried (p q : Player) : Prop where
  ring : q.ring = p.ring
  resampler : q.resampler = p.resampler
  conceal : q.conceal = p.conceal
  drift : q.drift = p.drift

variable {p : Player}

theorem Carried.refl (p : Player) : Carried p p := ⟨rfl, rfl, rfl, rfl⟩

theorem Carried.trans {q r : Player} (h : Carried p q) (h' : Carried q r) : Carried p r :=
  ⟨h'.ring.trans h.ring, h'.resampler.trans h.resampler, h'.conceal.trans h.conceal,
    h'.drift.trans h.drift⟩

theorem Carried.ringReset {q : Player} (h : Carried p q) : Carried p.ringReset q.ringReset := by
  refine ⟨?_, ?_, h.conceal, ?_⟩
  · show ({ q.ring with read := 0, write := 0 } : Ring) = { p.ring with read := 0, write := 0 }
    rw [h.ring]
  · show ({ q.resampler with primed := false, phase := 0 } : Resampler) =
      { p.resampler with primed := false, phase := 0 }
    rw [h.resampler]
  · show ({ q.drift with integral := 0, correction := 0 } : Drift) =
      { p.drift with integral := 0, correction := 0 }
    rw [h.drift]

section Packet
variable (p) (buffer : List UInt8)

theorem carried_account (seq byteLength : ℕ) : Carried p (p.account seq byteLength) := by
  unfold account
  exact ⟨rfl, rfl, rfl, rfl⟩

theorem carried_configure (h : PacketHeader) :
    Carried (if Traced.Unchanged h p then p else p.ringReset) (p.configure h) := by
  split_ifs with hsame
  · rw [Traced.configure_of_unchanged p hsame]
    exact .refl p
  · rw [Traced.configure_changed p hsame]
    exact ⟨rfl, rfl, rfl, rfl⟩

theorem carried_atDecode (hpasses : Passes buffer) :
    Carried (p.cleared (.event (.packet buffer))) (p.atDecode buffer) := by
  have hconfigured := carried_configure p (readHeader buffer)
  unfold atDecode
  dsimp only
  by_cases hflag : (readHeader buffer).flags &&& 1 ≠ 0
  · have hresets : p.Resets (.event (.packet buffer)) := ⟨hpasses, .inr hflag⟩
    rw [cleared, if_pos hresets, if_pos hflag]
    refine Carried.trans ?_ (carried_account _ _ _)
    split_ifs at hconfigured
    · exact hconfigured.ringReset
    · exact hconfigured.ringReset
  · rw [if_neg hflag]
    refine Carried.trans ?_ (carried_account _ _ _)
    by_cases hsame : Traced.Unchanged (readHeader buffer) p
    · have hkeeps : ¬ p.Resets (.event (.packet buffer)) := fun h =>
        h.2.elim (fun hchanged => hchanged hsame) hflag
      rw [if_pos hsame] at hconfigured
      rw [cleared, if_neg hkeeps]
      exact hconfigured
    · rw [if_neg hsame] at hconfigured
      rw [cleared, if_pos ⟨hpasses, .inl hsame⟩]
      exact hconfigured

end Packet

theorem carried_handleControl (message : Message) :
    Carried (p.cleared (.control message)) (p.handleControl message) := by
  by_cases hresets : p.Resets (.control message)
  · have htype : message.type = .config := hresets.1
    have hprotocol : message.protocol = .number version := hresets.2
    rw [cleared, if_pos hresets, handleControl, htype]
    dsimp only
    rw [if_neg (not_not.mpr hprotocol), if_pos rfl]
    exact ⟨rfl, rfl, rfl, rfl⟩
  · rw [cleared, if_neg hresets]
    unfold handleControl
    dsimp only
    split_ifs with hprotocol hconfig
    · split <;> exact .refl p
    · exact absurd ⟨hconfig, not_not.mp hprotocol⟩ hresets
    · split <;> exact ⟨rfl, rfl, rfl, rfl⟩

theorem take_cases (exp : ℚ → ℚ) (ctx : AudioContext) (p : Player) (i : Incoming) :
    (∃ now count, i = .event (.pull now count)) ∨
    (p.delivered i = [] ∧ Carried (p.cleared i) (p.take exp ctx i)) ∨
    ∃ buffer, i = .event (.packet buffer) ∧ Passes buffer ∧
      ∃ (r : Player) (left right : ℕ → Sample), Carried (p.cleared i) r ∧
        r.targetFrames = (p.atDecode buffer).targetFrames ∧
        p.delivered i = Ring.pushed left right (readHeader buffer).frames ∧
        p.take exp ctx i = r.ringPush r.exactTarget left right (readHeader buffer).frames := by
  cases i with
  | control message => exact .inr (.inl ⟨rfl, carried_handleControl message⟩)
  | event e =>
    cases e with
    | pull now count => exact .inl ⟨now, count, rfl⟩
    | packet buffer =>
      right
      by_cases hpasses : Passes buffer
      · have hcarried : Carried (p.cleared (.event (.packet buffer))) (p.atPush buffer) :=
          (carried_atDecode p buffer hpasses).trans ⟨rfl, rfl, rfl, rfl⟩
        have hpacket := handlePacket_of_passes (T := exactTarget) hpasses p
        by_cases hdecodes : (p.decoding buffer).1 = true
        · right
          refine ⟨buffer, rfl, hpasses, p.atPush buffer, (p.decoding buffer).2.l,
            (p.decoding buffer).2.r, hcarried, rfl, ?_, ?_⟩
          · exact if_pos ⟨hpasses, hdecodes⟩
          · exact hpacket.trans (if_pos hdecodes)
        · left
          refine ⟨if_neg fun h => hdecodes h.2, ?_⟩
          rw [take, step, hpacket, if_neg hdecodes]
          exact hcarried
      · left
        refine ⟨if_neg fun h => hpasses h.1, ?_⟩
        have hkeeps : ¬ p.Resets (.event (.packet buffer)) := fun h => hpasses h.1
        rw [take, step, handlePacket_of_not_passes hpasses, cleared, if_neg hkeeps]
        exact .refl p
    | ringReset => exact .inr (.inl ⟨rfl, .refl p.ringReset⟩)
    | refreshFloor => exact .inr (.inl ⟨rfl, ⟨rfl, rfl, rfl, rfl⟩⟩)
    | slider ms => exact .inr (.inl ⟨rfl, ⟨rfl, rfl, rfl, rfl⟩⟩)
    | setPlaying value => exact .inr (.inl ⟨rfl, ⟨rfl, rfl, rfl, rfl⟩⟩)

theorem take_quiet (exp : ℚ → ℚ) (ctx : AudioContext) (p : Player) {i : Incoming}
    (hpull : ¬ ∃ now count, i = .event (.pull now count)) :
    (p.take exp ctx i).conceal = p.conceal ∧
      (p.take exp ctx i).resampler = (p.cleared i).resampler := by
  have hconceal : (p.cleared i).conceal = p.conceal := by
    unfold cleared
    split_ifs <;> rfl
  rw [← hconceal]
  rcases take_cases exp ctx p i with his | ⟨-, hcarried⟩ |
    ⟨buffer, -, -, r, left, right, hcarried, -, -, htake⟩
  · exact absurd his hpull
  · exact ⟨hcarried.conceal, hcarried.resampler⟩
  · rw [htake, conceal_ringPush, resampler_ringPush]
    exact ⟨hcarried.conceal, hcarried.resampler⟩

end Player
end Ppm.Receiver

import PhonePostMix.Library.WrappingCounters
import PhonePostMix.Listen.Connect
import PhonePostMix.Receiver.Incoming
import PhonePostMix.Wire.Agreement

/-! What the two receivers make of the numbers of the packets. -/

namespace Ppm.Wire
open WebSocket

def packetNumber (payload : List UInt8) : Option ℕ :=
  -- the number in the header of a packet that both receivers take
  if Receiver.Passes payload then some (Receiver.uint 4 payload 8) else none

theorem packetNumber_fields (info : PacketInfo) (rest : List UInt8) :
    packetNumber (fields info ++ rest) = some info.sequence.toNat := by
  have haccepted : Accepted (fields info ++ rest) := by
    refine ⟨?_, rfl, rfl⟩
    rw [List.length_append, length_fields]
    exact Nat.le_add_right _ _
  have hpasses : Receiver.Passes (fields info ++ rest) := (accepted_iff _).mp haccepted
  rw [packetNumber, if_pos hpasses, uint_sequence]

theorem length_frameHeader (opcode : Opcode) (n : ℕ) :
    (frameHeader opcode n).length = if n < 126 then 2 else if n ≤ 0xffff then 4 else 10 := by
  unfold frameHeader
  split_ifs <;> rfl

theorem writeFrame_injective (opcode : Opcode) : Function.Injective (writeFrame [] opcode) := by
  intro p q h
  have hsize : p.length = q.length := by
    have hlength := congrArg List.length h
    simp only [writeFrame, List.nil_append, List.length_append, length_frameHeader] at hlength
    split_ifs at hlength <;> omega
  simp only [writeFrame, List.nil_append, hsize] at h
  exact List.append_cancel_left h

end Ppm.Wire

namespace Ppm.Receiver
open Wire

def Incoming.payload : Incoming → Option (List UInt8)
  | .event (.packet buffer) => some buffer
  | _ => none

namespace Player

def tally (p : Player) : Tally where
  last := if 0 ≤ p.stats.lastSeq then some p.stats.lastSeq.toNat else none
  lost := p.stats.lost
  reordered := p.stats.reordered

variable (p : Player)

theorem tally_ringPush (T : TargetFrames) (left right : ℕ → Sample) (count : ℕ) :
    (p.ringPush T left right count).tally = p.tally := by
  unfold ringPush
  dsimp only
  split_ifs <;> rfl

theorem tally_handleControl (message : Message) : (p.handleControl message).tally = p.tally := by
  unfold handleControl
  split
  · split_ifs <;> rfl
  · split_ifs <;> rfl
  all_goals rfl

theorem tally_atDecode (buffer : List UInt8) :
    (p.atDecode buffer).tally = (p.account (readHeader buffer).seq buffer.length).tally := by
  have hstats {q : Player} (h : q.stats = p.stats) (seq byteLength : ℕ) :
      (q.account seq byteLength).tally = (p.account seq byteLength).tally := by
    simp only [tally, account, h]
  unfold atDecode
  dsimp only
  apply hstats
  split_ifs <;> exact p.stats_configure _

theorem tally_handlePacket (T : Player → TargetFrames) (buffer : List UInt8) :
    (p.handlePacket T buffer).tally = match packetNumber buffer with
    | none => p.tally
    | some seq => (p.account seq buffer.length).tally := by
  by_cases hpasses : Passes buffer
  · have hnumber : packetNumber buffer = some (readHeader buffer).seq := if_pos hpasses
    rw [handlePacket_of_passes hpasses, hnumber]
    dsimp only
    rw [← tally_atDecode]
    split_ifs
    · exact tally_ringPush _ _ _ _ _
    · rfl
  · have hnumber : packetNumber buffer = none := if_neg hpasses
    rw [handlePacket_of_not_passes hpasses, hnumber]

theorem tally_updateDrift (ctx : AudioContext) (now : ℚ) (blockFrames : ℕ) :
    (p.updateDrift ctx now blockFrames).tally = p.tally := by
  unfold updateDrift resynchronise
  dsimp only
  split_ifs <;> rfl

theorem tally_underrun : p.underrun.tally = p.tally := by
  unfold underrun
  split_ifs <;> rfl

theorem tally_catchUp (n : ℕ) : (p.catchUp n).tally = p.tally := by
  induction n generalizing p with
  | zero => rfl
  | succ n ih =>
    unfold catchUp
    split_ifs
    · rfl
    · exact p.tally_underrun
    · exact ih p.consume

theorem tally_sample (ratio concealDecay : ℚ) (b : Block) :
    (b.sample ratio concealDecay).player.tally = b.player.tally := by
  unfold Block.sample
  dsimp only
  split_ifs
  · rfl
  · exact tally_catchUp _ _
  · exact tally_catchUp _ _

theorem tally_pull (exp : ℚ → ℚ) (ctx : AudioContext) (now : ℚ) (count : ℕ) :
    (p.pull exp ctx now count).2.tally = p.tally := by
  have hblock : (p.block exp ctx now count).player.tally = p.tally := by
    have hloop : ∀ (ratio concealDecay : ℚ) (n : ℕ) (b : Block),
        ((Block.sample ratio concealDecay)^[n] b).player.tally = b.player.tally := by
      intro ratio concealDecay n b
      induction n generalizing b with
      | zero => rfl
      | succ n ih => exact (ih _).trans (tally_sample ratio concealDecay b)
    exact (hloop _ _ count _).trans (tally_updateDrift _ _ _ _)
  unfold pull
  split_ifs
  · rfl
  · exact hblock

theorem account_gap {p : Player} {m gap : ℕ} (hlast : p.tally.last = some m)
    (hgap : gap < 2 ^ 31 - 1) (byteLength : ℕ) :
    (p.account ((m + gap + 1) % 2 ^ 32) byteLength).tally =
      { p.tally with last := some ((m + gap + 1) % 2 ^ 32), lost := p.tally.lost + gap } := by
  obtain ⟨hnonneg, hm⟩ : 0 ≤ p.stats.lastSeq ∧ p.stats.lastSeq.toNat = m := by
    simp only [tally] at hlast
    split_ifs at hlast with hnonneg
    exact ⟨hnonneg, Option.some.inj hlast⟩
  have hdelta : ((((m + gap + 1) % 2 ^ 32 : ℕ) : ℤ) - p.stats.lastSeq) % 2 ^ 32 = gap + 1 := by
    omega
  have hforward : ¬ ((gap : ℤ) + 1 = 0 ∨ 0x80000000 < (gap : ℤ) + 1) := by omega
  simp only [tally, account, hdelta, if_pos hnonneg, if_neg hforward, Int.natCast_nonneg, if_true,
    Int.toNat_natCast]
  rcases Nat.eq_zero_or_pos gap with rfl | hpos
  · simp
  · rw [if_pos (by omega)]
    simp

theorem account_first {p : Player} (hlast : p.tally.last = none) (seq byteLength : ℕ) :
    (p.account seq byteLength).tally = { p.tally with last := some seq } := by
  have hnew : ¬ 0 ≤ p.stats.lastSeq := by
    intro hnonneg
    simp only [tally, if_pos hnonneg] at hlast
    cases hlast
  simp [tally, account, hnew]

theorem packet_of_payload {i : Incoming} {payload : List UInt8} (h : i.payload = some payload) :
    i = .event (.packet payload) := by
  unfold Incoming.payload at h
  split at h
  · rw [Option.some.inj h]
  · cases h

def counter (exp : ℚ → ℚ) (ctx : AudioContext) :
    GapCounter Player Incoming (2 ^ 32) (2 ^ 31 - 1) where
  step := take exp ctx
  number input := input.payload.bind packetNumber
  tally := tally
  quiet p input hnumber := by
    cases input with
    | control message => exact p.tally_handleControl message
    | event e =>
      cases e with
      | packet payload =>
        rw [take, step, tally_handlePacket, show packetNumber payload = none from hnumber]
      | pull now count => exact p.tally_pull exp ctx now count
      | _ => rfl
  first p input n hnumber hlast := by
    obtain ⟨payload, hpayload, hn⟩ := Option.bind_eq_some_iff.mp hnumber
    rw [packet_of_payload hpayload, take, step, tally_handlePacket, hn]
    exact account_first hlast n _
  later p input m gap hnumber hlast hgap := by
    obtain ⟨payload, hpayload, hn⟩ := Option.bind_eq_some_iff.mp hnumber
    rw [packet_of_payload hpayload, take, step, tally_handlePacket, hn]
    exact account_gap hlast hgap _

end Player
end Ppm.Receiver

namespace Ppm.Listen
open Wire

def Call.payload {τ : Type} : Call τ → Option (List UInt8)
  | .onBinary payload => some payload
  | _ => none

def State.handle {τ : Type} (wav : Bool) (s : State) : Call τ → State
  -- the callbacks: a text is printed, and the state is left to `decodePacket`
  | .onBinary payload => (decodePacket wav payload s).2
  | _ => s

def State.tally (s : State) : Tally where
  last := if 0 ≤ s.lastSeq then some s.lastSeq.toNat else none
  lost := s.lost

theorem tally_measure (body : List UInt8) (format n : ℕ) (s : State) :
    ((List.range n).foldl (measure body format) (true, s)).2.tally = s.tally := by
  induction n with
  | zero => rfl
  | succ n ih =>
    rw [List.range_succ, List.foldl_append, List.foldl_cons, List.foldl_nil, ← ih]
    generalize (List.range n).foldl (measure body format) (true, s) = before
    unfold measure
    split_ifs
    · rfl
    split
    · rfl
    split
    · rfl
    split_ifs <;> rfl

theorem tally_decodePacket (wav : Bool) (payload : List UInt8) (s : State) :
    (decodePacket wav payload s).2.tally =
      match packetNumber payload with
      | none => s.tally
      | some seq => (account seq payload.length s).tally := by
  unfold decodePacket
  by_cases hlen : payload.length < Receiver.headerBytes
  · rw [if_pos hlen, packetNumber, if_neg fun h => absurd h.1 (Nat.not_le.mpr hlen)]
  by_cases hmagic : Receiver.uint 4 payload 0 ≠ Receiver.magic
  · rw [if_neg hlen, if_pos hmagic, packetNumber, if_neg fun h => hmagic h.2.1]
  by_cases hversion : Receiver.uint 1 payload 4 ≠ 1
  · rw [if_neg hlen, if_neg hmagic, if_pos hversion, packetNumber, if_neg fun h => hversion h.2.2]
  have hnumber : packetNumber payload = some (readHeader payload).seq :=
    if_pos ⟨Nat.not_lt.mp hlen, not_not.mp hmagic, not_not.mp hversion⟩
  rw [if_neg hlen, if_neg hmagic, if_neg hversion, hnumber]
  dsimp only
  split_ifs
  all_goals exact tally_measure _ _ _ _

theorem account_gap {s : State} {m gap : ℕ} (hlast : s.tally.last = some m)
    (hgap : gap < 2 ^ 31 - 1) (byteLength : ℕ) :
    (account ((m + gap + 1) % 2 ^ 32) byteLength s).tally =
      { s.tally with last := some ((m + gap + 1) % 2 ^ 32), lost := s.tally.lost + gap } := by
  obtain ⟨hnonneg, hm⟩ : 0 ≤ s.lastSeq ∧ s.lastSeq.toNat = m := by
    simp only [State.tally] at hlast
    split_ifs at hlast with hnonneg
    exact ⟨hnonneg, Option.some.inj hlast⟩
  have hdelta : ((((m + gap + 1) % 2 ^ 32 : ℕ) : ℤ) - s.lastSeq) % 2 ^ 32 = gap + 1 := by
    omega
  simp only [State.tally, account, hdelta, hnonneg, true_and, Int.natCast_nonneg, if_true,
    Int.toNat_natCast]
  rcases Nat.eq_zero_or_pos gap with rfl | hpos
  · simp
  · rw [if_pos (by omega)]
    simp

theorem account_first {s : State} (hlast : s.tally.last = none) (seq byteLength : ℕ) :
    (account seq byteLength s).tally = { s.tally with last := some seq } := by
  have hnew : ¬ 0 ≤ s.lastSeq := by
    intro hnonneg
    simp only [State.tally, if_pos hnonneg] at hlast
    cases hlast
  simp [State.tally, account, hnew]

def State.counter (τ : Type) (wav : Bool) :
    GapCounter State (Call τ) (2 ^ 32) (2 ^ 31 - 1) where
  step := State.handle wav
  number call := call.payload.bind packetNumber
  tally := State.tally
  quiet s call hnumber := by
    cases call with
    | onBinary payload =>
      rw [State.handle, tally_decodePacket, show packetNumber payload = none from hnumber]
    | _ => rfl
  first s call n hnumber hlast := by
    obtain ⟨payload, hpayload, hn⟩ := Option.bind_eq_some_iff.mp hnumber
    cases call with
    | onBinary =>
      obtain rfl := Option.some.inj hpayload
      rw [State.handle, tally_decodePacket, hn]
      exact account_first hlast n _
    | _ => cases hpayload
  later s call m gap hnumber hlast hgap := by
    obtain ⟨payload, hpayload, hn⟩ := Option.bind_eq_some_iff.mp hnumber
    cases call with
    | onBinary =>
      obtain rfl := Option.some.inj hpayload
      rw [State.handle, tally_decodePacket, hn]
      exact account_gap hlast hgap _
    | _ => cases hpayload

end Ppm.Listen

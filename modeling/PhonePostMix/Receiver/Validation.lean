import PhonePostMix.Receiver.Decode

/-! Which buffers the page should take for packets, and which ones it does. -/

namespace Ppm.Receiver

def bytesPerSample (format : ℕ) : ℕ :=
  match format with
  | 0 => 2
  | 1 => 3
  | _ => 4

/-- A packet as the sender makes it. -/
structure WellFormed (buffer : List UInt8) : Prop where
  long : headerBytes ≤ buffer.length
  magic_eq : uint 4 buffer 0 = magic
  version_eq : uint 1 buffer 4 = version
  format_le : (readHeader buffer).format ≤ 2
  channels_pos : 0 < (readHeader buffer).channels
  length_eq : buffer.length = headerBytes + (readHeader buffer).frames *
    (readHeader buffer).channels * bytesPerSample (readHeader buffer).format

def Passes (buffer : List UInt8) : Prop :=
  headerBytes ≤ buffer.length ∧ uint 4 buffer 0 = magic ∧ uint 1 buffer 4 = version

instance (buffer : List UInt8) : Decidable (Passes buffer) := inferInstanceAs (Decidable (_ ∧ _))

theorem WellFormed.passes {buffer : List UInt8} (h : WellFormed buffer) : Passes buffer :=
  ⟨h.long, h.magic_eq, h.version_eq⟩

theorem sampleAt_ok {buffer : List UInt8} {format k : ℕ} (hformat : format ≤ 2)
    (h : headerBytes + (k + 1) * bytesPerSample format ≤ buffer.length) :
    ∃ value, sampleAt buffer format k = some value := by
  obtain rfl | rfl | rfl : format = 0 ∨ format = 1 ∨ format = 2 := by omega
  · have hsize : bytesPerSample 0 = 2 := rfl
    rw [hsize] at h
    obtain ⟨q, hq⟩ := Scratch.getInt16_ok buffer (headerBytes + k * 2) (by omega)
    exact ⟨.ratio q 32767, by rw [sampleAt, hq]; rfl⟩
  · have hsize : bytesPerSample 1 = 3 := rfl
    rw [hsize] at h
    have hread : ∃ q, int24 buffer (headerBytes + k * 3) = some q := by
      rw [int24, getUint_of_le (by omega), getUint_of_le (by omega), getUint_of_le (by omega)]
      exact ⟨_, rfl⟩
    obtain ⟨q, hq⟩ := hread
    exact ⟨.ratio q 8388607, by rw [sampleAt, hq]; rfl⟩
  · have hsize : bytesPerSample 2 = 4 := rfl
    rw [hsize] at h
    have hread : sampleAt buffer 2 k =
        (getUint 4 buffer (headerBytes + k * 4)).map .pattern := rfl
    exact ⟨_, by rw [hread, getUint_of_le (by omega)]; rfl⟩

theorem decode_wellFormed {buffer : List UInt8} (h : WellFormed buffer) (s : Scratch) :
    (s.decode buffer (readHeader buffer).format (readHeader buffer).channels
      (readHeader buffer).frames).1 = true := by
  have hlength := h.length_eq
  have hread (k : ℕ) (hk : k < (readHeader buffer).frames * (readHeader buffer).channels) :
      sampleAt buffer (readHeader buffer).format k =
        some ((sampleAt buffer (readHeader buffer).format k).getD (.pattern 0)) := by
    obtain ⟨value, hvalue⟩ := sampleAt_ok (k := k) h.format_le (by
      rw [hlength]
      exact Nat.add_le_add_left (Nat.mul_le_mul_right _ hk) _)
    rw [hvalue, Option.getD_some]
  have hfloats : headerBytes + (readHeader buffer).frames * (readHeader buffer).channels * 4 ≤
      buffer.length ∨ (readHeader buffer).format ≠ 2 := by
    by_cases hformat : (readHeader buffer).format = 2
    · rw [hformat] at hlength
      exact .inl hlength.ge
    · exact .inr hformat
  rw [Scratch.decode_eq h.format_le h.channels_pos hfloats hread]

namespace Player

def atDecode (buffer : List UInt8) (p : Player) : Player :=
  let h := readHeader buffer
  let p := p.configure h
  let p := if h.flags &&& 1 ≠ 0 then p.ringReset else p
  p.account h.seq buffer.length

def decoding (buffer : List UInt8) (p : Player) : Bool × Scratch :=
  let h := readHeader buffer
  ((p.atDecode buffer).scratch.grow h.frames).decode buffer h.format h.channels h.frames

def atPush (buffer : List UInt8) (p : Player) : Player :=
  { p.atDecode buffer with scratch := (p.decoding buffer).2 }

def Throws (buffer : List UInt8) (p : Player) : Prop :=
  Passes buffer ∧ (p.decoding buffer).1 = false

variable {T : Player → TargetFrames} {buffer : List UInt8}

theorem handlePacket_of_passes (h : Passes buffer) (p : Player) :
    p.handlePacket T buffer =
      if (p.decoding buffer).1 then
        (p.atPush buffer).ringPush (T (p.atPush buffer)) (p.decoding buffer).2.l
          (p.decoding buffer).2.r (readHeader buffer).frames
      else p.atPush buffer := by
  obtain ⟨hlong, hmagic, hversion⟩ := h
  rw [handlePacket, if_neg (Nat.not_lt.mpr hlong), if_neg (not_not.mpr hmagic),
    if_neg (not_not.mpr hversion)]
  rfl

theorem handlePacket_of_not_passes (h : ¬ Passes buffer) (p : Player) :
    p.handlePacket T buffer = p := by
  rw [handlePacket]
  by_cases hlong : buffer.length < headerBytes
  · rw [if_pos hlong]
  by_cases hmagic : uint 4 buffer 0 ≠ magic
  · rw [if_neg hlong, if_pos hmagic]
  by_cases hversion : uint 1 buffer 4 ≠ version
  · rw [if_neg hlong, if_neg hmagic, if_pos hversion]
  · exact absurd ⟨Nat.not_lt.mp hlong, not_not.mp hmagic, not_not.mp hversion⟩ h

@[simp] theorem stats_configure (h : PacketHeader) (p : Player) :
    (p.configure h).stats = p.stats := by
  unfold configure
  split_ifs <;> rfl

@[simp] theorem packets_account (seq byteLength : ℕ) (p : Player) :
    (p.account seq byteLength).stats.packets = p.stats.packets + 1 := by
  unfold account
  dsimp only
  split_ifs <;> rfl

@[simp] theorem packets_ringPush (T : TargetFrames) (left right : ℕ → Sample) (count : ℕ)
    (p : Player) : (p.ringPush T left right count).stats.packets = p.stats.packets := by
  unfold ringPush
  dsimp only
  split_ifs <;> rfl

theorem packets_atDecode (buffer : List UInt8) (p : Player) :
    (p.atDecode buffer).stats.packets = p.stats.packets + 1 := by
  unfold atDecode
  dsimp only
  rw [packets_account]
  split_ifs
  · show (p.configure _).stats.packets + 1 = _
    rw [stats_configure]
  · rw [stats_configure]

theorem packets_handlePacket (h : Passes buffer) (p : Player) :
    (p.handlePacket T buffer).stats.packets = p.stats.packets + 1 := by
  rw [handlePacket_of_passes h]
  split_ifs
  · rw [packets_ringPush]
    exact packets_atDecode buffer p
  · exact packets_atDecode buffer p

structure Untouched (T : Player → TargetFrames) (buffer : List UInt8) (p : Player) : Prop where
  returns : ¬ p.Throws buffer
  ring_eq : (p.handlePacket T buffer).ring = p.ring
  resampler_eq : (p.handlePacket T buffer).resampler = p.resampler
  stream_eq : (p.handlePacket T buffer).stream = p.stream
  stats_eq : (p.handlePacket T buffer).stats = p.stats

theorem untouched_of_not_passes (h : ¬ Passes buffer) (p : Player) : p.Untouched T buffer := by
  have heq := handlePacket_of_not_passes (T := T) h p
  exact ⟨fun hthrows => h hthrows.1, by rw [heq], by rw [heq], by rw [heq], by rw [heq]⟩

theorem not_untouched_of_passes (h : Passes buffer) (p : Player) : ¬ p.Untouched T buffer := by
  intro huntouched
  have hcount := packets_handlePacket (T := T) h p
  rw [huntouched.stats_eq] at hcount
  omega

theorem handlePacket_unknown_format (h : Passes buffer) (hformat : 2 < (readHeader buffer).format)
    (p : Player) :
    let scratch := (p.atDecode buffer).scratch.grow (readHeader buffer).frames
    let q : Player := { p.atDecode buffer with scratch }
    p.handlePacket T buffer = q.ringPush (T q) scratch.l scratch.r (readHeader buffer).frames := by
  have hdecode : p.decoding buffer =
      (true, (p.atDecode buffer).scratch.grow (readHeader buffer).frames) := by
    unfold decoding Scratch.decode
    dsimp only
    split
    · omega
    · omega
    · omega
    · rfl
  rw [handlePacket_of_passes h, atPush, hdecode]
  rfl

theorem malformed_untouched_iff (T : Player → TargetFrames) (buffer : List UInt8) (p : Player) :
    (¬ WellFormed buffer → p.Untouched T buffer) ↔
      WellFormed buffer ∨ buffer.length < headerBytes ∨ uint 4 buffer 0 ≠ magic ∨
        uint 1 buffer 4 ≠ version := by
  have hpasses : ¬ Passes buffer ↔
      buffer.length < headerBytes ∨ uint 4 buffer 0 ≠ magic ∨ uint 1 buffer 4 ≠ version := by
    rw [Passes, not_and_or, not_and_or, Nat.not_le]
  rw [← hpasses]
  constructor
  · intro h
    by_contra hmalformed
    obtain ⟨hbad, hgood⟩ := not_or.mp hmalformed
    exact not_untouched_of_passes (not_not.mp hgood) p (h hbad)
  · rintro (hgood | hbad) hmalformed
    · exact absurd hgood hmalformed
    · exact untouched_of_not_passes hbad p

def unknownFormat : List UInt8 :=
  [0x50, 0x50, 0x4d, 0x58, 1, 3, 2, 0, 0, 0, 0, 0, 0x80, 0xbb, 0, 0, 1, 0, 0, 0,
    0, 0, 0, 0, 0, 0, 0, 0, 0, 0, 0, 0]

theorem malformed_touched :
    ¬ WellFormed unknownFormat ∧ ¬ ({} : Player).Untouched exactTarget unknownFormat :=
  ⟨fun h => absurd h.format_le (by decide), not_untouched_of_passes (by decide) {}⟩

end Player
end Ppm.Receiver

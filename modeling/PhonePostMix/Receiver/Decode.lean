import PhonePostMix.Receiver.Packet

/-! What the page's decoder leaves in its arrays, sample by sample. -/

namespace Ppm.Receiver

/-- A sample as it is read: an integer over the full scale of its format, or a float's pattern. -/
inductive Value
  | ratio (q : ℤ) (scale : ℕ)
  | pattern (bits : ℕ)
  deriving DecidableEq, Repr

namespace Value

def sample : Value → Sample
  | ratio q scale => .number ((q : ℚ) / scale)
  | pattern bits => float32 bits

end Value

def sampleAt (buffer : List UInt8) (format k : ℕ) : Option Value :=
  -- the sample `k` places behind the header; none where reading it throws
  match format with
  | 0 => (getInt16 buffer (headerBytes + k * 2)).map fun q => .ratio q 32767
  | 1 => (int24 buffer (headerBytes + k * 3)).map fun q => .ratio q 8388607
  | _ => (getUint 4 buffer (headerBytes + k * 4)).map .pattern

def rightOf (channels i : ℕ) : ℕ :=
  -- the place of a frame's right sample, which is the left one of a mono packet
  if 1 < channels then i * channels + 1 else i * channels

theorem rightOf_lt {channels frames i : ℕ} (hchannels : 0 < channels) (hi : i < frames) :
    i * channels < frames * channels ∧ rightOf channels i < frames * channels := by
  have hnext : (i + 1) * channels ≤ frames * channels := Nat.mul_le_mul_right _ hi
  rw [Nat.add_mul, Nat.one_mul] at hnext
  unfold rightOf
  split_ifs <;> omega

namespace Scratch

def holding (l r : ℕ → Sample) (count : ℕ) (s : Scratch) : Scratch :=
  { s with
    l := fun i => if i < count then l i else s.l i
    r := fun i => if i < count then r i else s.r i }

theorem holding_zero (l r : ℕ → Sample) (s : Scratch) : s.holding l r 0 = s := by
  simp [holding]

theorem holding_l {l r : ℕ → Sample} {count i : ℕ} (h : i < count) (s : Scratch) :
    (s.holding l r count).l i = l i := if_pos h

theorem holding_r {l r : ℕ → Sample} {count i : ℕ} (h : i < count) (s : Scratch) :
    (s.holding l r count).r i = r i := if_pos h

theorem update_holding (f g : ℕ → Sample) (n : ℕ) :
    Function.update (fun i => if i < n then f i else g i) n (f n) =
      fun i => if i < n + 1 then f i else g i := by
  funext i
  rcases Nat.lt_trichotomy i n with h | rfl | h
  · rw [Function.update_of_ne h.ne, if_pos h, if_pos (Nat.lt_succ_of_lt h)]
  · rw [Function.update_self, if_pos i.lt_succ_self]
  · rw [Function.update_of_ne h.ne', if_neg (Nat.not_lt.mpr h.le), if_neg (by omega)]

theorem decodeFrames_eq {left : ℕ → Option Sample} {right : ℕ → Sample → Option Sample}
    {l r : ℕ → Sample} {frames : ℕ} (s : Scratch)
    (hleft : ∀ i < frames, left i = some (l i))
    (hright : ∀ i < frames, right i (l i) = some (r i)) :
    s.decodeFrames left right frames = (true, s.holding l r frames) := by
  induction frames with
  | zero => rw [holding_zero]; rfl
  | succ n ih =>
    have hbefore := ih (fun i hi => hleft i (Nat.lt_succ_of_lt hi))
      fun i hi => hright i (Nat.lt_succ_of_lt hi)
    rw [decodeFrames] at hbefore ⊢
    rw [List.range_succ, List.foldl_append, hbefore, List.foldl_cons, List.foldl_nil, decodeFrame]
    simp only [Bool.not_true, Bool.false_eq_true, if_false, hleft n n.lt_succ_self,
      hright n n.lt_succ_self]
    rw [holding, update_holding, update_holding]
    rfl

theorem decodeInterleaved_eq {size channels frames : ℕ} {read : ℕ → Option Sample}
    (value : ℕ → Sample) (hchannels : 0 < channels)
    (h : ∀ k < frames * channels, read (headerBytes + k * size) = some (value k)) (s : Scratch) :
    s.decodeInterleaved size channels read frames =
      (true, s.holding (fun i => value (i * channels)) (fun i => value (rightOf channels i))
        frames) := by
  apply decodeFrames_eq
  · intro i hi
    exact h _ (rightOf_lt hchannels hi).1
  · intro i hi
    have hright := h _ (rightOf_lt hchannels hi).2
    unfold rightOf at hright ⊢
    split_ifs at hright ⊢ with hstereo
    · rwa [Nat.add_mul, Nat.one_mul, ← Nat.add_assoc] at hright
    · rfl

theorem decode_eq {buffer : List UInt8} {format channels frames : ℕ} {value : ℕ → Value}
    (hformat : format ≤ 2) (hchannels : 0 < channels)
    (hlength : headerBytes + frames * channels * 4 ≤ buffer.length ∨ format ≠ 2)
    (h : ∀ k < frames * channels, sampleAt buffer format k = some (value k)) (s : Scratch) :
    s.decode buffer format channels frames =
      (true, s.holding (fun i => (value (i * channels)).sample)
        (fun i => (value (rightOf channels i)).sample) frames) := by
  have hsample (k : ℕ) (hk : k < frames * channels) :
      (sampleAt buffer format k).map Value.sample = some (value k).sample := by
    rw [h k hk, Option.map_some]
  obtain rfl | rfl | rfl : format = 0 ∨ format = 1 ∨ format = 2 := by omega
  · rw [decode]
    refine decodeInterleaved_eq (fun k => (value k).sample) hchannels (fun k hk => ?_) s
    rw [← hsample k hk, sampleAt, Option.map_map]
    rfl
  · rw [decode]
    refine decodeInterleaved_eq (fun k => (value k).sample) hchannels (fun k hk => ?_) s
    rw [← hsample k hk, sampleAt, Option.map_map]
    rfl
  · have hlen := hlength.resolve_right (fun hne => hne rfl)
    have float_at (k : ℕ) : sampleAt buffer 2 k =
        (getUint 4 buffer (headerBytes + k * 4)).map .pattern := rfl
    have hfloat (k : ℕ) (hk : k < frames * channels) :
        float32 (uint 4 buffer (headerBytes + k * 4)) = (value k).sample := by
      have hk4 := hsample k hk
      rw [float_at, getUint, if_pos (by omega)] at hk4
      exact Option.some_injective _ hk4
    rw [decode, if_pos hlen]
    refine decodeFrames_eq s (fun i hi => ?_) (fun i hi => ?_)
    · have hplace := (rightOf_lt hchannels hi).1
      dsimp only
      rw [if_pos hplace, hfloat _ hplace]
    · have hplace := (rightOf_lt hchannels hi).2
      dsimp only
      rw [← rightOf, if_pos hplace, hfloat _ hplace]

end Scratch
end Ppm.Receiver

import PhonePostMix.Library.BlockBuffer
import PhonePostMix.Library.Buffer
import PhonePostMix.Library.SecureHash

/-! The hash of the opening handshake, as a class that is fed in pieces. -/

namespace Ppm
open Buffer ByteOrder

/-- `bufferUsed` bytes of `buffer` wait for their block to be complete. -/
structure Sha1 where
  state : Vector UInt32 5 := #v[0x67452301, 0xefcdab89, 0x98badcfe, 0x10325476, 0xc3d2e1f0]
  buffer : List UInt8 := List.replicate 64 0
  bufferUsed : ℕ := 0
  bitCount : UInt64 := 0
  deriving DecidableEq

namespace Sha1

def reset (s : Sha1) : Sha1 :=
  { s with
    state := #v[0x67452301, 0xefcdab89, 0x98badcfe, 0x10325476, 0xc3d2e1f0]
    bitCount := 0
    bufferUsed := 0 }

def rotl (v n : UInt32) : UInt32 := v <<< n ||| v >>> (32 - n)

structure Locals where
  a : UInt32
  b : UInt32
  c : UInt32
  d : UInt32
  e : UInt32

def loadWord (block : List UInt8) (w : List UInt32) (i : ℕ) : List UInt32 :=
  w.set i ((block.getD (i * 4) 0).toUInt32 <<< 24 ||| (block.getD (i * 4 + 1) 0).toUInt32 <<< 16 |||
    (block.getD (i * 4 + 2) 0).toUInt32 <<< 8 ||| (block.getD (i * 4 + 3) 0).toUInt32)

def mixWord (w : List UInt32) (i : ℕ) : List UInt32 :=
  w.set i (rotl (w.getD (i - 3) 0 ^^^ w.getD (i - 8) 0 ^^^ w.getD (i - 14) 0 ^^^
    w.getD (i - 16) 0) 1)

def expand (block : List UInt8) : List UInt32 :=
  let w := (List.range 16).foldl (loadWord block) (List.replicate 80 0)
  (List.range' 16 64).foldl mixWord w

def round (w : List UInt32) (v : Locals) (i : ℕ) : Locals :=
  let f :=
    if i < 20 then v.b &&& v.c ||| ~~~v.b &&& v.d
    else if i < 40 then v.b ^^^ v.c ^^^ v.d
    else if i < 60 then v.b &&& v.c ||| v.b &&& v.d ||| v.c &&& v.d
    else v.b ^^^ v.c ^^^ v.d
  let k : UInt32 :=
    if i < 20 then 0x5a827999
    else if i < 40 then 0x6ed9eba1
    else if i < 60 then 0x8f1bbcdc
    else 0xca62c1d6
  let temp := rotl v.a 5 + f + v.e + k + w.getD i 0
  { a := temp, b := v.a, c := rotl v.b 30, d := v.c, e := v.d }

def processBlock (s : Sha1) (block : List UInt8) : Sha1 :=
  let w := expand block
  let v := (List.range 80).foldl (round w)
    ⟨s.state[0], s.state[1], s.state[2], s.state[3], s.state[4]⟩
  { s with
    state := #v[s.state[0] + v.a, s.state[1] + v.b, s.state[2] + v.c, s.state[3] + v.d,
      s.state[4] + v.e] }

def fillBuffer (s : Sha1) (bytes : List UInt8) : Sha1 :=
  let s :=
    { s with
      buffer := blit s.buffer s.bufferUsed bytes
      bufferUsed := s.bufferUsed + bytes.length }
  if s.bufferUsed = 64 then { s.processBlock s.buffer with bufferUsed := 0 } else s

def updateLoop : ℕ → Sha1 → List UInt8 → Sha1
  -- the loop of `update`, for at most `n` passes
  | 0, s, _ => s
  | n + 1, s, bytes =>
    if bytes = [] then s
    else
      let take := min bytes.length (64 - s.bufferUsed)
      updateLoop n (s.fillBuffer (bytes.take take)) (bytes.drop take)

def update (s : Sha1) (bytes : List UInt8) : Sha1 :=
  updateLoop bytes.length { s with bitCount := s.bitCount + UInt64.ofNat bytes.length * 8 } bytes

def padLoop : ℕ → Sha1 → Sha1
  | 0, s => s
  | n + 1, s => if s.bufferUsed ≠ 56 then padLoop n (s.update [0]) else s

def digest (s : Sha1) : List UInt8 :=
  s.state.toList.flatMap fun (x : UInt32) =>
    [(x >>> 24 &&& 0xff).toUInt8, (x >>> 16 &&& 0xff).toUInt8, (x >>> 8 &&& 0xff).toUInt8,
      (x &&& 0xff).toUInt8]

def lengthBytes (totalBits : UInt64) : List UInt8 :=
  (List.range 8).map fun i => (totalBits >>> (56 - UInt64.ofNat i * 8) &&& 0xff).toUInt8

def finish (s : Sha1) : List UInt8 × Sha1 :=
  let totalBits := s.bitCount
  let s := s.update [0x80]
  let s := padLoop 64 s
  let s := s.update (lengthBytes totalBits)
  (s.digest, s.reset)

def hash (bytes : List UInt8) : List UInt8 := (({} : Sha1).update bytes).finish.1

theorem or_eq_ch (x y z : UInt32) : x &&& y ||| ~~~x &&& z = SecureHash.ch x y z := by
  apply UInt32.toBitVec_inj.mp
  ext i hi
  simp only [SecureHash.ch, UInt32.toBitVec_or, UInt32.toBitVec_and, UInt32.toBitVec_xor,
    UInt32.toBitVec_not, BitVec.getElem_or, BitVec.getElem_and, BitVec.getElem_xor,
    BitVec.getElem_not]
  cases x.toBitVec[i] <;> simp

theorem or_eq_maj (x y z : UInt32) :
    x &&& y ||| x &&& z ||| y &&& z = SecureHash.maj x y z := by
  apply UInt32.toBitVec_inj.mp
  ext i hi
  simp only [SecureHash.maj, UInt32.toBitVec_or, UInt32.toBitVec_and, UInt32.toBitVec_xor,
    BitVec.getElem_or, BitVec.getElem_and, BitVec.getElem_xor]
  cases x.toBitVec[i] <;> cases y.toBitVec[i] <;> simp

theorem four_eq_word (b₀ b₁ b₂ b₃ : UInt8) :
    b₀.toUInt32 <<< 24 ||| b₁.toUInt32 <<< 16 ||| b₂.toUInt32 <<< 8 ||| b₃.toUInt32 =
      UInt32.ofNat (bigEndian [b₀, b₁, b₂, b₃]) := by
  have hbytes : bigEndian [b₀, b₁, b₂, b₃] =
      b₀.toNat <<< 24 ||| b₁.toNat <<< 16 ||| b₂.toNat <<< 8 ||| b₃.toNat := by
    simp [bigEndian, Nat.shiftLeft_or_distrib, ← Nat.shiftLeft_add]
  have hshift (b : UInt8) (n : ℕ) (hn : n ≤ 24) : b.toNat <<< n < 2 ^ 32 := by
    calc b.toNat <<< n = b.toNat * 2 ^ n := Nat.shiftLeft_eq _ _
      _ < 2 ^ 8 * 2 ^ n := Nat.mul_lt_mul_of_pos_right b.toNat_lt (Nat.two_pow_pos n)
      _ = 2 ^ (8 + n) := (pow_add 2 8 n).symm
      _ ≤ 2 ^ 32 := Nat.pow_le_pow_right (by decide) (by omega)
  have hword (b : UInt8) (n : UInt32) (hn : n.toNat ≤ 24) :
      (b.toUInt32 <<< n).toNat = b.toNat <<< n.toNat := by
    rw [UInt32.toNat_shiftLeft, UInt8.toNat_toUInt32, Nat.mod_eq_of_lt (by omega : n.toNat < 32),
      Nat.mod_eq_of_lt (hshift b _ hn)]
  apply UInt32.toNat_inj.mp
  rw [hbytes, UInt32.toNat_ofNat', Nat.mod_eq_of_lt]
  · simp only [UInt32.toNat_or]
    rw [hword b₀ 24 (by decide), hword b₁ 16 (by decide), hword b₂ 8 (by decide)]
    rfl
  · have hlast := hshift b₃ 0 (by decide)
    exact Nat.or_lt_two_pow (Nat.or_lt_two_pow (Nat.or_lt_two_pow (hshift b₀ 24 (by decide))
      (hshift b₁ 16 (by decide))) (hshift b₂ 8 (by decide))) hlast

theorem take_four_drop {α : Type} {l : List α} {k : ℕ} (h : k + 4 ≤ l.length) (d : α) :
    (l.drop k).take 4 = [l.getD k d, l.getD (k + 1) d, l.getD (k + 2) d, l.getD (k + 3) d] := by
  have hentry (i : ℕ) (hi : i < l.length) : l.getD i d = l[i] := by
    rw [List.getD_eq_getElem?_getD, List.getElem?_eq_getElem hi]
    rfl
  rw [hentry k (by omega), hentry (k + 1) (by omega), hentry (k + 2) (by omega),
    hentry (k + 3) (by omega), List.drop_eq_getElem_cons (by omega),
    List.drop_eq_getElem_cons (by omega), List.drop_eq_getElem_cons (by omega),
    List.drop_eq_getElem_cons (by omega)]
  rfl

section Block
variable {block : List UInt8} {w : List UInt32}

structure Scheduled (block : List UInt8) (n : ℕ) (w : List UInt32) : Prop where
  length : w.length = 80
  entry : ∀ t < n, w.getD t 0 = SecureHash.schedule block t

theorem Scheduled.set {n : ℕ} (h : Scheduled block n w) (hn : n < 80) :
    Scheduled block (n + 1) (w.set n (SecureHash.schedule block n)) := by
  refine ⟨List.length_set.trans h.length, fun t ht => ?_⟩
  rw [List.getD_eq_getElem?_getD, List.getElem?_set]
  split_ifs with heq hlt
  · rw [heq]
    rfl
  · rw [h.length] at hlt
    omega
  · rw [← List.getD_eq_getElem?_getD]
    exact h.entry t (by omega)

theorem scheduled_loadWord (hblock : block.length = 64) {i : ℕ} (hi : i < 16)
    (h : Scheduled block i w) : Scheduled block (i + 1) (loadWord block w i) := by
  have hword : loadWord block w i = w.set i (SecureHash.schedule block i) := by
    rw [loadWord, four_eq_word, SecureHash.schedule_of_lt hi, SecureHash.word,
      take_four_drop (by omega) 0]
  rw [hword]
  exact h.set (by omega)

theorem scheduled_mixWord {i : ℕ} (hi : 16 ≤ i) (hi' : i < 80) (h : Scheduled block i w) :
    Scheduled block (i + 1) (mixWord w i) := by
  have hword : mixWord w i = w.set i (SecureHash.schedule block i) := by
    rw [mixWord, h.entry (i - 3) (by omega), h.entry (i - 8) (by omega),
      h.entry (i - 14) (by omega), h.entry (i - 16) (by omega), SecureHash.schedule_of_ge hi]
    rfl
  rw [hword]
  exact h.set hi'

theorem scheduled_expand (hblock : block.length = 64) : Scheduled block 80 (expand block) := by
  have hload (n : ℕ) (hn : n ≤ 16) :
      Scheduled block n ((List.range n).foldl (loadWord block) (List.replicate 80 0)) := by
    induction n with
    | zero => exact ⟨List.length_replicate, nofun⟩
    | succ n ih =>
      rw [List.range_succ, List.foldl_append]
      exact scheduled_loadWord hblock (by omega) (ih (by omega))
  have hmix (w : List UInt32) (hw : Scheduled block 16 w) (n : ℕ) (hn : n ≤ 64) :
      Scheduled block (16 + n) ((List.range' 16 n).foldl mixWord w) := by
    induction n with
    | zero => exact hw
    | succ n ih =>
      rw [List.range'_concat, List.foldl_append, Nat.one_mul]
      exact scheduled_mixWord (i := 16 + n) (by omega) (by omega) (ih (by omega))
  exact hmix _ (hload 16 le_rfl) 64 le_rfl

def Locals.words (v : Locals) : SecureHash.Words := ⟨v.a, v.b, v.c, v.d, v.e⟩

theorem words_round (h : Scheduled block 80 w) {i : ℕ} (hi : i < 80) (v : Locals) :
    (round w v i).words = SecureHash.round (SecureHash.schedule block) v.words i := by
  have hentry := h.entry i hi
  simp only [round, hentry, or_eq_ch, or_eq_maj, SecureHash.round, Locals.words, SecureHash.f,
    SecureHash.k, rotl, SecureHash.rotl]
  split_ifs <;> rfl

theorem words_rounds (h : Scheduled block 80 w) (v : Locals) {n : ℕ} (hn : n ≤ 80) :
    ((List.range n).foldl (round w) v).words =
      (List.range n).foldl (SecureHash.round (SecureHash.schedule block)) v.words := by
  induction n with
  | zero => rfl
  | succ n ih =>
    rw [List.range_succ, List.foldl_append, List.foldl_append, List.foldl_cons, List.foldl_nil,
      List.foldl_cons, List.foldl_nil, words_round h hn, ih (by omega)]

def words (s : Sha1) : SecureHash.Words :=
  ⟨s.state[0], s.state[1], s.state[2], s.state[3], s.state[4]⟩

theorem words_processBlock (s : Sha1) (hblock : block.length = 64) :
    (s.processBlock block).words = SecureHash.compress s.words block := by
  have hrounds := words_rounds (scheduled_expand hblock)
    ⟨s.state[0], s.state[1], s.state[2], s.state[3], s.state[4]⟩ le_rfl
  rw [SecureHash.compress]
  have hsame : s.words =
      Locals.words ⟨s.state[0], s.state[1], s.state[2], s.state[3], s.state[4]⟩ := rfl
  rw [hsame, ← hrounds]
  rfl

end Block

section Stream
open BlockBuffer

structure Sound (s : Sha1) : Prop where
  length : s.buffer.length = 64
  used : s.bufferUsed < 64

def absorbed (s : Sha1) : SecureHash.Words × List UInt8 :=
  -- what the object has hashed, and the bytes that wait for the rest of their block
  (s.words, s.buffer.take s.bufferUsed)

variable {s : Sha1}

theorem Sound.length_absorbed (h : Sound s) : s.absorbed.2.length = s.bufferUsed := by
  have hused := h.used
  rw [absorbed, List.length_take, h.length]
  omega

theorem fillBuffer_spec (h : Sound s) {bytes : List UInt8} (hne : bytes ≠ [])
    (hfits : s.bufferUsed + bytes.length ≤ 64) :
    Sound (s.fillBuffer bytes) ∧
      (s.fillBuffer bytes).absorbed = absorb 64 SecureHash.compress s.absorbed bytes ∧
      (s.fillBuffer bytes).bitCount = s.bitCount := by
  have hpending := h.length_absorbed
  have hblit : (blit s.buffer s.bufferUsed bytes).length = 64 := by
    have hlength := h.length
    simp only [blit, List.length_append, List.length_take, List.length_drop]
    omega
  have htake : (blit s.buffer s.bufferUsed bytes).take (s.bufferUsed + bytes.length) =
      s.absorbed.2 ++ bytes := by
    apply List.take_left'
    show (s.absorbed.2 ++ bytes).length = _
    rw [List.length_append, hpending]
  unfold fillBuffer
  dsimp only
  split_ifs with hfull
  · refine ⟨⟨hblit, Nat.zero_lt_succ 63⟩, ?_, rfl⟩
    rw [absorb_full hne (by omega), ← htake, hfull, List.take_of_length_le hblit.le]
    exact congrArg (·, []) (words_processBlock _ hblit)
  · refine ⟨⟨hblit, by dsimp only; omega⟩, ?_, rfl⟩
    rw [absorb_short (by omega), ← htake]
    rfl

theorem updateLoop_spec (h : Sound s) {n : ℕ} {bytes : List UInt8} (hn : bytes.length ≤ n) :
    Sound (updateLoop n s bytes) ∧
      (updateLoop n s bytes).absorbed = absorb 64 SecureHash.compress s.absorbed bytes ∧
      (updateLoop n s bytes).bitCount = s.bitCount := by
  induction n generalizing s bytes with
  | zero =>
    obtain rfl := List.eq_nil_of_length_eq_zero (Nat.le_zero.mp hn)
    exact ⟨h, rfl, rfl⟩
  | succ n ih =>
    unfold updateLoop
    split_ifs with hnil
    · rw [hnil]
      exact ⟨h, rfl, rfl⟩
    · have hused := h.used
      have hpos := List.length_pos_iff.mpr hnil
      obtain ⟨take, htake⟩ : ∃ take, take = min bytes.length (64 - s.bufferUsed) := ⟨_, rfl⟩
      have htaken : (bytes.take take).length = take := by
        rw [List.length_take]
        omega
      have hrest : (bytes.drop take).length ≤ n := by
        rw [List.length_drop]
        omega
      have hsome : bytes.take take ≠ [] := List.ne_nil_of_length_pos (by omega)
      obtain ⟨hsound, habsorbed, hcount⟩ := fillBuffer_spec h hsome (by omega)
      obtain ⟨hsound', habsorbed', hcount'⟩ := ih hsound hrest
      dsimp only
      rw [← htake]
      refine ⟨hsound', habsorbed'.trans ?_, hcount'.trans hcount⟩
      rw [habsorbed, ← absorb_append, List.take_append_drop]

theorem update_spec (h : Sound s) (bytes : List UInt8) :
    Sound (s.update bytes) ∧
      (s.update bytes).absorbed = absorb 64 SecureHash.compress s.absorbed bytes ∧
      (s.update bytes).bitCount = s.bitCount + UInt64.ofNat bytes.length * 8 :=
  updateLoop_spec (s := { s with bitCount := s.bitCount + UInt64.ofNat bytes.length * 8 })
    ⟨h.length, h.used⟩ le_rfl

theorem padLoop_spec (h : Sound s) {n : ℕ} (hn : (120 - s.bufferUsed) % 64 ≤ n) :
    Sound (padLoop n s) ∧ (padLoop n s).bufferUsed = 56 ∧ (padLoop n s).absorbed =
      absorb 64 SecureHash.compress s.absorbed
        (List.replicate ((120 - s.bufferUsed) % 64) 0) := by
  have hused := h.used
  induction n generalizing s with
  | zero =>
    rw [Nat.le_zero.mp hn]
    exact ⟨h, by rw [padLoop]; omega, rfl⟩
  | succ n ih =>
    unfold padLoop
    split_ifs with hmore
    · obtain ⟨hsound, habsorbed, -⟩ := update_spec h [0]
      have hnext : (s.update [0]).bufferUsed = (s.bufferUsed + 1) % 64 := by
        rw [← hsound.length_absorbed, habsorbed,
          absorb_pending_length (by rw [h.length_absorbed]; exact hused), h.length_absorbed]
        rfl
      obtain ⟨hsound', hroom, habsorbed'⟩ := ih hsound (by omega) hsound.used
      refine ⟨hsound', hroom, habsorbed'.trans ?_⟩
      have hzeros : (120 - s.bufferUsed) % 64 = (120 - (s.update [0]).bufferUsed) % 64 + 1 := by
        omega
      rw [hzeros, List.replicate_succ, habsorbed, ← absorb_append]
      rfl
    · have hnone : (120 - s.bufferUsed) % 64 = 0 := by omega
      rw [hnone]
      exact ⟨h, not_not.mp hmore, rfl⟩

end Stream

section Output

theorem lengthBytes_eq (length : ℕ) :
    lengthBytes (UInt64.ofNat length * 8) = bigEndianBytes 8 (length * 8) := by
  have hbits : (UInt64.ofNat length * 8).toNat = length * 8 % 2 ^ 64 := by
    rw [UInt64.toNat_mul, UInt64.toNat_ofNat']
    exact Nat.mod_mul_mod _ _ _
  have hbyte (n : UInt64) (hn : n.toNat < 64) :
      ((UInt64.ofNat length * 8) >>> n &&& 0xff).toUInt8 =
        byteAt (length * 8 % 2 ^ 64) n.toNat := by
    apply UInt8.toNat_inj.mp
    rw [byteAt, UInt64.toNat_toUInt8, UInt64.toNat_and, UInt64.toNat_shiftRight, hbits,
      Nat.mod_eq_of_lt hn]
    rfl
  simp only [lengthBytes, bigEndianBytes, List.range_succ, List.range_zero, List.nil_append,
    List.map_cons, List.map_nil, List.cons_append]
  rw [hbyte _ (by decide), hbyte _ (by decide), hbyte _ (by decide), hbyte _ (by decide),
    hbyte _ (by decide), hbyte _ (by decide), hbyte _ (by decide), hbyte _ (by decide)]
  rw [byteAt_mod (by decide), byteAt_mod (by decide), byteAt_mod (by decide),
    byteAt_mod (by decide), byteAt_mod (by decide), byteAt_mod (by decide),
    byteAt_mod (by decide), byteAt_mod (by decide)]
  rfl

theorem digest_eq (s : Sha1) : s.digest = s.words.bytes := by
  have hlist : s.state.toList =
      [s.state[0], s.state[1], s.state[2], s.state[3], s.state[4]] := by
    apply List.ext_getElem (by simp)
    intro i hi _
    have hcases : i = 0 ∨ i = 1 ∨ i = 2 ∨ i = 3 ∨ i = 4 := by
      rw [Vector.length_toList] at hi
      omega
    rcases hcases with rfl | rfl | rfl | rfl | rfl <;> exact Vector.getElem_toList _
  have hbyte (x n : UInt32) (hn : n.toNat < 32) :
      (x >>> n &&& 0xff).toUInt8 = byteAt x.toNat n.toNat := by
    apply UInt8.toNat_inj.mp
    rw [byteAt, UInt32.toNat_toUInt8, UInt32.toNat_and, UInt32.toNat_shiftRight,
      Nat.mod_eq_of_lt hn]
    rfl
  have hword (x : UInt32) : [(x >>> 24 &&& 0xff).toUInt8, (x >>> 16 &&& 0xff).toUInt8,
      (x >>> 8 &&& 0xff).toUInt8, (x &&& 0xff).toUInt8] = bigEndianBytes 4 x.toNat := by
    have hlast : (x &&& 0xff).toUInt8 = byteAt x.toNat 0 := by
      have hzero := hbyte x 0 (by decide)
      rwa [UInt32.shiftRight_zero] at hzero
    rw [hbyte x 24 (by decide), hbyte x 16 (by decide), hbyte x 8 (by decide), hlast]
    rfl
  rw [digest, hlist, SecureHash.Words.bytes]
  simp only [hword]
  rfl

end Output

/-- A new object and one that has been reset are ready for a message; what is left in the buffer
does not matter. -/
structure Ready (s : Sha1) : Prop where
  length : s.buffer.length = 64
  state : s.words = SecureHash.initial
  used : s.bufferUsed = 0
  count : s.bitCount = 0

theorem ready_new : Ready {} := ⟨rfl, rfl, rfl, rfl⟩

theorem Ready.sound {s : Sha1} (h : Ready s) : Sound s :=
  ⟨h.length, by rw [h.used]; decide⟩

theorem Sound.ready_reset {s : Sha1} (h : Sound s) : Ready s.reset := ⟨h.length, rfl, rfl, rfl⟩

def updates (s : Sha1) (pieces : List (List UInt8)) : Sha1 := pieces.foldl update s

theorem updates_spec {s : Sha1} (h : Ready s) (pieces : List (List UInt8)) :
    Sound (s.updates pieces) ∧
      (s.updates pieces).absorbed =
        BlockBuffer.absorb 64 SecureHash.compress (SecureHash.initial, []) pieces.flatten ∧
      (s.updates pieces).bitCount = UInt64.ofNat pieces.flatten.length * 8 := by
  induction pieces using List.reverseRecOn with
  | nil =>
    refine ⟨h.sound, ?_, h.count⟩
    show (s.words, s.buffer.take s.bufferUsed) = _
    rw [h.state, h.used]
    rfl
  | append_singleton pieces piece ih =>
    obtain ⟨hsound, habsorbed, hcount⟩ := ih
    obtain ⟨hsound', habsorbed', hcount'⟩ := update_spec hsound piece
    rw [updates, List.foldl_append]
    refine ⟨hsound', habsorbed'.trans ?_, hcount'.trans ?_⟩
    · rw [habsorbed, ← BlockBuffer.absorb_append]
      simp
    · rw [hcount, List.flatten_append, List.length_append, UInt64.ofNat_add, UInt64.add_mul]
      simp

theorem finish_spec {s : Sha1} (h : Sound s) {message : List UInt8}
    (habsorbed : s.absorbed =
      BlockBuffer.absorb 64 SecureHash.compress (SecureHash.initial, []) message)
    (hcount : s.bitCount = UInt64.ofNat message.length * 8) :
    s.finish.1 = SecureHash.sha1 message ∧ Ready s.finish.2 := by
  obtain ⟨hmarked, hmark, -⟩ := update_spec h [0x80]
  have hused : (s.update [0x80]).bufferUsed = (message.length + 1) % 64 := by
    rw [← hmarked.length_absorbed, hmark, habsorbed, ← BlockBuffer.absorb_append,
      BlockBuffer.absorb_pending_length (by decide)]
    simp
  have hzeros : (120 - (s.update [0x80]).bufferUsed) % 64 = SecureHash.zeros message.length := by
    unfold SecureHash.zeros
    omega
  obtain ⟨hpadded, -, hpad⟩ := padLoop_spec hmarked (n := 64) (by omega)
  unfold finish
  dsimp only
  generalize padLoop 64 (s.update [0x80]) = q at hpadded hpad ⊢
  obtain ⟨hended, hend, -⟩ := update_spec hpadded (lengthBytes s.bitCount)
  generalize q.update (lengthBytes s.bitCount) = r at hended hend ⊢
  refine ⟨?_, hended.ready_reset⟩
  rw [hpad, hmark, habsorbed, ← BlockBuffer.absorb_append, ← BlockBuffer.absorb_append,
    ← BlockBuffer.absorb_append, hzeros, hcount, lengthBytes_eq] at hend
  have hpadding : message ++ ([0x80] ++ (List.replicate (SecureHash.zeros message.length) 0 ++
      bigEndianBytes 8 (message.length * 8))) = SecureHash.pad message := by
    simp [SecureHash.pad]
  have hblocks : (SecureHash.pad message).length / 64 = (message.length + 72) / 64 := by
    rw [SecureHash.length_pad]
    omega
  rw [hpadding, BlockBuffer.absorb_aligned (by decide) (SecureHash.length_pad message)] at hend
  rw [digest_eq, SecureHash.sha1, SecureHash.blocks, hblocks]
  exact congrArg SecureHash.Words.bytes (congrArg Prod.fst hend)

/-- However the message is cut into calls of `update`, the digest is that of the whole message,
and the object is ready for the next one. -/
theorem finish_updates {s : Sha1} (h : Ready s) (pieces : List (List UInt8)) :
    (s.updates pieces).finish.1 = SecureHash.sha1 pieces.flatten ∧
      Ready (s.updates pieces).finish.2 := by
  obtain ⟨hsound, habsorbed, hcount⟩ := updates_spec h pieces
  exact finish_spec hsound habsorbed hcount

example : hash [0x61, 0x62, 0x63] = [0xa9, 0x99, 0x3e, 0x36, 0x47, 0x06, 0x81, 0x6a, 0xba, 0x3e,
    0x25, 0x71, 0x78, 0x50, 0xc2, 0x6c, 0x9c, 0xd0, 0xd8, 0x9d] := by decide +kernel

end Sha1
end Ppm

import Mathlib.Data.Nat.Bitwise
import PhonePostMix.Listen.DecodePacket
import PhonePostMix.Wire.Samples

/-! The encoder and the two receivers agree about the bytes of a packet. -/

namespace Ppm.Wire
open Buffer ByteOrder

section Header

theorem uint_eq_readLittleEndian (width : ℕ) (buffer : List UInt8) (offset : ℕ) :
    Receiver.uint width buffer offset = readLittleEndian width buffer offset :=
  (littleEndian_eq_ofDigits _).symm

theorem uint_byte (buffer : List UInt8) (offset : ℕ) :
    Receiver.uint 1 buffer offset = (buffer.getD offset 0).toNat := by
  unfold Receiver.uint
  rcases Nat.lt_or_ge offset buffer.length with h | h
  · rw [List.drop_eq_getElem_cons h, List.take_succ_cons, List.take_zero,
      List.getD_eq_getElem?_getD, List.getElem?_eq_getElem h, List.map_singleton,
      Nat.ofDigits_singleton, Option.getD_some]
  · rw [List.drop_of_length_le h, List.getD_eq_getElem?_getD, List.getElem?_eq_none h]
    rfl

def PacketInfo.page (info : PacketInfo) : Receiver.PacketHeader where
  format := info.format.code.toNat
  channels := info.channels.toNat
  flags := info.flags.toNat
  seq := info.sequence.toNat
  sampleRate := info.sampleRate.toNat
  frames := info.frames.toNat
  epoch := info.configEpoch.toNat

def PacketInfo.listener (info : PacketInfo) : Listen.Header where
  format := info.format.code.toNat
  channels := info.channels.toNat
  seq := info.sequence.toNat
  sampleRate := info.sampleRate.toNat
  frames := info.frames.toNat
  epoch := info.configEpoch.toNat

theorem uint_slice (width : ℕ) {buffer : List UInt8} {offset n : ℕ}
    (h : (buffer.drop offset).take width = littleEndianBytes width n) :
    Receiver.uint width buffer offset = n % 256 ^ width := by
  rw [uint_eq_readLittleEndian, readLittleEndian, h, littleEndian_littleEndianBytes]

theorem uint_of_slice (width : ℕ) {buffer : List UInt8} {offset n : ℕ}
    (h : (buffer.drop offset).take width = littleEndianBytes width n) (hn : n < 256 ^ width) :
    Receiver.uint width buffer offset = n := by
  rw [uint_slice width h, Nat.mod_eq_of_lt hn]

section
variable (info : PacketInfo) (rest : List UInt8)

theorem uint_sequence : Receiver.uint 4 (fields info ++ rest) 8 = info.sequence.toNat :=
  uint_of_slice 4 rfl info.sequence.toNat_lt

theorem uint_sampleRate : Receiver.uint 4 (fields info ++ rest) 12 = info.sampleRate.toNat :=
  uint_of_slice 4 rfl info.sampleRate.toNat_lt

theorem uint_frames : Receiver.uint 2 (fields info ++ rest) 16 = info.frames.toNat :=
  uint_of_slice 2 rfl info.frames.toNat_lt

theorem uint_configEpoch : Receiver.uint 2 (fields info ++ rest) 18 = info.configEpoch.toNat :=
  uint_of_slice 2 rfl info.configEpoch.toNat_lt

theorem page_readHeader : Receiver.readHeader (fields info ++ rest) = info.page := by
  rw [Receiver.readHeader, uint_sequence, uint_sampleRate, uint_frames, uint_configEpoch,
    uint_byte, uint_byte, uint_byte]
  rfl

theorem listener_readHeader : Listen.readHeader (fields info ++ rest) = info.listener := by
  rw [Listen.readHeader, uint_sequence, uint_sampleRate, uint_frames, uint_configEpoch,
    uint_byte, uint_byte]
  rfl

end

theorem eq_fields_append {source : List UInt8} (h : Accepted source) (info : PacketInfo) :
    source = fields (readHeader source info).2 ++ source.drop headerBytes := by
  rw [(readHeader_accepted h info).2, List.take_append_drop]

theorem readHeader_isSome_iff (source : List UInt8) (info : PacketInfo) :
    (readHeader source info).1 = true ↔ Accepted source := by
  by_cases h : Accepted source
  · exact iff_of_true (readHeader_accepted h info).1 h
  · rw [readHeader_rejected h]
    exact iff_of_false Bool.false_ne_true h

theorem uint_eq_iff (bytes : List UInt8) (offset : ℕ) {source : List UInt8} {n : ℕ}
    (hbytes : littleEndianBytes bytes.length n = bytes) (hn : n < 256 ^ bytes.length)
    (hlen : offset + bytes.length ≤ source.length) :
    Receiver.uint bytes.length source offset = n ↔
      (source.drop offset).take bytes.length = bytes := by
  have hslice := littleEndianBytes_mod_readLittleEndian hlen
  constructor
  · intro h
    rw [← uint_eq_readLittleEndian, h, Nat.mod_eq_of_lt hn, hbytes] at hslice
    exact hslice.symm
  · intro h
    exact uint_of_slice _ (h.trans hbytes.symm) hn

theorem accepted_iff (source : List UInt8) : Accepted source ↔
    Receiver.headerBytes ≤ source.length ∧ Receiver.uint 4 source 0 = Receiver.magic ∧
      Receiver.uint 1 source 4 = Receiver.version := by
  have hversion : (source.getD 4 0).toNat = 1 ↔ source.getD 4 0 = protocolVersion :=
    UInt8.toNat_inj (b := 1)
  unfold Accepted
  rw [uint_byte, Receiver.version, hversion]
  apply and_congr_right
  intro hlen
  apply and_congr_left'
  exact (uint_eq_iff magic 0 rfl (by decide) (le_trans (by decide) hlen)).symm

theorem header_codecs_agree :
    (∀ (info old : PacketInfo) (destination buffer : List UInt8),
      buffer.take headerBytes = (writeHeader destination info).take headerBytes →
        readHeader buffer old = (true, info)) ∧
    ∀ (source : List UInt8) (info : PacketInfo),
      ((readHeader source info).1 = true ↔
        headerBytes ≤ source.length ∧ source.take 4 = magic ∧
          source.getD 4 0 = protocolVersion) ∧
      ((readHeader source info).1 = true → ∀ destination,
        (writeHeader destination (readHeader source info).2).take headerBytes =
          source.take headerBytes) ∧
      ((readHeader source info).1 = false → (readHeader source info).2 = info) ∧
      ((readHeader source info).1 = true →
        (Receiver.headerBytes ≤ source.length ∧ Receiver.uint 4 source 0 = Receiver.magic ∧
          Receiver.uint 1 source 4 = Receiver.version) ∧
        Receiver.readHeader source = (readHeader source info).2.page ∧
        Listen.readHeader source = (readHeader source info).2.listener) := by
  refine ⟨fun info old destination buffer h => ?_, fun source info => ?_⟩
  · have hbuffer : buffer = fields info ++ buffer.drop headerBytes := by
      rw [← take_writeHeader destination info, ← h, List.take_append_drop]
    rw [hbuffer]
    exact readHeader_fields info old _
  · refine ⟨readHeader_isSome_iff source info, fun h destination => ?_, fun h => ?_, fun h => ?_⟩
    · have haccepted := (readHeader_isSome_iff source info).mp h
      rw [take_writeHeader, (readHeader_accepted haccepted info).2]
    · have hrejected : ¬ Accepted source := by
        rw [← readHeader_isSome_iff source info, h]
        exact Bool.false_ne_true
      rw [readHeader_rejected hrejected]
    · have haccepted := (readHeader_isSome_iff source info).mp h
      have hsource := eq_fields_append haccepted info
      refine ⟨(accepted_iff source).mp haccepted, ?_⟩
      generalize (readHeader source info).2 = result at hsource ⊢
      rw [hsource]
      exact ⟨page_readHeader result _, listener_readHeader result _⟩

theorem header_codecs_agree_numbered :
    let info : PacketInfo :=
      { format := ⟨5⟩, channels := 6, flags := 7, sequence := 0x0b0a0908, sampleRate := 0x0f0e0d0c
        frames := 0x1110, configEpoch := 0x1312, sampleClock := 0x1b1a191817161514
        senderTimeMs := 0x1f1e1d1c }
    let bytes := (writeHeader (List.replicate 32 0) info).take headerBytes
    bytes.drop 5 = (List.range 27).map (fun i => (i + 5).toUInt8) ∧
      readHeader bytes {} = (true, info) ∧ Receiver.readHeader bytes = info.page ∧
        Listen.readHeader bytes = info.listener := by
  intro info bytes
  obtain ⟨hwritten, hread⟩ := header_codecs_agree
  have hback : readHeader bytes {} = (true, info) :=
    hwritten info {} (List.replicate 32 0) bytes (by rw [List.take_take, Nat.min_self])
  obtain ⟨-, -, -, hreceivers⟩ := hread bytes {}
  rw [hback] at hreceivers
  obtain ⟨-, hpage, hlistener⟩ := hreceivers rfl
  exact ⟨by decide +kernel, hback, hpage, hlistener⟩

end Header

section Samples

theorem or_bytes_eq (a b c : UInt8) :
    a.toNat ||| b.toNat <<< 8 ||| c.toNat <<< 16 = littleEndian [a, b, c] := by
  simp [littleEndian]

theorem extend24_eq {value : ℕ} (h : value < 2 ^ 24) :
    (if value &&& 0x800000 ≠ 0 then (value : ℤ) - 0x1000000 else value) =
      (BitVec.ofNat 24 value).toInt := by
  have hmask : value &&& 0x800000 = (value.testBit 23).toNat * 2 ^ 23 := Nat.and_two_pow value 23
  have hbit : value.testBit 23 = decide (0x800000 ≤ value) := by
    rw [Nat.testBit_eq_decide_div_mod_eq, decide_eq_decide]
    omega
  rw [hmask, hbit, BitVec.toInt_eq_toNat_cond, BitVec.toNat_ofNat, Nat.mod_eq_of_lt h]
  by_cases hlarge : 0x800000 ≤ value
  · rw [if_pos (by simpa using hlarge), if_neg (by omega)]
    norm_num
  · rw [if_neg (by simpa using hlarge), if_pos (by omega)]

theorem toInt_narrowed {width scale : ℕ} {q : ℤ} (hq : |q| ≤ scale)
    (hscale : 2 * scale < 2 ^ width) :
    (BitVec.ofInt width q).toInt = q := by
  have habs := abs_le.mp hq
  rw [BitVec.toInt_ofInt]
  apply Int.bmod_eq_of_le
  · omega
  · omega

theorem getInt16_eq {buffer : List UInt8} {offset : ℕ} (h : offset + 2 ≤ buffer.length) :
    Receiver.getInt16 buffer offset =
      some (BitVec.ofNat 16 (Receiver.uint 2 buffer offset)).toInt := by
  rw [Receiver.getInt16, Receiver.getUint_of_le h, Option.map_some]

theorem uint_three {buffer : List UInt8} {offset : ℕ} (h : offset + 3 ≤ buffer.length) :
    Receiver.uint 3 buffer offset = (buffer.getD offset 0).toNat |||
      (buffer.getD (offset + 1) 0).toNat <<< 8 ||| (buffer.getD (offset + 2) 0).toNat <<< 16 := by
  have hdrop : (buffer.drop offset).take 3 =
      [buffer.getD offset 0, buffer.getD (offset + 1) 0, buffer.getD (offset + 2) 0] := by
    have hget (i : ℕ) (hi : i < buffer.length) : buffer.getD i 0 = buffer[i] := by
      rw [List.getD_eq_getElem?_getD, List.getElem?_eq_getElem hi, Option.getD_some]
    rw [hget offset (by omega), hget (offset + 1) (by omega), hget (offset + 2) (by omega),
      List.drop_eq_getElem_cons (by omega), List.drop_eq_getElem_cons (by omega),
      List.drop_eq_getElem_cons (by omega)]
    rfl
  rw [or_bytes_eq, uint_eq_readLittleEndian, readLittleEndian, hdrop]

theorem uint_three_lt {buffer : List UInt8} {offset : ℕ} (h : offset + 3 ≤ buffer.length) :
    Receiver.uint 3 buffer offset < 2 ^ 24 := by
  have hbound := littleEndian_lt ((buffer.drop offset).take 3)
  rwa [List.length_take_of_le (by rw [List.length_drop]; omega), ← readLittleEndian,
    ← uint_eq_readLittleEndian] at hbound

theorem int24_eq {buffer : List UInt8} {offset : ℕ} (h : offset + 3 ≤ buffer.length) :
    Receiver.int24 buffer offset =
      some (BitVec.ofNat 24 (Receiver.uint 3 buffer offset)).toInt := by
  rw [← extend24_eq (uint_three_lt h), uint_three h, Receiver.int24,
    Receiver.getUint_of_le (by omega), Receiver.getUint_of_le (by omega),
    Receiver.getUint_of_le (by omega), uint_byte, uint_byte, uint_byte]
  rfl

theorem uint_drop (width : ℕ) (buffer : List UInt8) (skip offset : ℕ) :
    Receiver.uint width (buffer.drop skip) offset = Receiver.uint width buffer (skip + offset) := by
  rw [Receiver.uint, List.drop_drop, Receiver.uint]

theorem readSample_eq {format : Format} (hformat : format.Known) {buffer : List UInt8} {k : ℕ}
    (h : headerBytes + (k + 1) * bytesPerSample format ≤ buffer.length) :
    Listen.readSample (buffer.drop headerBytes) format.code.toNat k =
      Receiver.sampleAt buffer format.code.toNat k := by
  have hlen : (buffer.drop headerBytes).length = buffer.length - headerBytes := List.length_drop
  have hbase : Receiver.headerBytes = headerBytes := rfl
  rcases hformat with rfl | rfl | rfl
  · have hsize : bytesPerSample .pcm16 = 2 := rfl
    rw [hsize] at h
    show (Receiver.getInt16 (buffer.drop headerBytes) (k * 2)).map (Receiver.Value.ratio · 32767) =
      (Receiver.getInt16 buffer (headerBytes + k * 2)).map (Receiver.Value.ratio · 32767)
    rw [getInt16_eq (by omega), getInt16_eq (by omega), uint_drop]
  · have hsize : bytesPerSample .pcm24 = 3 := rfl
    rw [hsize] at h
    have hbody : Listen.readSample (buffer.drop headerBytes) 1 k = some (.ratio
        (BitVec.ofNat 24 (Receiver.uint 3 (buffer.drop headerBytes) (k * 3))).toInt 8388607) := by
      rw [← extend24_eq (uint_three_lt (by omega)), uint_three (by omega)]
      rfl
    have hpage : Receiver.sampleAt buffer 1 k =
        (Receiver.int24 buffer (headerBytes + k * 3)).map (Receiver.Value.ratio · 8388607) := rfl
    show Listen.readSample (buffer.drop headerBytes) 1 k = Receiver.sampleAt buffer 1 k
    rw [hbody, hpage, int24_eq (by omega), uint_drop, Option.map_some]
  · have hsize : bytesPerSample .float32 = 4 := rfl
    rw [hsize] at h
    show (Receiver.getUint 4 (buffer.drop headerBytes) (k * 4)).map Receiver.Value.pattern =
      (Receiver.getUint 4 buffer (headerBytes + k * 4)).map Receiver.Value.pattern
    rw [Receiver.getUint_of_le (by omega), Receiver.getUint_of_le (by omega), uint_drop]

def decoded (format : Format) (sample : FloatSample) : Receiver.Value :=
  if format = .pcm16 then .ratio (lroundClamped pcm16Scale sample) pcm16Scale
  else if format = .pcm24 then .ratio (lroundClamped pcm24Scale sample) pcm24Scale
  else .pattern sample.bits.toNat

theorem toInt_pcm16 (sample : FloatSample) :
    (BitVec.ofInt 16 (lroundClamped pcm16Scale sample)).toInt = lroundClamped pcm16Scale sample :=
  toInt_narrowed (Rounding.abs_quantise_le pcm16Scale sample.value) (by decide)

theorem toInt_pcm24 (sample : FloatSample) :
    (BitVec.ofNat 24 ((BitVec.ofInt 32 (lroundClamped pcm24Scale sample)).toNat % 256 ^ 3)).toInt =
      lroundClamped pcm24Scale sample := by
  have hq := Rounding.abs_quantise_le pcm24Scale sample.value
  rw [← lroundClamped] at hq
  generalize lroundClamped pcm24Scale sample = q at hq
  have hlow : BitVec.ofNat 24 ((BitVec.ofInt 32 q).toNat % 256 ^ 3) = BitVec.ofInt 24 q := by
    apply BitVec.eq_of_toNat_eq
    rw [BitVec.toNat_ofNat, BitVec.toNat_ofInt, BitVec.toNat_ofInt]
    omega
  rw [hlow, toInt_narrowed hq (by decide)]

theorem sampleAt_eq {format : Format} (hformat : format.Known) {buffer : List UInt8} {k : ℕ}
    {sample : FloatSample}
    (h : (buffer.drop (headerBytes + k * bytesPerSample format)).take (bytesPerSample format) =
      sampleBytes format sample) :
    Receiver.sampleAt buffer format.code.toNat k = some (decoded format sample) := by
  have hlen : headerBytes + (k + 1) * bytesPerSample format ≤ buffer.length := by
    have hbytes := congrArg List.length h
    have hpos : 0 < bytesPerSample format := by
      rcases hformat with rfl | rfl | rfl <;> decide
    rw [length_sampleBytes, List.length_take, List.length_drop] at hbytes
    rw [Nat.add_mul, Nat.one_mul]
    omega
  rcases hformat with rfl | rfl | rfl
  · have hsize : bytesPerSample .pcm16 = 2 := rfl
    rw [hsize] at h hlen
    show (Receiver.getInt16 buffer (headerBytes + k * 2)).map (Receiver.Value.ratio · 32767) = _
    have huint : Receiver.uint 2 buffer (headerBytes + k * 2) = _ :=
      uint_of_slice 2 h (BitVec.isLt _)
    rw [getInt16_eq (by omega), huint, BitVec.ofNat_toNat, BitVec.setWidth_eq, toInt_pcm16]
    rfl
  · have hsize : bytesPerSample .pcm24 = 3 := rfl
    rw [hsize] at h hlen
    show (Receiver.int24 buffer (headerBytes + k * 3)).map (Receiver.Value.ratio · 8388607) = _
    have huint : Receiver.uint 3 buffer (headerBytes + k * 3) = _ := uint_slice 3 h
    rw [int24_eq (by omega), huint, toInt_pcm24]
    rfl
  · have hsize : bytesPerSample .float32 = 4 := rfl
    rw [hsize] at h hlen
    show (Receiver.getUint 4 buffer (headerBytes + k * 4)).map Receiver.Value.pattern = _
    have huint : Receiver.uint 4 buffer (headerBytes + k * 4) = _ :=
      uint_of_slice 4 h sample.bits.toNat_lt
    rw [Receiver.getUint_of_le (by omega), huint]
    rfl

section Packet
variable {info : PacketInfo} (hformat : info.format.Known) {buffer : List UInt8}
  (hsize : buffer.length = packetSize info) (interleaved : ℕ → FloatSample)
include hformat hsize

theorem length_writePacket : (writePacket buffer info interleaved).length = packetSize info := by
  rw [writePacket_eq hformat hsize, List.length_append, length_fields, length_payload]

theorem packet_slice {k : ℕ} (hk : k < info.frames.toNat * info.channels.toNat) :
    ((writePacket buffer info interleaved).drop
      (headerBytes + k * bytesPerSample info.format)).take (bytesPerSample info.format) =
        sampleBytes info.format (interleaved k) := by
  have hslice := take_drop_flatMap (fun i => sampleBytes info.format (interleaved i))
    (bytesPerSample info.format) (fun i => length_sampleBytes _ _) [] hk
  rw [List.append_nil] at hslice
  rw [writePacket_eq hformat hsize, ← List.drop_drop,
    List.drop_left' (length_fields info), payload, hslice]

theorem page_sample {k : ℕ} (hk : k < info.frames.toNat * info.channels.toNat) :
    Receiver.sampleAt (writePacket buffer info interleaved) info.format.code.toNat k =
      some (decoded info.format (interleaved k)) :=
  sampleAt_eq hformat (packet_slice hformat hsize interleaved hk)

theorem sample_in_packet {k : ℕ} (hk : k < info.frames.toNat * info.channels.toNat) :
    headerBytes + (k + 1) * bytesPerSample info.format ≤
      (writePacket buffer info interleaved).length := by
  rw [length_writePacket hformat hsize, packetSize]
  exact Nat.add_le_add_left (Nat.mul_le_mul_right _ hk) _

theorem listener_sample {k : ℕ} (hk : k < info.frames.toNat * info.channels.toNat) :
    Listen.readSample ((writePacket buffer info interleaved).drop headerBytes)
      info.format.code.toNat k = some (decoded info.format (interleaved k)) := by
  rw [readSample_eq hformat (sample_in_packet hformat hsize interleaved hk),
    page_sample hformat hsize interleaved hk]

theorem headers_writePacket :
    Receiver.readHeader (writePacket buffer info interleaved) = info.page ∧
      Listen.readHeader (writePacket buffer info interleaved) = info.listener := by
  rw [writePacket_eq hformat hsize]
  exact ⟨page_readHeader info _, listener_readHeader info _⟩

theorem listener_returns (wav : Bool) (s : Listen.State) :
    (Listen.decodePacket wav (writePacket buffer info interleaved) s).1 = .returned := by
  have hheader := (headers_writePacket hformat hsize interleaved).2
  apply Listen.decodePacket_returns
  · rw [writePacket_eq hformat hsize, uint_byte]
    rfl
  · intro i hi
    rw [hheader] at hi ⊢
    exact Option.ne_none_iff_exists'.mpr ⟨_, listener_sample hformat hsize interleaved hi⟩

theorem page_decode (hchannels : 0 < info.channels.toNat) (s : Receiver.Scratch) :
    s.decode (writePacket buffer info interleaved) info.format.code.toNat info.channels.toNat
      info.frames.toNat = (true, s.holding
        (fun i => (decoded info.format (interleaved (i * info.channels.toNat))).sample)
        (fun i => (decoded info.format
          (interleaved (Receiver.rightOf info.channels.toNat i))).sample) info.frames.toNat) := by
  refine Receiver.Scratch.decode_eq ?_ hchannels ?_
    (fun k hk => page_sample hformat hsize interleaved hk) s
  · rcases hformat with h | h | h <;> rw [h] <;> decide
  · by_cases hfloat : info.format = .float32
    · left
      rw [length_writePacket hformat hsize, packetSize, hfloat]
      exact le_rfl
    · right
      rcases hformat with h | h | h
      · rw [h]; decide
      · rw [h]; decide
      · exact absurd h hfloat

end Packet

theorem samples_round_trip {info : PacketInfo} (hformat : info.format.Known)
    (hchannels : info.channels = 1 ∨ info.channels = 2) {buffer : List UInt8}
    (hsize : buffer.length = packetSize info) (interleaved : ℕ → FloatSample) :
    let packet := writePacket buffer info interleaved
    let h := Receiver.readHeader packet
    let channels := info.channels.toNat
    let value (k : ℕ) : Receiver.Value := decoded info.format (interleaved k)
    packet.length = packetSize info ∧
    (∀ k < info.frames.toNat * channels,
      headerBytes + (k + 1) * bytesPerSample info.format ≤ packet.length ∧
      Receiver.sampleAt packet h.format k = some (value k) ∧
      Listen.readSample (packet.drop headerBytes) (Listen.readHeader packet).format k =
        some (value k)) ∧
    (∀ s : Receiver.Scratch,
      let result := s.decode packet h.format h.channels h.frames
      result.1 = true ∧ ∀ i < info.frames.toNat,
        result.2.l i = (value (i * channels)).sample ∧
        result.2.r i = (value (i * channels + (channels - 1))).sample ∧
        (channels = 1 → result.2.r i = result.2.l i)) ∧
    (∀ wav s, (Listen.decodePacket wav packet s).1 = .returned) ∧
    ∀ x y : FloatSample,
      decoded .pcm16 x = .ratio (lroundClamped 32767 x) 32767 ∧
      decoded .pcm24 x = .ratio (lroundClamped 8388607 x) 8388607 ∧
      decoded .float32 x = .pattern x.bits.toNat ∧
      (BitVec.ofInt 16 (lroundClamped 32767 x)).toInt = lroundClamped 32767 x ∧
      (BitVec.ofInt 32 (lroundClamped 8388607 x)).toInt = lroundClamped 8388607 x ∧
      ∀ scale : ℕ, scale = 32767 ∨ scale = 8388607 →
        |lroundClamped scale x| ≤ scale ∧
        |(lroundClamped scale x : ℚ) / scale - Rounding.clamp x.value (-1) 1| ≤ 1 / (2 * scale) ∧
        (x.value ≤ y.value → lroundClamped scale x ≤ lroundClamped scale y) ∧
        (y.value = -x.value → lroundClamped scale y = -lroundClamped scale x) := by
  have hone : info.channels.toNat = 1 ∨ info.channels.toNat = 2 := by
    rcases hchannels with h | h <;> rw [h] <;> decide
  have hheaders := headers_writePacket hformat hsize interleaved
  dsimp only
  rw [hheaders.1, hheaders.2]
  refine ⟨length_writePacket hformat hsize interleaved, fun k hk => ?_, fun s => ?_,
    listener_returns hformat hsize interleaved, fun x y => ?_⟩
  · exact ⟨sample_in_packet hformat hsize interleaved hk,
      page_sample hformat hsize interleaved hk, listener_sample hformat hsize interleaved hk⟩
  · have hdecode : s.decode (writePacket buffer info interleaved) info.page.format
        info.page.channels info.page.frames = _ :=
      page_decode hformat hsize interleaved (by omega) s
    rw [hdecode]
    refine ⟨rfl, fun i hi => ⟨Receiver.Scratch.holding_l hi s, ?_, fun hmono => ?_⟩⟩
    · apply (Receiver.Scratch.holding_r hi s).trans
      rcases hone with h | h
      · simp [Receiver.rightOf, h]
      · simp [Receiver.rightOf, h]
    · apply (Receiver.Scratch.holding_r hi s).trans
      refine Eq.trans ?_ (Receiver.Scratch.holding_l hi s).symm
      simp [Receiver.rightOf, hmono]
  · refine ⟨rfl, rfl, rfl, toInt_pcm16 x,
      toInt_narrowed (Rounding.abs_quantise_le 8388607 x.value) (by decide), fun scale hscale => ?_⟩
    have hpos : 0 < scale := by omega
    refine ⟨Rounding.abs_quantise_le scale x.value, Rounding.abs_quantise_div_sub_le scale hpos _,
      fun hle => Rounding.quantise_mono scale hle, fun hneg => ?_⟩
    rw [lroundClamped, hneg, Rounding.quantise_neg, lroundClamped]

def loud (k : ℕ) : FloatSample := ⟨[1 / 2, -1 / 4, 2, -3, 0, 1 / 3].getD k 0, 0⟩

def loudIntegers : List ℤ := [4194304, -2097152, 8388607, -8388607, 0, 2796202]

theorem samples_round_trip_stereo :
    let info : PacketInfo := { format := .pcm24, channels := 2, frames := 3 }
    let packet := writePacket (List.replicate 50 0) info loud
    let value (k : ℕ) : Receiver.Value := .ratio (loudIntegers.getD k 0) 8388607
    (∀ k < 6, Receiver.sampleAt packet (Receiver.readHeader packet).format k = some (value k) ∧
      Listen.readSample (packet.drop headerBytes) (Listen.readHeader packet).format k =
        some (value k)) ∧
    ∀ s : Receiver.Scratch,
      let h := Receiver.readHeader packet
      let page := (s.decode packet h.format h.channels h.frames).2
      ∀ i < 3, page.l i = (value (2 * i)).sample ∧ page.r i = (value (2 * i + 1)).sample := by
  intro info
  obtain ⟨-, hsamples, hpage, -, hvalues⟩ :=
    @samples_round_trip info (.inr (.inl rfl)) (.inr rfl) (List.replicate 50 0) (by decide) loud
  have hrounded : ∀ k < 6, lroundClamped 8388607 (loud k) = loudIntegers.getD k 0 := by
    decide +kernel
  have hvalue : ∀ k < 6,
      decoded info.format (loud k) = .ratio (loudIntegers.getD k 0) 8388607 := by
    intro k hk
    rw [show info.format = .pcm24 from rfl, (hvalues (loud k) (loud k)).2.1, hrounded k hk]
  have hchannels : info.channels.toNat = 2 := rfl
  have hframes : info.frames.toNat = 3 := rfl
  rw [hchannels, hframes] at hsamples
  simp only [hchannels, hframes, Nat.add_one_sub_one] at hpage
  generalize decoded info.format = read at hsamples hpage hvalue
  generalize writePacket (List.replicate 50 0) info loud = sent at hsamples hpage ⊢
  intro packet value
  refine ⟨fun k hk => ?_, fun s i hi => ?_⟩
  · show _ = some (Receiver.Value.ratio _ _) ∧ _ = some (Receiver.Value.ratio _ _)
    rw [← hvalue k hk]
    exact (hsamples k hk).2
  · obtain ⟨hleft, hright, -⟩ := (hpage s).2 i hi
    rw [Nat.mul_comm, hvalue (2 * i) (by omega)] at hleft
    rw [Nat.mul_comm, hvalue (2 * i + 1) (by omega)] at hright
    exact ⟨hleft, hright⟩

end Samples
end Ppm.Wire

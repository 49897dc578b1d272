import PhonePostMix.Server.Handover
import PhonePostMix.WebSocket.ClientEncoding

/-! The text messages of the command line listener, and what the server hears of them: the listener
has two of the three length encodings, and a longer text is cut where the second one wraps. -/

namespace Ppm.Listen
open ByteOrder Streaming WebSocket Server

def bufferFrom (numbers : List ℕ) : List UInt8 :=
  -- `Buffer.from` keeps the low byte of each number
  numbers.map Nat.toUInt8

def sendText (mask payload : List UInt8) : List UInt8 :=
  -- `mask` is the listener's four random bytes
  let header :=
    if payload.length < 126 then bufferFrom [0x81, 0x80 ||| payload.length]
    else bufferFrom [0x81, 0x80 ||| 126] ++ bufferFrom [payload.length >>> 8, payload.length &&& 0xff]
  let masked := payload.mapIdx fun i b => b ^^^ mask.getD (i % 4) 0
  header ++ mask ++ masked

theorem header_spec (n : ℕ) : ∃ b1 ext,
    (if n < 126 then bufferFrom [0x81, 0x80 ||| n]
      else bufferFrom [0x81, 0x80 ||| 126] ++ bufferFrom [n >>> 8, n &&& 0xff]) =
        0x81 :: b1 :: ext ∧ b1 &&& 0x80 ≠ 0 ∧
      ∀ more, payloadLength (b1 &&& 0x7f) (ext ++ more) = some (n % 65536, ext.length) := by
  split_ifs with hsmall
  · have hbytes : ∀ m < 126, (0x80 ||| m).toUInt8 = 0x80 ||| m.toUInt8 := by decide
    have hbyte := hbytes n hsmall
    have hn : n.toUInt8.toNat = n := by
      rw [Nat.toUInt8, UInt8.toNat_ofNat', Nat.mod_eq_of_lt (by omega)]
    obtain ⟨hlow, hmask⟩ := lengthByte n.toUInt8 (by rw [UInt8.lt_iff_toNat_lt, hn]; simp; omega)
    refine ⟨(0x80 ||| n).toUInt8, [], rfl, hbyte ▸ hmask, fun more => ?_⟩
    have hne (b : UInt8) (hb : 126 ≤ b.toNat) : n.toUInt8 ≠ b := by
      rintro rfl
      omega
    rw [hbyte, hlow, payloadLength, if_neg (hne _ (by decide)), if_neg (hne _ (by decide)), hn,
      Nat.mod_eq_of_lt (by omega)]
    rfl
  · refine ⟨0xfe, [(n >>> 8).toUInt8, (n &&& 0xff).toUInt8], rfl, by decide, fun more => ?_⟩
    have hhigh : (n >>> 8).toUInt8 = byteAt n 8 := by
      apply UInt8.toNat_inj.mp
      rw [toNat_byteAt, Nat.toUInt8, UInt8.toNat_ofNat', Nat.shiftRight_eq_div_pow]
    have hvalue : bigEndian [(n >>> 8).toUInt8, (n &&& 0xff).toUInt8] = n % 65536 := by
      rw [hhigh]
      exact bigEndian_bigEndianBytes 2 n
    rw [show (0xfe : UInt8) &&& 0x7f = 126 by decide, payloadLength, if_pos rfl, if_neg (by simp)]
    have htake : ([(n >>> 8).toUInt8, (n &&& 0xff).toUInt8] ++ more).take 2 =
        [(n >>> 8).toUInt8, (n &&& 0xff).toUInt8] := List.take_left' rfl
    rw [htake, hvalue]
    rfl

theorem take_unmask (mask body : List UInt8) (n : ℕ) :
    (unmask mask body).take n = unmask mask (body.take n) := by
  apply List.ext_getElem (by simp [unmask])
  intro i h1 h2
  simp only [unmask, List.getElem_take, List.getElem_mapIdx]

theorem readFrame_sendText {max : ℕ} (part : Part) (hmax : 65535 ≤ max) (more : List UInt8) :
    ∃ size, WebSocket.readFrame max (sendText part.mask part.payload ++ more) =
        .frame ⟨.text, true, part.payload.take (part.payload.length % 65536)⟩ size ∧
      (sendText part.mask part.payload ++ more).drop size =
        (unmask part.mask part.payload).drop (part.payload.length % 65536) ++ more := by
  obtain ⟨b1, ext, hheader, hmask, hpayload⟩ := header_spec part.payload.length
  have hm := part.mask_length
  have hext := (payloadLength_le (hpayload [])).1
  have hsent : sendText part.mask part.payload =
      0x81 :: b1 :: (ext ++ (part.mask ++ unmask part.mask part.payload)) := by
    simp only [sendText, hheader, unmask, List.cons_append, List.append_assoc]
  have hlt : part.payload.length % 65536 < 65536 := Nat.mod_lt _ (by decide)
  have hle : part.payload.length % 65536 ≤ part.payload.length := Nat.mod_le _ _
  have hu := length_unmask part.mask part.payload
  generalize part.payload.length % 65536 = n at hpayload hlt hle ⊢
  have hmaskAt : (0x81 :: b1 :: (ext ++ (part.mask ++ (unmask part.mask part.payload ++ more)))).drop
      (2 + ext.length) = part.mask ++ (unmask part.mask part.payload ++ more) := by
    have hhead : (0x81 :: b1 :: ext).length = 2 + ext.length := by simp only [List.length_cons]; omega
    exact List.drop_left' hhead
  have hbodyAt : (0x81 :: b1 :: (ext ++ (part.mask ++ (unmask part.mask part.payload ++ more)))).drop
      (2 + ext.length + 4) = unmask part.mask part.payload ++ more := by
    rw [← List.drop_drop, hmaskAt, List.drop_left' hm]
  refine ⟨2 + ext.length + 4 + n, ?_, ?_⟩
  · rw [hsent]
    simp only [List.cons_append, List.append_assoc, WebSocket.readFrame, hpayload]
    rw [if_neg hmask, if_neg (by omega), if_neg, if_neg (by simp only [maxVectorSize]; omega),
      hmaskAt, hbodyAt, List.take_left' hm, List.take_append_of_le_length (by omega), take_unmask,
      unmask_unmask]
    · rfl
    · rw [frameSize_lt hext (by simp only [maxVectorSize]; omega)]
      simp only [List.length_cons, List.length_append]
      omega
  · rw [hsent]
    simp only [List.cons_append, List.append_assoc]
    rw [← List.drop_drop, hbodyAt, List.drop_append_of_le_length (by omega)]

theorem drain_sendText {max : ℕ} (r : Reassembly) (part : Part) (hmax : 65535 ≤ max)
    (more : List UInt8) :
    ((WebSocket.frameDecoder max).drainLive r (sendText part.mask part.payload ++ more)).1 =
      ⟨.text, true, part.payload.take (part.payload.length % 65536)⟩ ::
        ((WebSocket.frameDecoder max).drainLive r
          ((unmask part.mask part.payload).drop (part.payload.length % 65536) ++ more)).1 := by
  obtain ⟨size, hread, hrest⟩ := readFrame_sendText part hmax more
  have hattempt : (WebSocket.frameDecoder max).attempt r (sendText part.mask part.payload ++ more) =
      .take ((unmask part.mask part.payload).drop (part.payload.length % 65536) ++ more) r
        (some ⟨.text, true, part.payload.take (part.payload.length % 65536)⟩) := by
    change attempt max r _ = _
    have haccept : r.accept max _ = _ := accept_opening .text r true
      (part.payload.take (part.payload.length % 65536))
    rw [if_pos rfl] at haccept
    simp only [attempt, hread]
    rw [← hrest]
    simp only [DataKind.opcode] at haccept
    rw [haccept]
  rw [Decoder.drainLive_take hattempt]
  rfl

def sendTexts (parts : List Part) : List UInt8 :=
  parts.flatMap fun part => sendText part.mask part.payload

theorem texts_heard (parts : List Part) (r : Reassembly) :
    texts (untilClose ((WebSocket.frameDecoder 1048576).drainLive r (sendTexts parts)).1) =
        parts.map (·.payload) ↔
      ∀ part ∈ parts, part.payload.length < 65536 := by
  induction parts with
  | nil =>
    have hwait : (WebSocket.frameDecoder 1048576).drainLive r [] = ([], .live r []) :=
      Decoder.drainLive_wait rfl
    simp [sendTexts, hwait, untilClose, texts]
  | cons part parts ih =>
    have hnot : Opcode.text ≠ .close := by decide
    rw [sendTexts, List.flatMap_cons, drain_sendText r part (by decide), untilClose, if_neg hnot,
      ← sendTexts, List.map_cons, List.forall_mem_cons]
    have htexts (frame : Frame) (frames : List Frame) (htext : frame.opcode = .text) :
        texts (frame :: frames) = frame.payload :: texts frames := by
      simp [texts, htext]
    rw [htexts _ _ rfl, List.cons.injEq]
    by_cases hshort : part.payload.length < 65536
    · have hrest : (unmask part.mask part.payload).drop part.payload.length = [] := by
        rw [← length_unmask part.mask part.payload, List.drop_length]
      rw [Nat.mod_eq_of_lt hshort, hrest, List.nil_append, List.take_length, ih]
      simp [hshort]
    · refine iff_of_false ?_ fun h => hshort h.1
      rintro ⟨hcut, -⟩
      have hlength := congrArg List.length hcut
      rw [List.length_take] at hlength
      have hmod := Nat.mod_lt part.payload.length (show 0 < 65536 by decide)
      omega

/-- The server hears exactly the texts sent, in order, if each of them has less than 65536
bytes; a longer one reaches it cut. -/
theorem sendTexts_heard_iff (parts : List Part) :
    texts (heard (sendTexts parts)) = parts.map (·.payload) ↔
      ∀ part ∈ parts, part.payload.length < 65536 := by
  obtain ⟨hframes, -⟩ := ((FrameParser.new_follows 1048576).push (sendTexts parts)).drain
  rw [FrameParser.push_maxPayloadSize] at hframes
  change _ = ((WebSocket.frameDecoder 1048576).drainLive {} (sendTexts parts)).1 at hframes
  rw [heard, hframes]
  exact texts_heard parts {}

end Ppm.Listen

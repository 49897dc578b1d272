import PhonePostMix.WebSocket.ParserDecoder

/-! What a conforming client puts on the wire, and that the parser gives it back. -/

namespace Ppm.WebSocket
open Streaming ByteOrder

structure Part where
  mask : List UInt8
  payload : List UInt8
  mask_length : mask.length = 4
  payload_lt : payload.length < 2 ^ 63

def clientLength (payloadSize : Nat) : List UInt8 :=
  -- the second byte and the extended length of a masked frame, in the shortest encoding
  if payloadSize < 126 then [0x80 ||| payloadSize.toUInt8]
  else if payloadSize ≤ 0xffff then (0x80 ||| 126) :: bigEndianBytes 2 payloadSize
  else (0x80 ||| 127) :: bigEndianBytes 8 payloadSize

def clientFrame (opcode : Opcode) (fin : Bool) (part : Part) : List UInt8 :=
  ((if fin then 0x80 else 0x00) ||| opcode.code) :: clientLength part.payload.length ++
    part.mask ++ unmask part.mask part.payload

inductive ControlKind where
  | close
  | ping
  | pong
  deriving DecidableEq

def ControlKind.opcode : ControlKind → Opcode
  | .close => .close
  | .ping => .ping
  | .pong => .pong

structure Control where
  kind : ControlKind
  part : Part
  payload_le : part.payload.length ≤ 125

inductive DataKind where
  | text
  | binary
  deriving DecidableEq

def DataKind.opcode : DataKind → Opcode
  | .text => .text
  | .binary => .binary

structure Message where
  kind : DataKind
  first : Part
  rest : List (List Control × Part)

inductive Item where
  | control (c : Control)
  | message (m : Message)

def Control.wire (c : Control) : List UInt8 := clientFrame c.kind.opcode true c.part

def Control.frame (c : Control) : Frame := ⟨c.kind.opcode, true, c.part.payload⟩

def continuations : List (List Control × Part) → List UInt8
  | [] => []
  | (controls, part) :: rest =>
    controls.flatMap Control.wire ++ clientFrame .continuation rest.isEmpty part ++
      continuations rest

namespace Message

def payload (m : Message) : List UInt8 := m.first.payload ++ m.rest.flatMap (·.2.payload)

def controls (m : Message) : List Control := m.rest.flatMap (·.1)

def wire (m : Message) : List UInt8 :=
  clientFrame m.kind.opcode m.rest.isEmpty m.first ++ continuations m.rest

def frames (m : Message) : List Frame :=
  m.controls.map Control.frame ++ [⟨m.kind.opcode, true, m.payload⟩]

end Message

namespace Item

def wire : Item → List UInt8
  | .control c => c.wire
  | .message m => m.wire

def frames : Item → List Frame
  | .control c => [c.frame]
  | .message m => m.frames

/-- No message and no control frame carries more than the parser admits. -/
def Fits (max : Nat) : Item → Prop
  | .control c => c.part.payload.length ≤ max
  | .message m => m.payload.length ≤ max ∧ ∀ c ∈ m.controls, c.part.payload.length ≤ max

instance (max : Nat) (i : Item) : Decidable (i.Fits max) := by
  cases i <;> unfold Fits <;> infer_instance

end Item

theorem unmask_unmask (mask body : List UInt8) : unmask mask (unmask mask body) = body := by
  apply List.ext_getElem (by simp [unmask])
  intro i h1 h2
  simp only [unmask, List.getElem_mapIdx, UInt8.xor_assoc, UInt8.xor_self, UInt8.xor_zero]

theorem length_unmask (mask body : List UInt8) : (unmask mask body).length = body.length := by
  simp [unmask]

theorem lengthByte (b : UInt8) :
    b < 128 → (0x80 ||| b) &&& 0x7f = b ∧ (0x80 ||| b) &&& 0x80 ≠ 0 := by
  obtain ⟨b⟩ := b
  revert b
  decide +kernel

theorem opcodeByte (c : UInt8) (fin : Bool) : c < 16 →
    ((if fin then (0x80 : UInt8) else 0x00) ||| c) &&& 0x0f = c ∧
      (((if fin then (0x80 : UInt8) else 0x00) ||| c) &&& 0x80 != 0) = fin := by
  obtain ⟨c⟩ := c
  revert c fin
  decide +kernel

theorem clientLength_spec {n : Nat} (hn : n < 2 ^ 63) :
    ∃ b1 ext, clientLength n = b1 :: ext ∧ b1 &&& 0x80 ≠ 0 ∧
      ∀ more, payloadLength (b1 &&& 0x7f) (ext ++ more) = some (n, ext.length) := by
  unfold clientLength
  split_ifs with h7 h16
  · have hsmall : n.toUInt8.toNat = n := by simp; omega
    obtain ⟨hlow, hmask⟩ :=
      lengthByte n.toUInt8 (by rw [UInt8.lt_iff_toNat_lt, hsmall]; simp; omega)
    refine ⟨_, [], rfl, hmask, fun more => ?_⟩
    rw [hlow, payloadLength, if_neg, if_neg, hsmall]
    · rfl
    all_goals
      intro h
      rw [h] at hsmall
      simp at hsmall
      omega
  · refine ⟨_, _, rfl, by decide, fun more => ?_⟩
    rw [show ((0x80 ||| 126 : UInt8) &&& 0x7f) = 126 by decide, payloadLength, if_pos rfl,
      if_neg (by simp only [List.length_append, length_bigEndianBytes]; omega),
      List.take_left' (length_bigEndianBytes 2 n), bigEndian_bigEndianBytes,
      length_bigEndianBytes, Nat.mod_eq_of_lt (by omega)]
  · refine ⟨_, _, rfl, by decide, fun more => ?_⟩
    rw [show ((0x80 ||| 127 : UInt8) &&& 0x7f) = 127 by decide, payloadLength, if_neg (by decide),
      if_pos rfl, if_neg (by simp only [List.length_append, length_bigEndianBytes]; omega),
      List.take_left' (length_bigEndianBytes 8 n),
      bigEndian_bigEndianBytes, length_bigEndianBytes, Nat.mod_eq_of_lt (by omega)]

theorem readFrame_clientFrame {max : Nat} {opcode : Opcode} (hop : opcode.code < 16) (fin : Bool)
    {part : Part} (hmax : part.payload.length ≤ max) (more : List UInt8) :
    readFrame max (clientFrame opcode fin part ++ more) =
      .frame ⟨opcode, fin, part.payload⟩ (clientFrame opcode fin part).length := by
  obtain ⟨b1, ext, hlen, hmask, hpayload⟩ := clientLength_spec part.payload_lt
  obtain ⟨hcode, hfin⟩ := opcodeByte opcode.code fin hop
  have hext := (payloadLength_le (hpayload [])).1
  have hlt := part.payload_lt
  have hm := part.mask_length
  have hu := length_unmask part.mask part.payload
  generalize hb0 : ((if fin then (0x80 : UInt8) else 0x00) ||| opcode.code) = b0 at hcode hfin
  have hframe : clientFrame opcode fin part =
      b0 :: b1 :: ext ++ (part.mask ++ unmask part.mask part.payload) := by
    simp only [clientFrame, hb0, hlen, List.append_assoc, List.cons_append]
  have hlength :
      (clientFrame opcode fin part).length = 2 + ext.length + 4 + part.payload.length := by
    rw [hframe]
    simp only [List.length_append, List.length_cons]
    omega
  have hdrop : (b0 :: b1 :: (ext ++ (part.mask ++ unmask part.mask part.payload ++ more))).drop
      (2 + ext.length) = part.mask ++ (unmask part.mask part.payload ++ more) := by
    rw [List.append_assoc]
    have hhead : (b0 :: b1 :: ext).length = 2 + ext.length := by simp only [List.length_cons]; omega
    exact List.drop_left' hhead
  have hbody : (b0 :: b1 :: (ext ++ (part.mask ++ unmask part.mask part.payload ++ more))).drop
      (2 + ext.length + 4) = unmask part.mask part.payload ++ more := by
    rw [← List.drop_drop, hdrop, List.drop_left' hm]
  rw [hlength, hframe, List.append_assoc]
  simp only [List.cons_append, readFrame, hpayload]
  rw [if_neg hmask, if_neg (by omega), if_neg, if_neg (by simp only [maxVectorSize]; omega),
    hdrop, hbody, List.take_left' hm, List.take_left' hu, hcode, hfin, unmask_unmask]
  rw [frameSize_lt hext (by simp only [maxVectorSize]; omega)]
  simp only [List.length_cons, List.length_append]
  omega

section Drain
variable {max : Nat}

theorem drain_clientFrame {opcode : Opcode} (hop : opcode.code < 16) (fin : Bool) {part : Part}
    (hmax : part.payload.length ≤ max) {r r' : Reassembly} {m : Option Frame}
    (hacc : r.accept max ⟨opcode, fin, part.payload⟩ = (.ok m, r')) (more : List UInt8) :
    (frameDecoder max).drainLive r (clientFrame opcode fin part ++ more) =
      (m.toList ++ ((frameDecoder max).drainLive r' more).1,
        ((frameDecoder max).drainLive r' more).2) := by
  apply Decoder.drainLive_take
  change attempt max r _ = _
  simp only [attempt, readFrame_clientFrame hop fin hmax more, hacc, List.drop_left]

theorem ControlKind.opcode_spec (k : ControlKind) : k.opcode.code < 16 ∧ k.opcode.isControl := by
  cases k <;> decide

theorem DataKind.opcode_spec (k : DataKind) :
    k.opcode.code < 16 ∧ k.opcode.isControl = false ∧ k.opcode ≠ .continuation := by
  cases k <;> decide

theorem drain_control (r : Reassembly) {c : Control} (hc : c.part.payload.length ≤ max)
    (more : List UInt8) :
    (frameDecoder max).drainLive r (c.wire ++ more) =
      (c.frame :: ((frameDecoder max).drainLive r more).1,
        ((frameDecoder max).drainLive r more).2) :=
  drain_clientFrame c.kind.opcode_spec.1 true hc
    (by rw [Reassembly.accept, if_pos c.kind.opcode_spec.2]) more

theorem drain_controls (r : Reassembly) {cs : List Control}
    (hcs : ∀ c ∈ cs, c.part.payload.length ≤ max) (more : List UInt8) :
    (frameDecoder max).drainLive r (cs.flatMap Control.wire ++ more) =
      (cs.map Control.frame ++ ((frameDecoder max).drainLive r more).1,
        ((frameDecoder max).drainLive r more).2) := by
  induction cs with
  | nil => rfl
  | cons c cs ih =>
    rw [List.flatMap_cons, List.append_assoc, drain_control r (hcs c (by simp)),
      ih fun d hd => hcs d (by simp [hd])]
    rfl

theorem accept_continuation (op : Opcode) {acc payload : List UInt8}
    (hmax : acc.length + payload.length ≤ max) (fin : Bool) :
    Reassembly.accept max ⟨true, op, acc⟩ ⟨.continuation, fin, payload⟩ =
      if fin then (.ok (some ⟨op, true, acc ++ payload⟩), ⟨false, op, []⟩)
      else (.ok none, ⟨true, op, acc ++ payload⟩) := by
  have hdata : Opcode.continuation.isControl = false := by decide
  rw [Reassembly.accept, if_neg (by simp [hdata]), if_pos rfl]
  cases fin <;> simp [hmax]

theorem drain_continuations {op : Opcode} {rest : List (List Control × Part)} (hrest : rest ≠ [])
    {acc : List UInt8}
    (hmax : acc.length + (rest.flatMap (·.2.payload)).length ≤ max)
    (hcs : ∀ c ∈ rest.flatMap (·.1), c.part.payload.length ≤ max) (more : List UInt8) :
    (frameDecoder max).drainLive ⟨true, op, acc⟩ (continuations rest ++ more) =
      ((rest.flatMap (·.1)).map Control.frame ++
          ⟨op, true, acc ++ rest.flatMap (·.2.payload)⟩ ::
            ((frameDecoder max).drainLive ⟨false, op, []⟩ more).1,
        ((frameDecoder max).drainLive ⟨false, op, []⟩ more).2) := by
  induction rest generalizing acc with
  | nil => exact absurd rfl hrest
  | cons head rest ih =>
    obtain ⟨cs, part⟩ := head
    simp only [List.flatMap_cons, List.length_append] at hmax
    simp only [List.flatMap_cons, List.mem_append] at hcs
    rw [continuations, List.append_assoc, List.append_assoc,
      drain_controls _ fun c hc => hcs c (Or.inl hc)]
    have hfits : acc.length + part.payload.length ≤ max := by omega
    have hacc := accept_continuation op hfits rest.isEmpty
    cases rest with
    | nil =>
      rw [drain_clientFrame (by decide) _ (by omega) hacc]
      simp [continuations]
    | cons next rest =>
      rw [drain_clientFrame (by decide) _ (by omega) hacc,
        ih (by simp) (by simp only [List.length_append]; omega) fun c hc => hcs c (Or.inr hc)]
      simp

theorem accept_opening (k : DataKind) (r : Reassembly) (fin : Bool) (payload : List UInt8) :
    r.accept max ⟨k.opcode, fin, payload⟩ =
      if fin then (.ok (some ⟨k.opcode, true, payload⟩), r)
      else (.ok none, ⟨true, k.opcode, payload⟩) := by
  obtain ⟨-, hcontrol, hcont⟩ := k.opcode_spec
  rw [Reassembly.accept, if_neg (by simp [hcontrol]), if_neg hcont]

theorem drain_message (r : Reassembly) {m : Message} (hm : (Item.message m).Fits max)
    (more : List UInt8) :
    ∃ r', (frameDecoder max).drainLive r (m.wire ++ more) =
      (m.frames ++ ((frameDecoder max).drainLive r' more).1,
        ((frameDecoder max).drainLive r' more).2) := by
  obtain ⟨kind, first, rest⟩ := m
  obtain ⟨hsize, hcs⟩ := hm
  simp only [Message.payload, List.length_append] at hsize
  have hacc : r.accept max ⟨kind.opcode, rest.isEmpty, first.payload⟩ = _ :=
    accept_opening kind r rest.isEmpty first.payload
  rw [Message.wire, List.append_assoc]
  cases rest with
  | nil =>
    refine ⟨r, ?_⟩
    rw [drain_clientFrame kind.opcode_spec.1 _ (by omega) hacc]
    simp [continuations, Message.frames, Message.controls, Message.payload]
  | cons next rest =>
    refine ⟨⟨false, kind.opcode, []⟩, ?_⟩
    rw [drain_clientFrame kind.opcode_spec.1 _ (by omega) hacc,
      drain_continuations (by simp) hsize hcs]
    simp [Message.frames, Message.controls, Message.payload]

theorem drain_item (r : Reassembly) {i : Item} (hi : i.Fits max) (more : List UInt8) :
    ∃ r', (frameDecoder max).drainLive r (i.wire ++ more) =
      (i.frames ++ ((frameDecoder max).drainLive r' more).1,
        ((frameDecoder max).drainLive r' more).2) := by
  cases i with
  | control c => exact ⟨r, drain_control r hi more⟩
  | message m => exact drain_message r hi more

theorem drain_items (r : Reassembly) {items : List Item} (h : ∀ i ∈ items, i.Fits max) :
    ∃ r', (frameDecoder max).drainLive r (items.flatMap Item.wire) =
      (items.flatMap Item.frames, .live r' []) := by
  induction items generalizing r with
  | nil => exact ⟨r, Decoder.drainLive_wait rfl⟩
  | cons i items ih =>
    obtain ⟨r₁, h₁⟩ := drain_item r (h i (by simp)) (items.flatMap Item.wire)
    obtain ⟨r₂, h₂⟩ := ih r₁ fun j hj => h j (by simp [hj])
    exact ⟨r₂, by rw [List.flatMap_cons, h₁, h₂, List.flatMap_cons]⟩

end Drain

/-- The parser returns what a conforming client sends: control frames as they arrive, data
messages whole when their last fragment does. -/
theorem decodes_client_stream (max : Nat) (items : List Item) (h : ∀ i ∈ items, i.Fits max) :
    let d := ((FrameParser.new max).push (items.flatMap Item.wire)).drain
    d.frames = items.flatMap Item.frames ∧ d.parser.hasError = false ∧ d.thrown = none := by
  obtain ⟨r, hdrain⟩ := drain_items {} h
  obtain ⟨hframes, hend⟩ := ((FrameParser.new_follows max).push (items.flatMap Item.wire)).drain
  rw [FrameParser.push_maxPayloadSize] at hframes hend
  change _ = ((frameDecoder max).drainLive {} (items.flatMap Item.wire)).1 at hframes
  change _ =
    FrameParser.outcome ((frameDecoder max).drainLive {} (items.flatMap Item.wire)).2 at hend
  rw [hdrain] at hframes hend
  exact ⟨hframes, congrArg Prod.snd hend, congrArg Prod.fst hend⟩

def fragmentedHello : List Item :=
  [.message ⟨.text, ⟨[0x37, 0xfa, 0x21, 0x3d], [0x48, 0x65, 0x6c], rfl, by decide⟩,
    [([⟨.ping, ⟨[1, 2, 3, 4], [0x70], rfl, by decide⟩, by decide⟩],
      ⟨[0, 0, 0, 0], [0x6c, 0x6f], rfl, by decide⟩)]⟩]

theorem decodes_fragmentedHello :
    (∀ i ∈ fragmentedHello, i.Fits 5) ∧
      let d := ((FrameParser.new 5).push (fragmentedHello.flatMap Item.wire)).drain
      d.frames = [⟨.ping, true, [0x70]⟩, ⟨.text, true, [0x48, 0x65, 0x6c, 0x6c, 0x6f]⟩] ∧
        d.parser.hasError = false ∧ d.thrown = none :=
  have fits : ∀ i ∈ fragmentedHello, i.Fits 5 := by decide
  ⟨fits, decodes_client_stream 5 fragmentedHello fits⟩

def twoBytePing : List Item :=
  [.control ⟨.ping, ⟨[1, 2, 3, 4], [0x70, 0x71], rfl, by decide⟩, by decide⟩]

/-- The payload limit applies to control frames too, so bounding the messages is not enough. -/
theorem control_over_limit_rejected :
    ¬ ∀ (max : Nat) (items : List Item),
      (∀ m, Item.message m ∈ items → m.payload.length ≤ max) →
        let d := ((FrameParser.new max).push (items.flatMap Item.wire)).drain
        d.frames = items.flatMap Item.frames ∧ d.parser.hasError = false := by
  intro h
  have hno : ∀ m, Item.message m ∈ twoBytePing → m.payload.length ≤ 1 := by simp [twoBytePing]
  have herror : ((FrameParser.new 1).push (twoBytePing.flatMap Item.wire)).drain.parser.hasError =
      true := by decide +kernel
  exact absurd (h 1 twoBytePing hno).2 (by rw [herror]; decide)

end Ppm.WebSocket

import PhonePostMix.Library.IncrementalDecoder
import PhonePostMix.Server.Connection

/-! How the command-line listener reads what the server writes: the handshake and then frames, in
whatever chunks they arrive. -/

namespace Ppm.Listen
open ByteOrder Http Server Streaming WebSocket

def number (n : ℕ) : ℕ :=
  -- `Number` of a BigInt: rounded to 53 significant bits, ties to even
  if n < 2 ^ 53 then n
  else
    let unit := 2 ^ (n.log2 - 52)
    let q := n / unit
    let r := n % unit
    (if 2 * r > unit ∨ 2 * r = unit ∧ q % 2 = 1 then q + 1 else q) * unit

def readLength (size7 : UInt8) (rest : List UInt8) : Option (ℕ × ℕ) :=
  if size7 = 126 then
    if rest.length < 2 then none else some (bigEndian (rest.take 2), 4)
  else if size7 = 127 then
    if rest.length < 8 then none else some (number (bigEndian (rest.take 8)), 10)
  else some (size7.toNat, 2)

def readFrame (buffer : List UInt8) : Option (UInt8 × List UInt8 × List UInt8) :=
  -- one pass of the loop: the opcode and the payload of the next frame, and what follows it
  match buffer with
  | b0 :: b1 :: rest =>
    match readLength (b1 &&& 0x7f) rest with
    | none => none
    | some (size, offset) =>
      if buffer.length < offset + size then none
      else some (b0 &&& 0x0f, (buffer.drop offset).take size, buffer.drop (offset + size))
  | _ => none

inductive Call (τ : Type) where
  | onOpen
  | onText (text : τ)
  | onBinary (payload : List UInt8)
  | onClose (reason : List Char)
  deriving DecidableEq, Repr

structure Connection (τ : Type) where
  buffer : List UInt8 := []
  upgraded : Bool := false
  destroyed : Bool := false
  calls : List (Call τ) := []
  deriving DecidableEq, Repr

theorem readLength_bounds {size7 : UInt8} {rest : List UInt8} {size offset : ℕ}
    (h : readLength size7 rest = some (size, offset)) : 2 ≤ offset ∧ offset ≤ 2 + rest.length := by
  unfold readLength at h
  split_ifs at h <;> simp only [Option.some.injEq, Prod.mk.injEq] at h <;> omega

theorem readFrame_shorter {buffer payload rest : List UInt8} {opcode : UInt8}
    (h : readFrame buffer = some (opcode, payload, rest)) : rest.length < buffer.length := by
  unfold readFrame at h
  split at h
  · rename_i b0 b1 more
    split at h
    · cases h
    · rename_i size offset hlength
      have hbounds := readLength_bounds hlength
      split_ifs at h with hlong
      simp only [Option.some.injEq, Prod.mk.injEq] at h
      obtain ⟨-, -, rfl⟩ := h
      simp only [List.length_drop, List.length_cons] at hlong ⊢
      omega
  · cases h

section Handler
variable {τ : Type} (utf8 : List UInt8 → τ) (accept : List UInt8)

def deliver (opcode : UInt8) (payload : List UInt8) : List (Call τ) :=
  if opcode = 0x1 then [.onText (utf8 payload)]
  else if opcode = 0x2 then [.onBinary payload]
  else []

def readFrames (buffer : List UInt8) : List (Call τ) × List UInt8 :=
  match _h : readFrame buffer with
  | none => ([], buffer)
  | some (opcode, payload, rest) =>
    if opcode = 0x8 then ([.onClose "server closed the stream".toList], rest)
    else
      let more := readFrames rest
      (deliver utf8 opcode payload ++ more.1, more.2)
termination_by buffer.length
decreasing_by exact readFrame_shorter ‹_›

def refusal (head : List UInt8) : List Char :=
  let status := head.take ((find (ascii "\r\n") head).getD head.length)
  "handshake refused: ".toList ++ (status.map fun b => Char.ofNat b.toNat) ++
    if (find (ascii "403") status).isSome then " — wrong or missing token".toList else []

def Connection.read (c : Connection τ) (buffer : List UInt8) : Connection τ :=
  { c with
    calls := c.calls ++ (readFrames utf8 buffer).1
    buffer := (readFrames utf8 buffer).2 }

def Connection.onData (c : Connection τ) (chunk : List UInt8) : Connection τ :=
  -- `socket.on('data')`. A destroyed socket raises no more of these events
  if c.destroyed then c
  else
    let buffer := c.buffer ++ chunk
    if c.upgraded then c.read utf8 buffer
    else
      match find headEndMark buffer with
      | none => { c with buffer }
      | some headEnd =>
        let head := buffer.take headEnd
        let buffer := buffer.drop (headEnd + 4)
        if !(ascii "HTTP/1.1 101 ").isPrefixOf head then
          { c with buffer, destroyed := true, calls := c.calls ++ [.onClose (refusal head)] }
        else if (find (ascii "Sec-WebSocket-Accept: " ++ accept) head).isNone then
          { c with
            buffer
            destroyed := true
            calls := c.calls ++ [.onClose "handshake accept key mismatch".toList] }
        else
          let c : Connection τ := { c with upgraded := true, calls := c.calls ++ [.onOpen] }
          c.read utf8 buffer

def Connection.run (c : Connection τ) (chunks : List (List UInt8)) : Connection τ :=
  Runs.run (Connection.onData utf8 accept) c chunks

end Handler

def upgradeHead (accept : List UInt8) : List UInt8 :=
  makeResponseHead 101 (ascii "Switching Protocols") [] (-1)
    [ascii "Upgrade: websocket", ascii "Connection: Upgrade",
     ascii "Sec-WebSocket-Accept: " ++ accept]

theorem readLength_append {size7 : UInt8} {rest : List UInt8} {x : ℕ × ℕ}
    (h : readLength size7 rest = some x) (more : List UInt8) :
    readLength size7 (rest ++ more) = some x := by
  unfold readLength at h ⊢
  by_cases h126 : size7 = 126
  · rw [if_pos h126] at h ⊢
    split_ifs at h with hshort
    rw [if_neg (by rw [List.length_append]; omega), List.take_append_of_le_length (by omega)]
    exact h
  · rw [if_neg h126] at h ⊢
    by_cases h127 : size7 = 127
    · rw [if_pos h127] at h ⊢
      split_ifs at h with hshort
      rw [if_neg (by rw [List.length_append]; omega), List.take_append_of_le_length (by omega)]
      exact h
    · rw [if_neg h127] at h ⊢
      exact h

theorem readFrame_append {buffer payload rest : List UInt8} {opcode : UInt8}
    (h : readFrame buffer = some (opcode, payload, rest)) (more : List UInt8) :
    readFrame (buffer ++ more) = some (opcode, payload, rest ++ more) := by
  unfold readFrame at h ⊢
  split at h
  · rename_i b0 b1 tail
    split at h
    · cases h
    · rename_i size offset hlength
      have hbounds := readLength_bounds hlength
      split_ifs at h with hlong
      simp only [Option.some.injEq, Prod.mk.injEq] at h
      obtain ⟨rfl, rfl, rfl⟩ := h
      simp only [List.cons_append, readLength_append hlength more]
      have hfits : offset + size ≤ (b0 :: b1 :: tail).length := Nat.not_lt.mp hlong
      have hcons : b0 :: b1 :: (tail ++ more) = (b0 :: b1 :: tail) ++ more := rfl
      rw [hcons, if_neg (by rw [List.length_append]; omega),
        List.drop_append_of_le_length (by omega), List.drop_append_of_le_length hfits,
        List.take_append_of_le_length (by rw [List.length_drop]; omega)]
  · cases h

def frameDecoder : Decoder UInt8 Unit (UInt8 × List UInt8) Empty where
  attempt _ buffer :=
    match readFrame buffer with
    | none => .wait
    | some (opcode, payload, rest) => .take rest () (some (opcode, payload))
  take_shorter {s b rest s' i} h := by
    split at h
    · cases h
    · rename_i opcode payload left hframe
      cases h
      exact readFrame_shorter hframe
  take_append {s b rest s' i} h c := by
    split at h
    · cases h
    · rename_i opcode payload left hframe
      cases h
      rw [readFrame_append hframe c]
  fail_append {s b e} h := e.elim

theorem frameDecoder_take {buffer payload rest : List UInt8} {opcode : UInt8}
    (h : readFrame buffer = some (opcode, payload, rest)) :
    frameDecoder.drainLive () buffer =
      ((opcode, payload) :: (frameDecoder.drainLive () rest).1,
        (frameDecoder.drainLive () rest).2) :=
  Decoder.drainLive_take (i := some (opcode, payload)) (show frameDecoder.attempt () buffer = _ by
    simp only [frameDecoder, h])

theorem frameDecoder_wait {buffer : List UInt8} (h : readFrame buffer = none) :
    frameDecoder.drainLive () buffer = ([], .live () buffer) :=
  Decoder.drainLive_wait (show frameDecoder.attempt () buffer = _ by simp only [frameDecoder, h])

theorem readFrames_drain {τ : Type} (utf8 : List UInt8 → τ) (buffer : List UInt8)
    (h : ∀ f ∈ (frameDecoder.drainLive () buffer).1, f.1 ≠ 0x8) :
    (readFrames utf8 buffer).1 =
        (frameDecoder.drainLive () buffer).1.flatMap (fun f => deliver utf8 f.1 f.2) ∧
      (frameDecoder.drainLive () buffer).2 = .live () (readFrames utf8 buffer).2 := by
  fun_induction readFrames utf8 buffer with
  | case1 buffer hframe =>
    rw [frameDecoder_wait hframe]
    exact ⟨rfl, rfl⟩
  | case2 buffer payload rest hframe =>
    rw [frameDecoder_take hframe] at h
    exact absurd rfl (h _ List.mem_cons_self)
  | case3 buffer opcode payload rest hframe hopcode more ih =>
    rw [frameDecoder_take hframe] at h ⊢
    obtain ⟨hcalls, hleft⟩ := ih fun f hf => h f (List.mem_cons_of_mem _ hf)
    exact ⟨congrArg (deliver utf8 opcode payload ++ ·) hcalls, hleft⟩

theorem lengthByte_plain (b : UInt8) : b < 128 → b &&& 0x80 = 0 ∧ b &&& 0x7f = b := by
  obtain ⟨b⟩ := b
  revert b
  decide +kernel

theorem finByte (c : UInt8) :
    (0x80 ||| c) &&& 0x80 = 0x80 ∧ (c < 16 → (0x80 ||| c) &&& 0x0f = c) := by
  obtain ⟨c⟩ := c
  revert c
  decide +kernel

inductive LengthField (n : ℕ) : List UInt8 → Prop
  | short (hsize : n ≤ 125) : LengthField n [n.toUInt8]
  | medium (bytes : List UInt8) (hlength : bytes.length = 2) (hsize : bigEndian bytes = n) :
      LengthField n (126 :: bytes)
  | long (bytes : List UInt8) (hlength : bytes.length = 8) (hsize : bigEndian bytes = n) :
      LengthField n (127 :: bytes)

theorem bigEndian_lt (bytes : List UInt8) : bigEndian bytes < 256 ^ bytes.length := by
  induction bytes with
  | nil => simp [bigEndian]
  | cons b bytes ih =>
    have hb : b.toNat * 256 ^ bytes.length ≤ 255 * 256 ^ bytes.length :=
      Nat.mul_le_mul_right _ (Nat.le_of_lt_succ b.toNat_lt)
    rw [bigEndian_cons, List.length_cons, pow_succ]
    omega

theorem LengthField.length_ge {n : ℕ} {field : List UInt8} (h : LengthField n field) :
    1 ≤ field.length ∧ (126 ≤ n → 3 ≤ field.length) ∧ (0xffff < n → 9 ≤ field.length) := by
  cases h with
  | short hsize => exact ⟨by simp, by omega, by omega⟩
  | medium bytes hlength hsize =>
    have hlt := bigEndian_lt bytes
    rw [hlength, hsize] at hlt
    simp only [List.length_cons, hlength]
    omega
  | long bytes hlength hsize =>
    simp only [List.length_cons, hlength]
    omega

theorem frameHeader_field (opcode : Opcode) {n : ℕ} (hn : n < 2 ^ 64) :
    ∃ b1 extended, frameHeader opcode n = (0x80 ||| opcode.code) :: b1 :: extended ∧
      b1 &&& 0x80 = 0 ∧ LengthField n (b1 :: extended) ∧
      (∀ field, LengthField n field → (b1 :: extended).length ≤ field.length) ∧
      (n < 2 ^ 53 → ∀ more,
        readLength (b1 &&& 0x7f) (extended ++ more) = some (n, 2 + extended.length)) := by
  unfold frameHeader
  split_ifs with h7 h16
  · have hsmall : n.toUInt8.toNat = n := by
      rw [Nat.toUInt8, UInt8.toNat_ofNat']
      exact Nat.mod_eq_of_lt (by omega)
    have hbyte : n.toUInt8 < 128 := by
      rw [UInt8.lt_iff_toNat_lt, hsmall]
      exact Nat.lt_trans h7 (by decide)
    obtain ⟨hmask, hlow⟩ := lengthByte_plain n.toUInt8 hbyte
    refine ⟨_, [], rfl, hmask, .short (by omega), fun field hfield => hfield.length_ge.1, ?_⟩
    intro _ more
    rw [hlow, readLength, if_neg, if_neg, hsmall]
    · rfl
    all_goals
      intro hsame
      rw [hsame] at hsmall
      simp at hsmall
      omega
  · have hmedium : [byteAt n 8, byteAt n 0] = bigEndianBytes 2 n := rfl
    have hsize : bigEndian (bigEndianBytes 2 n) = n := by
      rw [bigEndian_bigEndianBytes, Nat.mod_eq_of_lt (by omega)]
    rw [hmedium]
    refine ⟨_, _, rfl, by decide, .medium _ (length_bigEndianBytes 2 n) hsize,
      fun field hfield => ?_, fun _ more => ?_⟩
    · rw [List.length_cons, length_bigEndianBytes]
      exact hfield.length_ge.2.1 (by omega)
    · rw [show ((126 : UInt8) &&& 0x7f) = 126 by decide, readLength, if_pos rfl,
        if_neg (by simp only [List.length_append, length_bigEndianBytes]; omega),
        List.take_left' (length_bigEndianBytes 2 n), hsize, length_bigEndianBytes]
  · have hlong : [56, 48, 40, 32, 24, 16, 8, 0].map (byteAt n) = bigEndianBytes 8 n := rfl
    have hsize : bigEndian (bigEndianBytes 8 n) = n := by
      rw [bigEndian_bigEndianBytes, Nat.mod_eq_of_lt (by omega)]
    rw [hlong]
    refine ⟨_, _, rfl, by decide, .long _ (length_bigEndianBytes 8 n) hsize,
      fun field hfield => ?_, fun hexact more => ?_⟩
    · rw [List.length_cons, length_bigEndianBytes]
      exact hfield.length_ge.2.2 (by omega)
    · rw [show ((127 : UInt8) &&& 0x7f) = 127 by decide, readLength, if_neg (by decide),
        if_pos rfl, if_neg (by simp only [List.length_append, length_bigEndianBytes]; omega),
        List.take_left' (length_bigEndianBytes 8 n), hsize, number, if_pos hexact,
        length_bigEndianBytes]

theorem readFrame_writeFrame {opcode : Opcode} (hop : opcode.code < 16) {payload : List UInt8}
    (hsize : payload.length < 2 ^ 53) (more : List UInt8) :
    readFrame (writeFrame [] opcode payload ++ more) = some (opcode.code, payload, more) := by
  obtain ⟨b1, extended, hheader, -, -, -, hread⟩ :=
    frameHeader_field opcode (Nat.lt_trans hsize (by decide))
  have hcode : (0x80 ||| opcode.code) &&& 0x0f = opcode.code := (finByte opcode.code).2 hop
  have hframe : writeFrame [] opcode payload ++ more =
      ((0x80 ||| opcode.code) :: b1 :: extended) ++ (payload ++ more) := by
    rw [writeFrame, hheader, List.nil_append, List.append_assoc]
  have hoffset : ((0x80 ||| opcode.code) :: b1 :: extended).length = 2 + extended.length := by
    simp only [List.length_cons]
    omega
  rw [hframe]
  simp only [List.cons_append, readFrame, hread hsize, hcode]
  rw [if_neg]
  · have hdrop : ((0x80 ||| opcode.code) :: b1 :: (extended ++ (payload ++ more))).drop
        (2 + extended.length) = payload ++ more := List.drop_left' hoffset
    rw [hdrop, ← List.drop_drop, hdrop, List.take_left, List.drop_left]
  · simp only [List.length_cons, List.length_append]
    omega

/-- Text, binary or pong, with a size a `Number` can hold. -/
def Readable (frame : Opcode × List UInt8) : Prop :=
  (frame.1 = .text ∨ frame.1 = .binary ∨ frame.1 = .pong) ∧ frame.2.length < 2 ^ 53

instance (frame : Opcode × List UInt8) : Decidable (Readable frame) :=
  inferInstanceAs (Decidable (_ ∧ _))

def framesWritten (frames : List (Opcode × List UInt8)) : List UInt8 :=
  frames.flatMap fun f => writeFrame [] f.1 f.2

theorem drain_framesWritten {frames : List (Opcode × List UInt8)} (h : ∀ f ∈ frames, Readable f) :
    frameDecoder.drainLive () (framesWritten frames) =
      (frames.map fun f => (f.1.code, f.2), .live () []) := by
  induction frames with
  | nil => exact frameDecoder_wait rfl
  | cons f frames ih =>
    obtain ⟨hop, hsize⟩ := h f List.mem_cons_self
    have hcode : f.1.code < 16 := by
      rcases hop with hop | hop | hop <;>
        rw [hop] <;> decide
    have hfirst : readFrame (framesWritten (f :: frames)) =
        some (f.1.code, f.2, framesWritten frames) := readFrame_writeFrame hcode hsize _
    rw [frameDecoder_take hfirst, ih fun g hg => h g (List.mem_cons_of_mem f hg)]
    rfl

def upgradeLines (accept : List UInt8) : List (List UInt8) :=
  [ascii "HTTP/1.1 101 Switching Protocols", ascii "Upgrade: websocket",
   ascii "Connection: Upgrade", ascii "Sec-WebSocket-Accept: " ++ accept]

theorem upgradeHead_lines (accept : List UInt8) :
    upgradeHead accept = headLines (upgradeLines accept) ++ [0x0d, 0x0a] := by
  have hcrlf : ascii "\r\n" = [0x0d, 0x0a] := by decide
  have hstatus : ascii "HTTP/1.1 " ++ ascii (toString 101) ++ ascii " " ++
      ascii "Switching Protocols" = ascii "HTTP/1.1 101 Switching Protocols" := by decide
  rw [upgradeHead, makeResponseHead, hstatus, if_pos rfl, if_pos (by decide)]
  simp [headLines, upgradeLines, hcrlf]

def upgradeBody (accept : List UInt8) : List UInt8 :=
  headLines (upgradeLines accept).dropLast ++ (ascii "Sec-WebSocket-Accept: " ++ accept)

theorem upgradeHead_body (accept : List UInt8) :
    upgradeHead accept = upgradeBody accept ++ headEndMark := by
  have hmark : headEndMark = [0x0d, 0x0a, 0x0d, 0x0a] := by decide
  rw [upgradeHead_lines, hmark]
  simp [headLines, upgradeLines, upgradeBody]

theorem find_upgradeHead {accept : List UInt8} (haccept : 0x0d ∉ accept) (more : List UInt8) :
    find headEndMark (upgradeHead accept ++ more) = some (upgradeBody accept).length := by
  have hlines : ∀ l ∈ upgradeLines accept, l ≠ [] ∧ 0x0d ∉ l := by
    have hlast : ascii "Sec-WebSocket-Accept: " ++ accept ≠ [] ∧
        0x0d ∉ ascii "Sec-WebSocket-Accept: " ++ accept :=
      ⟨List.append_ne_nil_of_left_ne_nil (by decide) _, fun hmem =>
        (List.mem_append.mp hmem).elim (by decide) haccept⟩
    intro l hl
    simp only [upgradeLines, List.mem_cons, List.not_mem_nil, or_false] at hl
    rcases hl with rfl | rfl | rfl | rfl
    · decide
    · decide
    · decide
    · exact hlast
  have hbody : (headLines (upgradeLines accept)).length = (upgradeBody accept).length + 2 := by
    have hsame := congrArg List.length (upgradeHead_body accept)
    have hmark : headEndMark.length = 4 := by decide
    rw [upgradeHead_lines, List.length_append, List.length_append, hmark] at hsame
    simp only [List.length_cons, List.length_nil] at hsame
    omega
  rw [upgradeHead_lines, upgradeLines, find_headLines hlines, ← upgradeLines, hbody]
  rfl

section Reading
variable {τ : Type} {utf8 : List UInt8 → τ} {accept : List UInt8}

inductive Reads (utf8 : List UInt8 → τ) (accept : List UInt8) :
    List UInt8 → Connection τ → Prop
  | handshake {received : List UInt8} (hmark : find headEndMark received = none) :
      Reads utf8 accept received { buffer := received }
  | framing {bytes rest : List UInt8} {items : List (UInt8 × List UInt8)}
      (hdrain : frameDecoder.drainLive () bytes = (items, .live () rest)) :
      Reads utf8 accept (upgradeHead accept ++ bytes)
        { buffer := rest
          upgraded := true
          calls := .onOpen :: items.flatMap fun f => deliver utf8 f.1 f.2 }

variable (utf8) in
theorem readFrames_eq {buffer : List UInt8}
    (h : ∀ f ∈ (frameDecoder.drainLive () buffer).1, f.1 ≠ 0x8) :
    ∃ items rest, frameDecoder.drainLive () buffer = (items, .live () rest) ∧
      readFrames utf8 buffer = (items.flatMap fun f => deliver utf8 f.1 f.2, rest) := by
  obtain ⟨hcalls, hleft⟩ := readFrames_drain utf8 buffer h
  exact ⟨_, _, Prod.ext rfl hleft, Prod.ext hcalls rfl⟩

theorem drain_mem_part {bytes all : List UInt8} (hpre : bytes <+: all)
    {f : UInt8 × List UInt8} (hf : f ∈ (frameDecoder.drainLive () bytes).1) :
    f ∈ (frameDecoder.drainLive () all).1 := by
  obtain ⟨more, rfl⟩ := hpre
  rw [Decoder.drainLive_append]
  exact List.mem_append_left _ hf

theorem onData_handshake (haccept : 0x0d ∉ accept) {received chunk bytes : List UInt8}
    (hreceived : received ++ chunk = upgradeHead accept ++ bytes)
    (hclose : ∀ f ∈ (frameDecoder.drainLive () bytes).1, f.1 ≠ 0x8) :
    Reads utf8 accept (upgradeHead accept ++ bytes)
      (Connection.onData utf8 accept { buffer := received } chunk) := by
  have hfind := find_upgradeHead haccept bytes
  have hhead : (upgradeHead accept ++ bytes).take (upgradeBody accept).length =
      upgradeBody accept := by
    rw [upgradeHead_body, List.append_assoc, List.take_left]
  have hrest : (upgradeHead accept ++ bytes).drop ((upgradeBody accept).length + 4) = bytes := by
    have hlength : (upgradeHead accept).length = (upgradeBody accept).length + 4 := by
      rw [upgradeHead_body, List.length_append]
      rfl
    rw [← hlength, List.drop_left]
  have hstatus : (ascii "HTTP/1.1 101 ").isPrefixOf (upgradeBody accept) = true :=
    List.isPrefixOf_iff_prefix.mpr ⟨_, rfl⟩
  have hkey : (find (ascii "Sec-WebSocket-Accept: " ++ accept) (upgradeBody accept)).isNone =
      false := by
    rw [Option.isNone_eq_false_iff]
    exact find_isSome_of_within (List.suffix_append _ _).isInfix
  obtain ⟨items, rest, hdrain, hread⟩ := readFrames_eq utf8 hclose
  have hdata : Connection.onData utf8 accept { buffer := received } chunk =
      { buffer := rest
        upgraded := true
        calls := .onOpen :: items.flatMap fun f => deliver utf8 f.1 f.2 } := by
    simp only [Connection.onData, hreceived, hfind, hhead, hrest, hstatus, hkey, Connection.read,
      hread]
    rfl
  rw [hdata]
  exact .framing hdrain

theorem reads_onData_handshake (haccept : 0x0d ∉ accept) {all received chunk : List UInt8}
    (hclose : ∀ f ∈ (frameDecoder.drainLive () all).1, f.1 ≠ 0x8)
    (hpre : received ++ chunk <+: upgradeHead accept ++ all) :
    Reads utf8 accept (received ++ chunk)
      (Connection.onData utf8 accept { buffer := received } chunk) := by
  cases hfind : find headEndMark (received ++ chunk) with
  | none =>
    have hdata : Connection.onData utf8 accept { buffer := received } chunk =
        { buffer := received ++ chunk } := by
      simp only [Connection.onData, hfind]
      rfl
    rw [hdata]
    exact .handshake hfind
  | some headEnd =>
    -- a mark in the bytes received is the one that ends the head
    obtain ⟨more, hmore⟩ := hpre
    have hend : headEnd = (upgradeBody accept).length := by
      have hall := find_append (by decide) hfind more
      rw [hmore, find_upgradeHead haccept] at hall
      exact (Option.some.inj hall).symm
    have hwhole : upgradeHead accept <+: received ++ chunk := by
      have hfits := (find_eq_some hfind).2
      have hlength : (upgradeHead accept).length ≤ (received ++ chunk).length := by
        rw [upgradeHead_body, List.length_append, ← hend]
        exact hfits
      exact List.prefix_of_prefix_length_le ⟨all, rfl⟩ ⟨more, hmore⟩ hlength
    obtain ⟨bytes, hbytes⟩ := hwhole
    have hbytesPre : bytes <+: all := by
      rw [← hbytes, List.append_assoc] at hmore
      exact ⟨more, List.append_cancel_left hmore⟩
    rw [← hbytes]
    exact onData_handshake haccept hbytes.symm
      fun f hf => hclose f (drain_mem_part hbytesPre hf)

theorem reads_onData_framing {all bytes rest chunk : List UInt8} {items : List (UInt8 × List UInt8)}
    (hclose : ∀ f ∈ (frameDecoder.drainLive () all).1, f.1 ≠ 0x8)
    (hpre : upgradeHead accept ++ bytes ++ chunk <+: upgradeHead accept ++ all)
    (hdrain : frameDecoder.drainLive () bytes = (items, .live () rest)) :
    Reads utf8 accept (upgradeHead accept ++ bytes ++ chunk)
      (Connection.onData utf8 accept
        { buffer := rest
          upgraded := true
          calls := .onOpen :: items.flatMap fun f => deliver utf8 f.1 f.2 } chunk) := by
  rw [List.append_assoc] at hpre ⊢
  have hbytesPre : bytes ++ chunk <+: all := (List.prefix_append_right_inj _).mp hpre
  have hall := Decoder.drainLive_append (D := frameDecoder) () bytes chunk
  rw [hdrain] at hall
  have hrest : ∀ f ∈ (frameDecoder.drainLive () (rest ++ chunk)).1, f.1 ≠ 0x8 := by
    intro f hf
    refine hclose f (drain_mem_part hbytesPre ?_)
    rw [hall]
    exact List.mem_append_right _ hf
  obtain ⟨items', rest', hdrain', hread⟩ := readFrames_eq utf8 hrest
  have hmore : frameDecoder.drainLive () (bytes ++ chunk) = (items ++ items', .live () rest') := by
    rw [hall]
    simp only [Position.push_live, Decoder.drain, hdrain']
  have hdata : Connection.onData utf8 accept
      { buffer := rest
        upgraded := true
        calls := .onOpen :: items.flatMap fun f => deliver utf8 f.1 f.2 } chunk =
      { buffer := rest'
        upgraded := true
        calls := .onOpen :: (items ++ items').flatMap fun f => deliver utf8 f.1 f.2 } := by
    simp only [Connection.onData, Connection.read, hread, List.flatMap_append]
    rfl
  rw [hdata]
  exact .framing hmore

theorem reads_onData (haccept : 0x0d ∉ accept) {all received chunk : List UInt8}
    (hclose : ∀ f ∈ (frameDecoder.drainLive () all).1, f.1 ≠ 0x8)
    (hpre : received ++ chunk <+: upgradeHead accept ++ all) {c : Connection τ}
    (h : Reads utf8 accept received c) :
    Reads utf8 accept (received ++ chunk) (c.onData utf8 accept chunk) := by
  cases h with
  | handshake => exact reads_onData_handshake haccept hclose hpre
  | framing hdrain => exact reads_onData_framing hclose hpre hdrain

theorem reads_run (haccept : 0x0d ∉ accept) {all : List UInt8}
    (hclose : ∀ f ∈ (frameDecoder.drainLive () all).1, f.1 ≠ 0x8) {chunks : List (List UInt8)}
    {received : List UInt8} {c : Connection τ} (h : Reads utf8 accept received c)
    (hpre : received ++ chunks.flatten <+: upgradeHead accept ++ all) :
    Reads utf8 accept (received ++ chunks.flatten) (c.run utf8 accept chunks) := by
  induction chunks generalizing received c with
  | nil =>
    rw [List.flatten_nil, List.append_nil]
    exact h
  | cons chunk chunks ih =>
    rw [List.flatten_cons, ← List.append_assoc] at hpre ⊢
    exact ih (reads_onData haccept hclose ((List.prefix_append _ _).trans hpre) h) hpre

end Reading
def delivered {τ : Type} (utf8 : List UInt8 → τ) (frame : Opcode × List UInt8) : Option (Call τ) :=
  if frame.1 = .text then some (.onText (utf8 frame.2))
  else if frame.1 = .binary then some (.onBinary frame.2)
  else none

theorem deliver_code {τ : Type} (utf8 : List UInt8 → τ) {frame : Opcode × List UInt8}
    (h : Readable frame) : deliver utf8 frame.1.code frame.2 = (delivered utf8 frame).toList := by
  obtain ⟨opcode, payload⟩ := frame
  obtain ⟨hop, -⟩ := h
  dsimp only at hop
  rcases hop with rfl | rfl | rfl
  · rfl
  · rfl
  · rfl

theorem flatMap_deliver {τ : Type} (utf8 : List UInt8 → τ) {frames : List (Opcode × List UInt8)}
    (h : ∀ f ∈ frames, Readable f) :
    (frames.map fun f => (f.1.code, f.2)).flatMap (fun f => deliver utf8 f.1 f.2) =
      frames.filterMap (delivered utf8) := by
  induction frames with
  | nil => rfl
  | cons f frames ih =>
    rw [List.map_cons, List.flatMap_cons, ih fun g hg => h g (List.mem_cons_of_mem f hg),
      deliver_code utf8 (h f List.mem_cons_self), List.filterMap_cons]
    cases delivered utf8 f <;> rfl

/-- However the server's answer and frames are cut into chunks, the listener is told of every
text and binary frame in order, and nothing is left over; and every frame is final, unmasked and
has the shortest length field. -/
theorem reads_server_frames {τ : Type} (utf8 : List UInt8 → τ) {accept : List UInt8}
    (haccept : 0x0d ∉ accept) {frames : List (Opcode × List UInt8)}
    (h : ∀ f ∈ frames, Readable f) {chunks : List (List UInt8)}
    (hchunks : chunks.flatten = upgradeHead accept ++ framesWritten frames) :
    let c := Connection.run utf8 accept {} chunks
    c.calls = .onOpen :: frames.filterMap (delivered utf8) ∧ c.buffer = [] ∧
      c.destroyed = false ∧
      ∀ f ∈ frames, ∃ b0 b1 extended,
        writeFrame [] f.1 f.2 = b0 :: b1 :: extended ++ f.2 ∧ b0 &&& 0x80 = 0x80 ∧
          b1 &&& 0x80 = 0 ∧ LengthField f.2.length (b1 :: extended) ∧
          ∀ field, LengthField f.2.length field → (b1 :: extended).length ≤ field.length := by
  intro c
  have hdrain := drain_framesWritten h
  have hclose : ∀ f ∈ (frameDecoder.drainLive () (framesWritten frames)).1, f.1 ≠ 0x8 := by
    intro f hf
    rw [hdrain] at hf
    obtain ⟨g, hg, rfl⟩ := List.mem_map.mp hf
    rcases (h g hg).1 with hop | hop | hop <;> simp only [hop] <;> decide
  have hreads : Reads utf8 accept chunks.flatten c :=
    reads_run haccept hclose (.handshake rfl) (by rw [List.nil_append, hchunks])
  have hframes : ∀ f ∈ frames, ∃ b0 b1 extended,
      writeFrame [] f.1 f.2 = b0 :: b1 :: extended ++ f.2 ∧ b0 &&& 0x80 = 0x80 ∧
        b1 &&& 0x80 = 0 ∧ LengthField f.2.length (b1 :: extended) ∧
        ∀ field, LengthField f.2.length field → (b1 :: extended).length ≤ field.length := by
    intro f hf
    obtain ⟨b1, extended, hheader, hmask, hfield, hshortest, -⟩ :=
      frameHeader_field f.1 (Nat.lt_trans (h f hf).2 (by decide))
    refine ⟨_, b1, extended, ?_, (finByte f.1.code).1, hmask, hfield, hshortest⟩
    rw [writeFrame, hheader, List.nil_append]
  generalize c = final at hreads ⊢
  rw [hchunks] at hreads
  generalize hall : upgradeHead accept ++ framesWritten frames = all at hreads
  cases hreads with
  | handshake hmark =>
    rw [← hall, find_upgradeHead haccept] at hmark
    cases hmark
  | framing hbytes =>
    have hsame := List.append_cancel_left hall
    rw [← hsame, hdrain] at hbytes
    obtain ⟨hitems, hleft⟩ := Prod.ext_iff.mp hbytes
    dsimp only at hitems hleft
    obtain rfl := hitems
    refine ⟨?_, (Position.live.inj hleft).2.symm, rfl, hframes⟩
    rw [← flatMap_deliver utf8 h]

theorem reads_server_frames_cut :
    let accept := ascii "s3pPLMBiTxaQ9kYGzzhZRbK+xOo="
    let frames := [(.text, [0x68, 0x69]), (.pong, []), (.binary, List.replicate 126 0x07)]
    let wire := upgradeHead accept ++ framesWritten frames
    (Connection.run id accept {} [wire.take 1, (wire.drop 1).take 180, (wire.drop 1).drop 180]).calls =
      [.onOpen, .onText [0x68, 0x69], .onBinary (List.replicate 126 0x07)] := by
  intro accept frames wire
  have hcut : [wire.take 1, (wire.drop 1).take 180, (wire.drop 1).drop 180].flatten = wire := by
    simp only [List.flatten_cons, List.flatten_nil, List.append_nil, List.take_append_drop]
  have haccept : 0x0d ∉ accept := by decide +kernel
  have hframes : ∀ f ∈ frames, Readable f := by decide +kernel
  have hdelivered : frames.filterMap (delivered id) =
      [.onText [0x68, 0x69], .onBinary (List.replicate 126 0x07)] := by
    simp [frames, delivered, Opcode.text, Opcode.binary, Opcode.pong]
  rw [← hdelivered]
  exact (reads_server_frames id haccept hframes hcut).1

end Ppm.Listen

import PhonePostMix.Library.Riff
import PhonePostMix.Listen.Connect
import PhonePostMix.Wire.Agreement

/-! The recording of the command-line listener: what it keeps of the packets, the file it writes
when it ends, and that a reader finds in the file what was sent up to then. -/

namespace Ppm.Listen
open Buffer ByteOrder Http Riff Streaming Wire WebSocket

def writeUInt (width value offset : ℕ) (header : List UInt8) : Option (List UInt8) :=
  -- `writeUInt32LE` and its like; a value that is too large is a RangeError
  if value < 256 ^ width then some (blit header offset (littleEndianBytes width value)) else none

inductive Written
  | nothing
  | rangeError
  | file (bytes : List UInt8)
  deriving DecidableEq, Repr

namespace State
variable (s : State)

def bits : ℕ := if s.format = 0 then 16 else if s.format = 1 then 24 else 32

def isFloat : Bool := s.format = 2

def blockAlign : ℕ := s.channels * (s.bits / 8)

end State

def wavHeader (s : State) (data : List UInt8) : Option (List UInt8) := do
  let h := blit (List.replicate 44 0) 0 (ascii "RIFF")
  let h ← writeUInt 4 (36 + data.length) 4 h
  let h := blit h 8 (ascii "WAVE")
  let h := blit h 12 (ascii "fmt ")
  let h ← writeUInt 4 16 16 h
  let h ← writeUInt 2 (if s.isFloat then 3 else 1) 20 h
  let h ← writeUInt 2 s.channels 22 h
  let h ← writeUInt 4 s.sampleRate 24 h
  let h ← writeUInt 4 (s.sampleRate * s.blockAlign) 28 h
  let h ← writeUInt 2 s.blockAlign 32 h
  let h ← writeUInt 2 s.bits 34 h
  let h := blit h 36 (ascii "data")
  writeUInt 4 data.length 40 h

def writeWav (s : State) : Written :=
  if s.wavChunks = [] then .nothing
  else
    let data := s.wavChunks.flatten
    match wavHeader s data with
    | none => .rangeError
    | some header => .file (header ++ data)

def State.wave (s : State) : Wave where
  encoding := if s.isFloat then 3 else 1
  channels := s.channels
  sampleRate := s.sampleRate
  byteRate := s.sampleRate * s.blockAlign
  blockAlign := s.blockAlign
  bitsPerSample := s.bits
  data := s.wavChunks.flatten

def headerOf (w : Wave) : List UInt8 :=
  riffTag ++ littleEndianBytes 4 (36 + w.data.length) ++ waveTag ++ formatTag ++
    littleEndianBytes 4 16 ++ littleEndianBytes 2 w.encoding ++ littleEndianBytes 2 w.channels ++
    littleEndianBytes 4 w.sampleRate ++ littleEndianBytes 4 w.byteRate ++
    littleEndianBytes 2 w.blockAlign ++ littleEndianBytes 2 w.bitsPerSample ++ dataTag ++
    littleEndianBytes 4 w.data.length

theorem headerOf_append (w : Wave) : headerOf w ++ w.data = waveBytes w := by
  have hformat : (formatBytes w).length = 16 := rfl
  simp only [headerOf, waveBytes, chunkBytes, hformat, List.append_assoc]
  rfl

theorem writeUInt_of_lt {width value : ℕ} (h : value < 256 ^ width) (offset : ℕ)
    (header : List UInt8) : writeUInt width value offset header =
      some (blit header offset (littleEndianBytes width value)) := if_pos h

theorem writeUInt_lt {width value offset : ℕ} {header written : List UInt8}
    (h : writeUInt width value offset header = some written) : value < 256 ^ width := by
  unfold writeUInt at h
  split_ifs at h with hlt
  exact hlt

theorem wavHeader_fits {s : State} (h : s.wave.Fits) :
    wavHeader s s.wavChunks.flatten = some (headerOf s.wave) := by
  have hriff : ascii "RIFF" = riffTag := by decide
  have hwave : ascii "WAVE" = waveTag := by decide
  have hformat : ascii "fmt " = formatTag := by decide
  have hdata : ascii "data" = dataTag := by decide
  have hmemory : List.replicate 44 (0 : UInt8) = filled [] (List.replicate 44 0) := rfl
  have hsize : 36 + s.wavChunks.flatten.length < 256 ^ 4 := h.data
  have hlength : s.wavChunks.flatten.length < 256 ^ 4 := lt_of_le_of_lt (Nat.le_add_left _ 36) hsize
  have hencoding : (if s.isFloat = true then 3 else 1) < 256 ^ 2 := h.encoding
  have hchannels : s.channels < 256 ^ 2 := h.channels
  have hrate : s.sampleRate < 256 ^ 4 := h.sampleRate
  have hbyteRate : s.sampleRate * s.blockAlign < 256 ^ 4 := h.byteRate
  have halign : s.blockAlign < 256 ^ 2 := h.blockAlign
  have hbits : s.bits < 256 ^ 2 := h.bitsPerSample
  unfold wavHeader
  simp only [writeUInt_of_lt hsize, writeUInt_of_lt (show 16 < 256 ^ 4 by decide),
    writeUInt_of_lt hencoding, writeUInt_of_lt hchannels, writeUInt_of_lt hrate,
    writeUInt_of_lt hbyteRate, writeUInt_of_lt halign, writeUInt_of_lt hbits,
    writeUInt_of_lt hlength, bind, Option.bind, hriff, hwave, hformat, hdata]
  rw [hmemory]
  simp (disch := simp [riffTag, waveTag, formatTag, dataTag]) only [blit_filled, List.nil_append]
  rw [filled, List.drop_of_length_le (by simp [riffTag, waveTag, formatTag, dataTag]),
    List.append_nil]
  rfl

theorem fits_of_wavHeader {s : State} {header : List UInt8}
    (h : wavHeader s s.wavChunks.flatten = some header) : s.wave.Fits := by
  simp only [wavHeader, Option.bind_eq_bind, Option.bind_eq_some_iff] at h
  obtain ⟨h1, hsize, h2, -, h3, hencoding, h4, hchannels, h5, hrate, h6, hbyteRate, h7, halign, h8,
    hbits, -⟩ := h
  exact ⟨writeUInt_lt hencoding, writeUInt_lt hchannels, writeUInt_lt hrate,
    writeUInt_lt hbyteRate, writeUInt_lt halign, writeUInt_lt hbits, writeUInt_lt hsize⟩

theorem writeWav_cases {s : State} (hne : s.wavChunks ≠ []) :
    (s.wave.Fits ∧ writeWav s = .file (waveBytes s.wave)) ∨
      (¬ s.wave.Fits ∧ writeWav s = .rangeError) := by
  unfold writeWav
  rw [if_neg hne]
  dsimp only
  cases hheader : wavHeader s s.wavChunks.flatten with
  | none =>
    refine .inr ⟨fun hfits => ?_, rfl⟩
    rw [wavHeader_fits hfits] at hheader
    cases hheader
  | some header =>
    have hfits := fits_of_wavHeader hheader
    rw [wavHeader_fits hfits] at hheader
    obtain rfl := Option.some.inj hheader
    exact .inl ⟨hfits, congrArg Written.file (headerOf_append s.wave)⟩

section Decode
variable (body : List UInt8) (format : ℕ)

theorem measure_keeps (state : Bool × State) (i : ℕ) :
    (measure body format state i).2 =
      { state.2 with peak := (measure body format state i).2.peak } := by
  unfold measure
  split_ifs
  · rfl
  · split
    · rfl
    · split
      · rfl
      · split_ifs <;> rfl

theorem measures_keep (n : ℕ) (state : Bool × State) :
    ((List.range n).foldl (measure body format) state).2 =
      { state.2 with peak := ((List.range n).foldl (measure body format) state).2.peak } := by
  induction n with
  | zero => rfl
  | succ n ih =>
    rw [List.range_succ, List.foldl_append, List.foldl_cons, List.foldl_nil, measure_keeps, ih]

theorem decodePacket_records {payload : List UInt8} (haccepted : Accepted payload) {s : State}
    (h : (decodePacket true payload s).1 = .returned) :
    (decodePacket true payload s).2.wavChunks = s.wavChunks ++ [payload.drop headerBytes] ∧
      (decodePacket true payload s).2.format = (readHeader payload).format ∧
      (decodePacket true payload s).2.channels = (readHeader payload).channels ∧
      (decodePacket true payload s).2.sampleRate = (readHeader payload).sampleRate := by
  obtain ⟨hlen, hmagic, hversion⟩ := (accepted_iff payload).mp haccepted
  have hone : Receiver.uint 1 payload 4 = 1 := hversion
  unfold decodePacket at h ⊢
  rw [if_neg (Nat.not_lt.mpr hlen), if_neg (not_not.mpr hmagic), if_neg (not_not.mpr hone)] at h ⊢
  dsimp only at h ⊢
  split_ifs at h ⊢ with hmeasured hwav
  · rw [measures_keep]
    exact ⟨rfl, rfl, rfl, rfl⟩
  · exact absurd rfl hwav

end Decode

structure Sent where
  info : PacketInfo
  buffer : List UInt8
  interleaved : ℕ → FloatSample
  known : info.format.Known
  size : buffer.length = packetSize info

def Sent.bytes (p : Sent) : List UInt8 := writePacket p.buffer p.info p.interleaved

def Sent.audio (p : Sent) : List UInt8 := payload p.info p.interleaved

theorem Sent.bytes_eq (p : Sent) : p.bytes = fields p.info ++ p.audio :=
  writePacket_eq p.known p.size p.interleaved

theorem Sent.accepted (p : Sent) : Accepted p.bytes := by
  rw [p.bytes_eq]
  refine ⟨?_, rfl, rfl⟩
  rw [List.length_append, length_fields]
  exact Nat.le_add_right _ _

theorem decodePacket_sent (p : Sent) (s : State) :
    (decodePacket true p.bytes s).1 = .returned ∧
      (decodePacket true p.bytes s).2.wavChunks = s.wavChunks ++ [p.audio] ∧
      (decodePacket true p.bytes s).2.format = p.info.format.code.toNat ∧
      (decodePacket true p.bytes s).2.channels = p.info.channels.toNat ∧
      (decodePacket true p.bytes s).2.sampleRate = p.info.sampleRate.toNat := by
  have hreturned : (decodePacket true p.bytes s).1 = .returned :=
    listener_returns p.known p.size p.interleaved true s
  have hheader : readHeader p.bytes = p.info.listener :=
    (headers_writePacket p.known p.size p.interleaved).2
  have haudio : p.bytes.drop headerBytes = p.audio := by
    rw [p.bytes_eq, List.drop_left' (length_fields p.info)]
  obtain ⟨hchunks, hformat, hchannels, hrate⟩ := decodePacket_records p.accepted hreturned
  rw [haudio] at hchunks
  rw [hheader] at hformat hchannels hrate
  exact ⟨hreturned, hchunks, hformat, hchannels, hrate⟩

/-- How the process ends: by `process.exit`, perhaps with a file, or by an exception. -/
inductive Exit
  | exit (code : ℕ) (wav : Option (List UInt8))
  | uncaught
  deriving DecidableEq, Repr

structure Session where
  state : State := {}
  finished : Bool := false
  gone : Option Exit := none

namespace Session

def finish (wav : Bool) (code : ℕ) (s : Session) : Bool × Session :=
  if s.finished then (false, s)
  else
    let s := { s with finished := true }
    if wav then
      match writeWav s.state with
      | .nothing => (false, { s with gone := some (.exit code none) })
      | .rangeError => (true, s)
      | .file bytes => (false, { s with gone := some (.exit code (some bytes)) })
    else (false, { s with gone := some (.exit code none) })

def close (wav : Bool) (code : ℕ) (s : Session) : Session :=
  match s.finish wav code with
  | (true, s) => { s with gone := some .uncaught }
  | (false, s) => s

variable {τ : Type}

def handle (wav : Bool) (type : τ → Option String) (s : Session) (call : Call τ) : Session :=
  -- the callbacks of `connect`. `type` is the type of a message that parses; what `finish`
  -- throws on a bye is swallowed with the errors of `JSON.parse`
  if s.gone.isSome then s
  else
    match call with
    | .onOpen => s
    | .onText text => if type text = some "bye" then (s.finish wav 0).2 else s
    | .onBinary payload =>
      match decodePacket wav payload s.state with
      | (.returned, state) => { s with state }
      | (.exited, state) => { s with state, gone := some (.exit 1 none) }
      | (.rangeError, state) => { s with state, gone := some .uncaught }
    | .onClose _ => s.close wav (if s.state.packets > 0 then 0 else 1)

end Session

inductive Event
  | data (chunk : List UInt8)
  | error (message : List Char)
  | close
  | timeout
  | interrupt

structure Listener (τ : Type) where
  connection : Connection τ := {}
  session : Session := {}

namespace Listener
variable {τ : Type}

def step (wav : Bool) (type : τ → Option String) (utf8 : List UInt8 → τ) (accept : List UInt8)
    (l : Listener τ) (e : Event) : Listener τ :=
  if l.session.gone.isSome then l
  else
    match e with
    | .data chunk =>
      let connection := l.connection.onData utf8 accept chunk
      let calls := connection.calls.drop l.connection.calls.length
      { connection, session := calls.foldl (Session.handle wav type) l.session }
    | .error message => { l with session := l.session.handle wav type (.onClose message : Call τ) }
    | .close =>
      { l with session := l.session.handle wav type (.onClose "disconnected".toList : Call τ) }
    | .timeout => { l with session := l.session.close wav 0 }
    | .interrupt => { l with session := l.session.close wav 0 }

def run (wav : Bool) (type : τ → Option String) (utf8 : List UInt8 → τ) (accept : List UInt8)
    (es : List Event) : Listener τ :=
  Runs.run (step wav type utf8 accept) {} es

end Listener

structure Config where
  format : Format
  channels : UInt8
  sampleRate : UInt32

def Sent.Of (p : Sent) (c : Config) : Prop :=
  p.info.format = c.format ∧ p.info.channels = c.channels ∧ p.info.sampleRate = c.sampleRate

def recording (c : Config) (audio : List (List UInt8)) : Wave where
  encoding := if c.format = .float32 then 3 else 1
  channels := c.channels.toNat
  sampleRate := c.sampleRate.toNat
  byteRate := c.sampleRate.toNat * (c.channels.toNat * bytesPerSample c.format)
  blockAlign := c.channels.toNat * bytesPerSample c.format
  bitsPerSample := 8 * bytesPerSample c.format
  data := audio.flatten

structure Records (c : Config) (packets : List Sent) (s : State) : Prop where
  chunks : s.wavChunks = packets.map Sent.audio
  config : packets ≠ [] → s.format = c.format.code.toNat ∧ s.channels = c.channels.toNat ∧
    s.sampleRate = c.sampleRate.toNat

theorem records_new (c : Config) : Records c [] {} where
  chunks := rfl
  config h := absurd rfl h

theorem Records.sent {c : Config} {packets : List Sent} {s : State} (h : Records c packets s)
    {p : Sent} (hp : p.Of c) : Records c (packets ++ [p]) (decodePacket true p.bytes s).2 := by
  obtain ⟨-, hchunks, hformat, hchannels, hrate⟩ := decodePacket_sent p s
  obtain ⟨hf, hc, hr⟩ := hp
  refine ⟨?_, fun _ => ⟨by rw [hformat, hf], by rw [hchannels, hc], by rw [hrate, hr]⟩⟩
  rw [hchunks, h.chunks, List.map_append]
  rfl

theorem Records.wave {c : Config} {packets : List Sent} {s : State} (h : Records c packets s)
    (hne : packets ≠ []) (hknown : c.format.Known) :
    s.wave = recording c (packets.map Sent.audio) := by
  obtain ⟨hformat, hchannels, hrate⟩ := h.config hne
  have hbits : s.bits = 8 * bytesPerSample c.format ∧
      s.isFloat = decide (c.format = .float32) := by
    unfold State.bits State.isFloat
    rw [hformat]
    rcases hknown with hf | hf | hf <;> rw [hf] <;> decide
  have halign : s.blockAlign = c.channels.toNat * bytesPerSample c.format := by
    rw [State.blockAlign, hchannels, hbits.1, Nat.mul_div_cancel_left _ (by decide)]
  unfold State.wave recording
  rw [h.chunks, hbits.1, hbits.2, halign, hchannels, hrate]
  simp only [decide_eq_true_eq]

theorem recording_consistent {c : Config} {packets : List Sent} (h : ∀ p ∈ packets, p.Of c) :
    (recording c (packets.map Sent.audio)).Consistent where
  blockAlign := by
    simp only [recording]
    ring
  byteRate := rfl
  whole := by
    induction packets with
    | nil => exact dvd_zero _
    | cons p packets ih =>
      obtain ⟨⟨hformat, hchannels, -⟩, hrest⟩ := List.forall_mem_cons.mp h
      have hfirst : c.channels.toNat * bytesPerSample c.format ∣ p.audio.length := by
        have hlength := length_payload p.info p.interleaved
        rw [packetSize, Nat.add_left_cancel_iff, hformat, hchannels] at hlength
        rw [Sent.audio, hlength]
        exact ⟨p.info.frames.toNat, by ring⟩
      simp only [recording, List.map_cons, List.flatten_cons, List.length_append]
      exact hfirst.add (ih hrest)

/-- How a process that has recorded this audio may end: with a file that reads back as its
recording, without one if there is none, or with an exception if it does not fit a file. -/
def Ends (c : Config) (audio : List (List UInt8)) : Exit → Prop
  | .exit _ none => audio = []
  | .exit _ (some bytes) => audio ≠ [] ∧ readWave bytes = some (recording c audio)
  | .uncaught => audio ≠ [] ∧ ¬ (recording c audio).Fits

namespace Session
variable {τ : Type} {type : τ → Option String} {c : Config} {packets all : List Sent} {s : Session}

structure Follows (c : Config) (packets : List Sent) (s : Session) : Prop where
  records : Records c packets s.state
  ended : ∀ e, s.gone = some e → Ends c (packets.map Sent.audio) e

theorem finish_follows (hknown : c.format.Known) (h : Follows c packets s) (hgone : s.gone = none)
    (code : ℕ) : Follows c packets (s.finish true code).2 ∧
      ((s.finish true code).1 = true → packets.map Sent.audio ≠ [] ∧
        ¬ (recording c (packets.map Sent.audio)).Fits) := by
  unfold finish
  by_cases hfinished : s.finished = true
  · rw [if_pos hfinished]
    exact ⟨h, fun hthrew => absurd hthrew Bool.false_ne_true⟩
  · rw [if_neg hfinished]
    dsimp only
    rw [if_pos rfl]
    by_cases hne : packets = []
    · have hnothing : writeWav s.state = .nothing := by
        unfold writeWav
        rw [if_pos]
        rw [h.records.chunks, hne]
        rfl
      rw [hnothing]
      refine ⟨⟨h.records, fun e he => ?_⟩, fun hthrew => absurd hthrew Bool.false_ne_true⟩
      obtain rfl := Option.some.inj he
      exact congrArg (List.map Sent.audio) hne
    · have hwave := h.records.wave hne hknown
      have haudio : packets.map Sent.audio ≠ [] := mt List.map_eq_nil_iff.mp hne
      have hchunks : s.state.wavChunks ≠ [] := by
        rw [h.records.chunks]
        exact haudio
      rcases writeWav_cases hchunks with ⟨hfits, hwritten⟩ | ⟨hfits, hwritten⟩
      · rw [hwritten]
        refine ⟨⟨h.records, fun e he => ?_⟩, fun hthrew => absurd hthrew Bool.false_ne_true⟩
        obtain rfl := Option.some.inj he
        exact ⟨haudio, hwave ▸ readWave_waveBytes hfits⟩
      · rw [hwritten]
        refine ⟨⟨h.records, fun e he => ?_⟩, fun _ => ⟨haudio, hwave ▸ hfits⟩⟩
        rw [hgone] at he
        cases he

theorem close_follows (hknown : c.format.Known) (h : Follows c packets s) (hgone : s.gone = none)
    (code : ℕ) : Follows c packets (s.close true code) := by
  obtain ⟨hfollows, hthrew⟩ := finish_follows hknown h hgone code
  unfold close
  rcases hfinish : s.finish true code with ⟨threw, s'⟩
  rw [hfinish] at hfollows hthrew
  cases threw with
  | false => exact hfollows
  | true =>
    refine ⟨hfollows.records, fun e he => ?_⟩
    obtain rfl := Option.some.inj he
    exact hthrew rfl

end Session

def Call.binary {τ : Type} : Call τ → Option (List UInt8)
  | .onBinary payload => some payload
  | _ => none

namespace Session
variable {τ : Type} {type : τ → Option String} {c : Config} {packets : List Sent} {s : Session}

theorem handle_gone (hgone : s.gone ≠ none) (wav : Bool) (call : Call τ) :
    s.handle wav type call = s := if_pos (Option.isSome_iff_ne_none.mpr hgone)

theorem handle_follows (hknown : c.format.Known) (h : Follows c packets s) {call : Call τ}
    (hcall : call.binary = none) : Follows c packets (s.handle true type call) := by
  by_cases hgone : s.gone = none
  · unfold handle
    rw [if_neg (by simp [hgone])]
    cases call with
    | onOpen => exact h
    | onText text =>
      dsimp only
      split_ifs
      · exact (finish_follows hknown h hgone 0).1
      · exact h
    | onBinary payload => cases hcall
    | onClose reason => exact close_follows hknown h hgone _
  · rw [handle_gone hgone]
    exact h

theorem handle_sent (h : Follows c packets s) (hgone : s.gone = none) {p : Sent} (hp : p.Of c) :
    Follows c (packets ++ [p]) (s.handle true type (.onBinary p.bytes)) ∧
      (s.handle true type (.onBinary p.bytes)).gone = none := by
  have hreturned := (decodePacket_sent p s.state).1
  have hrecords := h.records.sent hp
  unfold handle
  rw [if_neg (by simp [hgone])]
  dsimp only
  rcases hdecode : decodePacket true p.bytes s.state with ⟨outcome, state⟩
  rw [hdecode] at hreturned hrecords
  obtain rfl : outcome = .returned := hreturned
  refine ⟨⟨hrecords, fun e he => ?_⟩, hgone⟩
  rw [show s.gone = some e from he] at hgone
  cases hgone

def Heard (c : Config) (packets : List Sent) (s : Session) : Prop :=
  ∃ ps, ps <+: packets ∧ Follows c ps s ∧ (s.gone = none → ps = packets)

theorem heard_new (c : Config) : Heard c [] {} :=
  ⟨[], List.prefix_rfl, ⟨records_new c, fun _ he => by cases he⟩, fun _ => rfl⟩

theorem Heard.other (hknown : c.format.Known) (h : Heard c packets s) {call : Call τ}
    (hcall : call.binary = none) : Heard c packets (s.handle true type call) := by
  obtain ⟨ps, hps, hfollows, hsame⟩ := h
  refine ⟨ps, hps, handle_follows hknown hfollows hcall, fun hgone => hsame ?_⟩
  by_contra hended
  rw [handle_gone hended] at hgone
  exact hended hgone

theorem Heard.sent (h : Heard c packets s) {p : Sent} (hp : p.Of c) :
    Heard c (packets ++ [p]) (s.handle true type (.onBinary p.bytes)) := by
  obtain ⟨ps, hps, hfollows, hsame⟩ := h
  by_cases hgone : s.gone = none
  · obtain rfl := hsame hgone
    exact ⟨_, List.prefix_rfl, (handle_sent hfollows hgone hp).1, fun _ => rfl⟩
  · rw [handle_gone hgone]
    exact ⟨ps, hps.trans (List.prefix_append _ _), hfollows, fun h => absurd h hgone⟩

theorem Heard.close (hknown : c.format.Known) (h : Heard c packets s) (hgone : s.gone = none)
    {code : ℕ} : Heard c packets (s.close true code) := by
  obtain ⟨ps, hps, hfollows, hsame⟩ := h
  exact ⟨ps, hps, close_follows hknown hfollows hgone code, fun _ => hsame hgone⟩

theorem Heard.calls (hknown : c.format.Known) {calls : List (Call τ)} {more : List Sent}
    (hcalls : calls.filterMap Call.binary = more.map Sent.bytes) (hof : ∀ p ∈ more, p.Of c)
    (h : Heard c packets s) :
    Heard c (packets ++ more) (calls.foldl (Session.handle true type) s) := by
  induction calls generalizing packets more s with
  | nil =>
    obtain rfl : more = [] := List.map_eq_nil_iff.mp hcalls.symm
    rw [List.append_nil]
    exact h
  | cons call calls ih =>
    rw [List.foldl_cons]
    cases hcall : call.binary with
    | none =>
      rw [List.filterMap_cons_none hcall] at hcalls
      exact ih hcalls hof (h.other hknown hcall)
    | some payload =>
      rw [List.filterMap_cons_some hcall] at hcalls
      obtain ⟨p, rest, rfl, rfl, hrest⟩ := List.map_eq_cons_iff.mp hcalls.symm
      obtain ⟨hp, hof⟩ := List.forall_mem_cons.mp hof
      obtain rfl : call = .onBinary p.bytes := by
        cases call with
        | onBinary payload => exact congrArg Call.onBinary (Option.some.inj hcall)
        | onOpen => cases hcall
        | onText text => cases hcall
        | onClose reason => cases hcall
      rw [← List.singleton_append, ← List.append_assoc]
      exact ih hrest.symm hof (h.sent hp)

end Session

section Stream
variable {τ : Type} {utf8 : List UInt8 → τ} {type : τ → Option String} {accept : List UInt8}

theorem calls_onData (c : Connection τ) (chunk : List UInt8) :
    c.calls <+: (c.onData utf8 accept chunk).calls := by
  unfold Connection.onData
  split_ifs
  · exact List.prefix_rfl
  · exact List.prefix_append _ _
  · dsimp only
    split
    · exact List.prefix_rfl
    · split_ifs
      · exact List.prefix_append _ _
      · exact List.prefix_append _ _
      · dsimp only [Connection.read]
        rw [List.append_assoc]
        exact List.prefix_append _ _

def binaries (frames : List (Opcode × List UInt8)) : List (List UInt8) :=
  frames.filterMap fun f => if f.1 = .binary then some f.2 else none

variable (utf8) in
theorem filterMap_delivered (frames : List (Opcode × List UInt8)) :
    (frames.filterMap (delivered utf8)).filterMap Call.binary = binaries frames := by
  rw [List.filterMap_filterMap]
  refine List.filterMap_congr fun f _ => ?_
  unfold delivered
  by_cases htext : f.1 = .text
  · rw [if_pos htext, if_neg (by rw [htext]; decide)]
    rfl
  · rw [if_neg htext]
    split_ifs <;> rfl

theorem reads_binaries {frames : List (Opcode × List UInt8)} (h : ∀ f ∈ frames, Readable f)
    {received : List UInt8} {c : Connection τ} (hreads : Reads utf8 accept received c)
    (hpre : received <+: upgradeHead accept ++ framesWritten frames) :
    c.calls.filterMap Call.binary <+: binaries frames := by
  cases hreads with
  | handshake => exact List.nil_prefix
  | @framing bytes rest items hdrain =>
    obtain ⟨later, hlater⟩ := (List.prefix_append_right_inj _).mp hpre
    have hall := drain_framesWritten h
    rw [← hlater, Decoder.drainLive_append, hdrain] at hall
    have hitems : items ++ _ = frames.map fun f => (f.1.code, f.2) := (Prod.ext_iff.mp hall).1
    obtain ⟨first, others, rfl, hfirst, -⟩ := List.map_eq_append_iff.mp hitems.symm
    have hcalls : items.flatMap (fun f => deliver utf8 f.1 f.2) =
        first.filterMap (delivered utf8) := by
      rw [← hfirst]
      exact flatMap_deliver utf8 fun f hf => h f (List.mem_append_left _ hf)
    have hbinaries : (Call.onOpen :: items.flatMap fun f => deliver utf8 f.1 f.2).filterMap
        Call.binary = binaries first := by
      rw [List.filterMap_cons_none rfl, hcalls, filterMap_delivered]
    rw [hbinaries, binaries, binaries, List.filterMap_append]
    exact List.prefix_append _ _

structure Hears (utf8 : List UInt8 → τ) (accept : List UInt8) (c : Config) (packets : List Sent)
    (received : List UInt8) (l : Listener τ) : Prop where
  reads : l.session.gone = none → Reads utf8 accept received l.connection
  heard : ∃ ps, ps <+: packets ∧
    l.connection.calls.filterMap Call.binary = ps.map Sent.bytes ∧ Session.Heard c ps l.session

variable {c : Config} {packets : List Sent} {received : List UInt8} {l : Listener τ}

theorem hears_new (utf8 : List UInt8 → τ) (accept : List UInt8) (c : Config)
    (packets : List Sent) : Hears utf8 accept c packets [] {} where
  reads _ := .handshake rfl
  heard := ⟨[], List.nil_prefix, rfl, Session.heard_new c⟩

theorem Hears.callback (h : Hears utf8 accept c packets received l) {s : Session}
    (hgone : s.gone = none → l.session.gone = none)
    (hs : ∀ ps, Session.Heard c ps l.session → Session.Heard c ps s) :
    Hears utf8 accept c packets received { l with session := s } where
  reads hnone := h.reads (hgone hnone)
  heard := by
    obtain ⟨ps, hps, hcalls, hheard⟩ := h.heard
    exact ⟨ps, hps, hcalls, hs ps hheard⟩

theorem Hears.data (hknown : c.format.Known) (haccept : 0x0d ∉ accept)
    {frames : List (Opcode × List UInt8)} (hframes : ∀ f ∈ frames, Readable f)
    (hbinaries : binaries frames = packets.map Sent.bytes) (hof : ∀ p ∈ packets, p.Of c)
    (h : Hears utf8 accept c packets received l) (hgone : l.session.gone = none)
    {chunk : List UInt8}
    (hpre : received ++ chunk <+: upgradeHead accept ++ framesWritten frames) :
    Hears utf8 accept c packets (received ++ chunk)
      { connection := l.connection.onData utf8 accept chunk
        session := ((l.connection.onData utf8 accept chunk).calls.drop
          l.connection.calls.length).foldl (Session.handle true type) l.session } := by
  have hclose : ∀ f ∈ (frameDecoder.drainLive () (framesWritten frames)).1, f.1 ≠ 0x8 := by
    intro f hf
    rw [drain_framesWritten hframes] at hf
    obtain ⟨g, hg, rfl⟩ := List.mem_map.mp hf
    rcases (hframes g hg).1 with hop | hop | hop <;> simp only [hop] <;> decide
  have hreads := reads_onData haccept hclose hpre (h.reads hgone)
  refine ⟨fun _ => hreads, ?_⟩
  obtain ⟨ps, ⟨rest, rfl⟩, hcalls, hheard⟩ := h.heard
  obtain ⟨more, hmore⟩ : l.connection.calls <+: (l.connection.onData utf8 accept chunk).calls :=
    calls_onData l.connection chunk
  have hall := reads_binaries hframes hreads hpre
  rw [← hmore, List.filterMap_append, hcalls, hbinaries, List.map_append] at hall
  -- the packets that this chunk completes
  obtain ⟨later, hlater⟩ := (List.prefix_append_right_inj _).mp hall
  obtain ⟨fresh, others, rfl, hfresh, -⟩ := List.map_eq_append_iff.mp hlater.symm
  refine ⟨ps ++ fresh, ⟨others, List.append_assoc ..⟩, ?_, ?_⟩
  · dsimp only
    rw [← hmore, List.filterMap_append, hcalls, ← hfresh, List.map_append]
  · dsimp only
    rw [← hmore, List.drop_left]
    exact hheard.calls hknown hfresh.symm fun p hp =>
      hof p (List.mem_append_right _ (List.mem_append_left _ hp))

def Event.chunk : Event → List UInt8
  | .data chunk => chunk
  | .error _ | .close | .timeout | .interrupt => []

theorem hears_step (hknown : c.format.Known) (haccept : 0x0d ∉ accept)
    {frames : List (Opcode × List UInt8)} (hframes : ∀ f ∈ frames, Readable f)
    (hbinaries : binaries frames = packets.map Sent.bytes) (hof : ∀ p ∈ packets, p.Of c)
    (h : Hears utf8 accept c packets received l) {e : Event}
    (hpre : received ++ e.chunk <+: upgradeHead accept ++ framesWritten frames) :
    Hears utf8 accept c packets (received ++ e.chunk) (l.step true type utf8 accept e) := by
  unfold Listener.step
  by_cases hgone : l.session.gone = none
  · rw [if_neg (by simp [hgone])]
    cases e with
    | data chunk => exact h.data hknown haccept hframes hbinaries hof hgone hpre
    | error message =>
      rw [Event.chunk, List.append_nil]
      exact h.callback (fun _ => hgone) fun ps hps => hps.other hknown rfl
    | close =>
      rw [Event.chunk, List.append_nil]
      exact h.callback (fun _ => hgone) fun ps hps => hps.other hknown rfl
    | timeout =>
      rw [Event.chunk, List.append_nil]
      exact h.callback (fun _ => hgone) fun ps hps => hps.close hknown hgone
    | interrupt =>
      rw [Event.chunk, List.append_nil]
      exact h.callback (fun _ => hgone) fun ps hps => hps.close hknown hgone
  · rw [if_pos (Option.isSome_iff_ne_none.mpr hgone)]
    exact ⟨fun hnone => absurd hnone hgone, h.heard⟩

theorem hears_run (hknown : c.format.Known) (haccept : 0x0d ∉ accept)
    {frames : List (Opcode × List UInt8)} (hframes : ∀ f ∈ frames, Readable f)
    (hbinaries : binaries frames = packets.map Sent.bytes) (hof : ∀ p ∈ packets, p.Of c)
    {es : List Event} (h : Hears utf8 accept c packets received l)
    (hpre : received ++ es.flatMap Event.chunk <+: upgradeHead accept ++ framesWritten frames) :
    Hears utf8 accept c packets (received ++ es.flatMap Event.chunk)
      (Runs.run (Listener.step true type utf8 accept) l es) := by
  induction es generalizing received l with
  | nil =>
    rw [List.flatMap_nil, List.append_nil]
    exact h
  | cons e es ih =>
    rw [List.flatMap_cons, ← List.append_assoc] at hpre ⊢
    exact ih (hears_step hknown haccept hframes hbinaries hof h
      ((List.prefix_append _ _).trans hpre)) hpre

end Stream

/-- Of a stream of packets in one configuration, however it is cut up and whenever it stops, the
listener has recorded the packets of the frames it has read. When the process ends, its file reads
back as the recording of these packets; there is no file only when there is no packet, or when
they do not fit a file. -/
theorem recording_matches_stream {τ : Type} (utf8 : List UInt8 → τ) (type : τ → Option String)
    {accept : List UInt8} (haccept : 0x0d ∉ accept) {c : Config} (hknown : c.format.Known)
    {frames : List (Opcode × List UInt8)} (hframes : ∀ f ∈ frames, Readable f)
    {packets : List Sent} (hbinaries : binaries frames = packets.map Sent.bytes)
    (hof : ∀ p ∈ packets, p.Of c) {es : List Event}
    (hpre : es.flatMap Event.chunk <+: upgradeHead accept ++ framesWritten frames) :
    let l := Listener.run true type utf8 accept es
    (∃ ps, ps <+: packets ∧
        l.connection.calls.filterMap Call.binary = ps.map Sent.bytes ∧
        (l.session.gone = none → l.session.state.wavChunks = ps.map Sent.audio)) ∧
      ∀ e, l.session.gone = some e →
        ∃ ps, ps <+: packets ∧ l.session.state.wavChunks = ps.map Sent.audio ∧
          Ends c (ps.map Sent.audio) e ∧ (recording c (ps.map Sent.audio)).Consistent := by
  intro l
  have hears : Hears utf8 accept c packets _ l :=
    hears_run hknown haccept hframes hbinaries hof (hears_new utf8 accept c packets)
      (by rw [List.nil_append]; exact hpre)
  obtain ⟨ps, hps, hcalls, heard, hheard, hfollows, hsame⟩ := hears.heard
  refine ⟨⟨ps, hps, hcalls, fun hgone => ?_⟩, fun e he => ?_⟩
  · rw [← hsame hgone]
    exact hfollows.records.chunks
  · have hpackets := hheard.trans hps
    exact ⟨heard, hpackets, hfollows.records.chunks, hfollows.ended e he,
      recording_consistent fun p hp => hof p (hpackets.subset hp)⟩

theorem recording_matches_stream_cut :
    let accept := ascii "s3pPLMBiTxaQ9kYGzzhZRbK+xOo="
    let c : Config := { format := .pcm16, channels := 2, sampleRate := 48000 }
    let packet : Sent :=
      { info := { frames := 2 }, buffer := List.replicate 40 0, interleaved := fun _ => ⟨0, 0⟩
        known := .inl rfl, size := rfl }
    let frames := [(.text, []), (.binary, packet.bytes)]
    let wire := upgradeHead accept ++ framesWritten frames
    let l := Listener.run true (fun _ => none) id accept
      [.data (wire.take 150), .data (wire.drop 150), .interrupt]
    ∀ e, l.session.gone = some e → ∃ ps, ps <+: [packet] ∧
      l.session.state.wavChunks = ps.map Sent.audio ∧ Ends c (ps.map Sent.audio) e ∧
        (recording c (ps.map Sent.audio)).Consistent := by
  intro accept c packet frames wire
  have haccept : 0x0d ∉ accept := by decide +kernel
  have hframes : ∀ f ∈ frames, Readable f := by decide +kernel
  have hof : ∀ p ∈ [packet], p.Of c := List.forall_mem_singleton.mpr ⟨rfl, rfl, rfl⟩
  have hchunks : [Event.data (wire.take 150), .data (wire.drop 150), .interrupt].flatMap
      Event.chunk = wire := by
    simp only [List.flatMap_cons, List.flatMap_nil, Event.chunk, List.append_nil,
      List.take_append_drop]
  have hbinaries : binaries frames = [packet].map Sent.bytes := by
    simp only [frames, binaries, List.filterMap_cons, Opcode.text, Opcode.binary]
    rfl
  have hpre : [Event.data (wire.take 150), .data (wire.drop 150), .interrupt].flatMap
      Event.chunk <+: wire := by rw [hchunks]
  exact (recording_matches_stream id (fun _ => none) haccept (.inl rfl) hframes hbinaries hof
    hpre).2

end Ppm.Listen

import Mathlib.Data.List.GetD
import PhonePostMix.Library.Runs
import PhonePostMix.WebSocket.ParserDecoder
import PhonePostMix.WebSocket.Reassembly

/-! What a connection's parser keeps in memory when it is read in chunks and drained
after each of them, and the bytes it looks at. -/

namespace Ppm.WebSocket
open ByteOrder

def fetchBytes (buffer : List UInt8) (start n : Nat) : Option (List UInt8) :=
  -- `n` bytes of a buffer, each fetched by its index; none is a read outside the buffer
  (List.range n).mapM fun i => buffer[start + i]?

def fetchUnmasked (buffer : List UInt8) (mask body n : Nat) : Option (List UInt8) :=
  (List.range n).mapM fun i =>
    buffer[body + i]?.bind fun b => buffer[mask + i % 4]?.map fun m => b ^^^ m

def fetchLength (size7 : UInt8) (incoming : List UInt8) (consumed : Nat) :
    Option (Option (Nat × Nat)) :=
  let available := incoming.length - consumed
  if size7 = 126 then
    if available < 2 + 2 then some none
    else (fetchBytes incoming (consumed + 2) 2).map fun bytes => some (bigEndian bytes, 2)
  else if size7 = 127 then
    if available < 2 + 8 then some none
    else (fetchBytes incoming (consumed + 2) 8).map fun bytes => some (bigEndian bytes, 8)
  else some (some (size7.toNat, 0))

def fetchFrame (maxPayloadSize : Nat) (incoming : List UInt8) (consumed : Nat) : Option Reading :=
  -- `readFrame` with every byte fetched from `incoming` by its index; none is also a difference
  -- of sizes that would go below zero
  if incoming.length < consumed then none
  else
    let available := incoming.length - consumed
    if available < 2 then some .needMore
    else
      incoming[consumed]?.bind fun p0 => incoming[consumed + 1]?.bind fun p1 =>
      (fetchLength (p1 &&& 0x7f) incoming consumed).bind fun
        | none => some .needMore
        | some (payloadSize, extended) =>
          if p1 &&& 0x80 = 0 then some (.failed "client sent an unmasked frame")
          else if payloadSize > maxPayloadSize then
            some (.failed "client frame exceeds the maximum payload size")
          else
            let maskOffset := 2 + extended
            let headerSize := maskOffset + 4
            if available < (headerSize + payloadSize) % sizeModulus then some .needMore
            else if payloadSize > maxVectorSize then some (.threw .lengthError)
            else
              (fetchUnmasked incoming (consumed + maskOffset) (consumed + headerSize)
                payloadSize).map fun payload =>
                  .frame ⟨⟨p0 &&& 0x0f⟩, p0 &&& 0x80 != 0, payload⟩ (headerSize + payloadSize)

theorem mapM_some {α β : Type} {f : α → Option β} {g : α → β} {l : List α}
    (h : ∀ a ∈ l, f a = some (g a)) : l.mapM f = some (l.map g) := by
  induction l with
  | nil => rfl
  | cons a l ih =>
    rw [List.mapM_cons, h a List.mem_cons_self, ih fun b hb => h b (List.mem_cons_of_mem _ hb)]
    rfl

theorem getElem?_getD {l : List UInt8} {i : Nat} (h : i < l.length) :
    l[i]? = some (l.getD i 0) := by
  rw [List.getElem?_eq_getElem h, List.getD_eq_getElem _ _ h]

theorem fetchBytes_eq {buffer : List UInt8} {start n : Nat} (h : start + n ≤ buffer.length) :
    fetchBytes buffer start n = some ((buffer.drop start).take n) := by
  rw [fetchBytes, mapM_some (g := fun i => buffer.getD (start + i) 0)
    fun i hi => getElem?_getD (by have := List.mem_range.mp hi; omega)]
  congr 1
  apply List.ext_getElem
  · simp only [List.length_map, List.length_range, List.length_take, List.length_drop]
    omega
  · intro i hi _
    simp only [List.length_map, List.length_range] at hi
    rw [List.getElem_map, List.getElem_range, List.getElem_take, List.getElem_drop,
      List.getD_eq_getElem _ _ (by omega)]

theorem fetchUnmasked_eq {buffer : List UInt8} {mask n : Nat} (h : mask + 4 + n ≤ buffer.length) :
    fetchUnmasked buffer mask (mask + 4) n =
      some (unmask ((buffer.drop mask).take 4) ((buffer.drop (mask + 4)).take n)) := by
  have hmod (i : Nat) : i % 4 < 4 := Nat.mod_lt _ (by omega)
  rw [fetchUnmasked,
    mapM_some (g := fun i => buffer.getD (mask + 4 + i) 0 ^^^ buffer.getD (mask + i % 4) 0)]
  · congr 1
    apply List.ext_getElem
    · simp only [List.length_map, List.length_range, unmask, List.length_mapIdx, List.length_take,
        List.length_drop]
      omega
    · intro i hi _
      simp only [List.length_map, List.length_range] at hi
      have := hmod i
      simp only [unmask, List.getElem_map, List.getElem_range, List.getElem_mapIdx,
        List.getElem_take, List.getElem_drop]
      rw [List.getD_eq_getElem _ _ (by omega), List.getD_eq_getElem _ _ (by omega),
        List.getD_eq_getElem _ _ (by rw [List.length_take, List.length_drop]; omega),
        List.getElem_take, List.getElem_drop]
  · intro i hi
    have := List.mem_range.mp hi
    have := hmod i
    rw [getElem?_getD (by omega), getElem?_getD (by omega)]
    rfl

theorem fetchLength_eq {size7 : UInt8} {incoming rest : List UInt8} {consumed : Nat} {b0 b1 : UInt8}
    (hview : incoming.drop consumed = b0 :: b1 :: rest) :
    fetchLength size7 incoming consumed = some (payloadLength size7 rest) := by
  have hlen := congrArg List.length hview
  have hrest : incoming.drop (consumed + 2) = rest := by rw [← List.drop_drop, hview]; rfl
  simp only [List.length_drop, List.length_cons] at hlen
  have hbytes (n : Nat) (h : n ≤ rest.length) :
      fetchBytes incoming (consumed + 2) n = some (rest.take n) := by
    rw [fetchBytes_eq (by omega), hrest]
  simp only [fetchLength, payloadLength]
  split_ifs with h126 hfew hfew' hfew' h127 hfew hfew' hfew'
  · rfl
  · omega
  · omega
  · rw [hbytes 2 (by omega)]; rfl
  · rfl
  · omega
  · omega
  · rw [hbytes 8 (by omega)]; rfl
  · rfl

theorem fetchFrame_eq {max : Nat} {incoming : List UInt8} {consumed : Nat}
    (h : consumed ≤ incoming.length) :
    fetchFrame max incoming consumed = some (readFrame max (incoming.drop consumed)) := by
  have hlen : (incoming.drop consumed).length = incoming.length - consumed := List.length_drop
  have hat (i : Nat) : incoming[consumed + i]? = (incoming.drop consumed)[i]? :=
    List.getElem?_drop.symm
  have hat0 : incoming[consumed]? = (incoming.drop consumed)[0]? := hat 0
  rw [fetchFrame, if_neg (Nat.not_lt.mpr h), hat, hat0]
  dsimp only
  rw [← hlen]
  match hview : incoming.drop consumed with
  | [] => rfl
  | [_] => rfl
  | b0 :: b1 :: rest =>
    rw [if_neg (by simp)]
    simp only [List.getElem?_cons_zero, List.getElem?_cons_succ, Option.bind_some, readFrame,
      fetchLength_eq hview]
    cases hsize : payloadLength (b1 &&& 0x7f) rest with
    | none => rfl
    | some x =>
      obtain ⟨payloadSize, extended⟩ := x
      dsimp only
      split_ifs with hmask hmax hfew hvec
      all_goals try rfl
      rw [frameSize_lt (payloadLength_le hsize).1 (Nat.not_lt.mp hvec), ← hview, hlen] at hfew
      have hbody : consumed + (2 + extended + 4) = consumed + (2 + extended) + 4 := by omega
      rw [hbody, fetchUnmasked_eq (by omega), ← hview, List.drop_drop, List.drop_drop, hbody]
      rfl

theorem readFrame_needMore {max : Nat} {view : List UInt8} (h : readFrame max view = .needMore) :
    view.length ≤ max + 13 := by
  unfold readFrame at h
  split at h
  case h_2 hshort =>
    match view with
    | [] => exact Nat.zero_le _
    | [_] => exact Nat.le_add_left 1 _
    | b0 :: b1 :: rest => exact absurd rfl (hshort b0 b1 rest)
  case h_1 b0 b1 rest =>
    split at h
    case h_1 hnone =>
      simp only [payloadLength] at hnone
      simp only [List.length_cons]
      split_ifs at hnone <;> omega
    case h_2 payloadSize extended hsize =>
      have hext := (payloadLength_le hsize).1
      dsimp only at h
      split_ifs at h with hmask hmax hfew
      have := Nat.mod_le (2 + extended + 4 + payloadSize) sizeModulus
      omega

theorem readFrame_payload {max size : Nat} {view : List UInt8} {f : Frame}
    (h : readFrame max view = .frame f size) : f.payload.length ≤ max := by
  obtain ⟨_, _, _, payloadSize, _, _, _, _, hmax, _, _, rfl⟩ := readFrame_frame h
  simp only [unmask, List.length_mapIdx, List.length_take]
  omega

theorem Reassembly.accept_bounded {max : Nat} {r r' : Reassembly} {f : Frame} {m : Option Frame}
    (h : r.accept max f = (.ok m, r')) (hr : r.assembly.length ≤ max)
    (hf : f.payload.length ≤ max) :
    r'.assembly.length ≤ max ∧ ∀ g ∈ m, g.payload.length ≤ max := by
  have hcont : f.opcode = .continuation → r.assembling = true →
      (r.assembly ++ f.payload).length ≤ max := by
    intro hc hasm
    have hcontrol : ¬ f.opcode.isControl = true := by rw [hc]; decide
    rw [Reassembly.accept, if_neg hcontrol, if_pos hc, hasm] at h
    by_contra hbig
    rw [Bool.not_true, if_neg Bool.false_ne_true, if_pos (Nat.not_le.mp hbig)] at h
    cases (Prod.mk.inj h).1
  cases accept_cases h with
  | control _ => exact ⟨hr, by simpa using hf⟩
  | continued hc hasm _ => exact ⟨hcont hc hasm, by simp⟩
  | finished hc hasm _ => exact ⟨Nat.zero_le _, by simpa using hcont hc hasm⟩
  | whole _ _ _ => exact ⟨hr, by simpa using hf⟩
  | opened _ _ _ => exact ⟨hf, by simp⟩

namespace FrameParser

theorem push_incoming (p : FrameParser) (c : List UInt8) :
    (p.push c).incoming.length ≤ 4096 + p.unread.length + c.length ∨
      p.errored = true ∧ p.push c = p := by
  unfold push
  split_ifs with herr hall hmany
  · exact .inr ⟨herr, rfl⟩
  all_goals
    left
    simp only [unread, List.length_append, List.length_nil, List.length_drop]
    omega

theorem pass_needMore {p : FrameParser} (h : p.pass = .needMore) :
    p.unread.length ≤ p.maxPayloadSize + 13 := by
  apply readFrame_needMore
  unfold pass at h
  split at h
  case h_1 hread => exact hread
  case h_2 => cases h
  case h_3 => cases h
  case h_4 =>
    dsimp only at h
    split at h <;> cases h

theorem pass_consumed_lt {p p' : FrameParser} {f : Frame} {m : Option Frame}
    (h : p.pass = .consumed f p' m) :
    p.consumed < p'.consumed ∧ p'.consumed ≤ p'.incoming.length ∧ p'.incoming = p.incoming := by
  obtain ⟨size, r, hread, -, rfl⟩ := pass_consumed h
  have hsize := readFrame_size hread
  simp only [unread, List.length_drop] at hsize
  exact ⟨by dsimp only; omega, by dsimp only; omega, rfl⟩

theorem pass_failed_incoming {p p' : FrameParser} (h : p.pass = .failed p')
    (hc : p.consumed ≤ p.incoming.length) :
    p'.consumed ≤ p'.incoming.length ∧ p'.incoming = p.incoming := by
  unfold pass at h
  split at h
  case h_1 => cases h
  case h_2 => cases h; exact ⟨hc, rfl⟩
  case h_3 => cases h
  case h_4 f size hread =>
    have hsize := (readFrame_size hread).2
    simp only [unread, List.length_drop] at hsize
    dsimp only at h
    split at h
    · cases h
      exact ⟨by simp only [fail]; omega, rfl⟩
    · cases h

end FrameParser

inductive Pumping where
  | waiting
  | draining
  | threw (e : Exception)
  deriving DecidableEq, Repr

structure Pump where
  parser : FrameParser
  phase : Pumping := .waiting
  returned : List Frame := []

/-- A chunk read off the socket, or one pass of the loop inside `nextFrame`. -/
inductive PumpEvent where
  | chunk (bytes : List UInt8)
  | pass

namespace Pump

def new (maxPayloadSize : Nat) : Pump := { parser := .new maxPayloadSize }

def pass (p : Pump) : Pump :=
  if p.parser.errored then { p with phase := .waiting }
  else
    match p.parser.pass with
    | .needMore => { p with phase := .waiting }
    | .failed parser => { p with parser, phase := .waiting }
    | .threw e => { p with phase := .threw e }
    | .consumed _ parser message =>
      { p with parser, returned := p.returned ++ message.toList }

def step (p : Pump) : PumpEvent → Pump
  -- the next chunk is read only when the loop has ended
  | .chunk bytes =>
    if p.phase = .waiting then { p with parser := p.parser.push bytes, phase := .draining } else p
  | .pass => if p.phase = .draining then p.pass else p

def run (p : Pump) (events : List PumpEvent) : Pump := Runs.run step p events

structure Bounded (max n : Nat) (p : Pump) : Prop where
  limit : p.parser.maxPayloadSize = max
  consumed : p.parser.consumed ≤ p.parser.incoming.length
  incoming : p.parser.incoming.length ≤ 4096 + max + 13 + n
  unread : p.phase = .waiting → p.parser.errored = false → p.parser.unread.length ≤ max + 13
  assembly : p.parser.errored = false → p.parser.reassembly.assembly.length ≤ max
  returned : ∀ f ∈ p.returned, f.payload.length ≤ max

variable {max n : Nat}

theorem new_bounded (max n : Nat) : (new max).Bounded max n where
  limit := rfl
  consumed := Nat.le_refl _
  incoming := Nat.zero_le _
  unread _ _ := Nat.zero_le _
  assembly _ := Nat.zero_le _
  returned _ h := nomatch h

theorem Bounded.chunk {p : Pump} (h : p.Bounded max n) (hwait : p.phase = .waiting)
    (bytes : List UInt8) (hbytes : bytes.length ≤ n) :
    Bounded max n { p with parser := p.parser.push bytes, phase := .draining } := by
  cases herr : p.parser.errored with
  | true =>
    rw [FrameParser.push_errored herr]
    exact ⟨h.limit, h.consumed, h.incoming, fun hw => (nomatch hw), h.assembly, h.returned⟩
  | false =>
    obtain ⟨herr', hc, hlimit, hr, -⟩ := FrameParser.push_live herr h.consumed bytes
    refine ⟨hlimit.trans h.limit, hc, ?_, fun hw => (nomatch hw), fun _ => ?_, h.returned⟩
    · have hunread := h.unread hwait herr
      rcases p.parser.push_incoming bytes with hle | ⟨herr'', _⟩
      · dsimp only; omega
      · simp [herr] at herr''
    · dsimp only
      rw [hr]
      exact h.assembly herr

theorem Bounded.pass {p : Pump} (h : p.Bounded max n) (hdrain : p.phase = .draining) :
    p.pass.Bounded max n := by
  unfold Pump.pass
  split_ifs with herr
  · exact ⟨h.limit, h.consumed, h.incoming, fun _ herr' => by simp [herr] at herr', h.assembly,
      h.returned⟩
  rw [Bool.not_eq_true] at herr
  split
  case h_1 hpass =>
    refine ⟨h.limit, h.consumed, h.incoming, fun _ _ => ?_, h.assembly, h.returned⟩
    exact h.limit ▸ FrameParser.pass_needMore hpass
  case h_2 parser hpass =>
    obtain ⟨hc, hincoming⟩ := FrameParser.pass_failed_incoming hpass h.consumed
    have herr' := pass_failed hpass
    refine ⟨(FrameParser.pass_failed_unread hpass).1.trans h.limit, hc, ?_, ?_, ?_, h.returned⟩
    · simpa only [hincoming] using h.incoming
    · exact fun _ hno => absurd hno (by simp [herr'])
    · exact fun hno => absurd hno (by simp [herr'])
  case h_3 =>
    exact ⟨h.limit, h.consumed, h.incoming, fun hw => (nomatch hw), h.assembly, h.returned⟩
  case h_4 f parser message hpass =>
    obtain ⟨-, hc, hincoming⟩ := FrameParser.pass_consumed_lt hpass
    obtain ⟨size, r, hread, hacc, rfl⟩ := FrameParser.pass_consumed hpass
    have hf := readFrame_payload hread
    rw [h.limit] at hf hacc
    obtain ⟨hasm, hmessage⟩ := Reassembly.accept_bounded hacc (h.assembly herr) hf
    refine ⟨h.limit, hc, h.incoming, fun hw => ?_, fun _ => hasm, fun g hg => ?_⟩
    · simp [hdrain] at hw
    · rcases List.mem_append.mp hg with hold | hnew
      · exact h.returned g hold
      · exact hmessage g (Option.mem_toList.mp hnew)

theorem Bounded.step {p : Pump} (h : p.Bounded max n) {e : PumpEvent}
    (he : ∀ bytes, e = .chunk bytes → bytes.length ≤ n) : (p.step e).Bounded max n := by
  cases e with
  | chunk bytes =>
    simp only [Pump.step]
    split_ifs with hwait
    · exact h.chunk hwait bytes (he bytes rfl)
    · exact h
  | pass =>
    simp only [Pump.step]
    split_ifs with hdrain
    · exact h.pass hdrain
    · exact h

theorem bounded_run {events : List PumpEvent}
    (h : ∀ bytes, .chunk bytes ∈ events → bytes.length ≤ n) :
    ((new max).run events).Bounded max n := by
  have halong : Runs.Along step (fun _ e => ∀ bytes, e = .chunk bytes → bytes.length ≤ n)
      (new max) events :=
    Runs.along_of_forall_mem _ fun _ he bytes hchunk => h bytes (hchunk ▸ he)
  exact Runs.invariant_along (I := Bounded max n) (fun _ _ hp he => hp.step he)
    (new_bounded max n) halong

theorem errored_step {p : Pump} (h : p.parser.errored = true) (e : PumpEvent) :
    (p.step e).parser = p.parser ∧ (p.step e).returned = p.returned := by
  cases e with
  | chunk bytes =>
    simp only [step]
    split_ifs
    · exact ⟨FrameParser.push_errored h bytes, rfl⟩
    · exact ⟨rfl, rfl⟩
  | pass =>
    simp only [step, pass, h, if_true]
    split_ifs <;> exact ⟨rfl, rfl⟩

theorem errored_run {p : Pump} (h : p.parser.errored = true) (events : List PumpEvent) :
    (p.run events).parser = p.parser ∧ (p.run events).returned = p.returned := by
  induction events generalizing p with
  | nil => exact ⟨rfl, rfl⟩
  | cons e events ih =>
    obtain ⟨hparser, hreturned⟩ := errored_step h e
    obtain ⟨hrest, hrest'⟩ := ih (p := p.step e) (by rw [hparser]; exact h)
    exact ⟨hrest.trans hparser, hrest'.trans hreturned⟩

theorem run_append (p : Pump) (a b : List PumpEvent) : p.run (a ++ b) = (p.run a).run b :=
  Runs.run_append p a b

def afterCall (returned : List Frame) : Except Exception (Option Frame) × FrameParser → Pump
  | (.ok (some message), parser) => ⟨parser, .draining, returned ++ [message]⟩
  | (.ok none, parser) => ⟨parser, .waiting, returned⟩
  | (.error e, parser) => ⟨parser, .threw e, returned⟩

theorem step_pass (parser : FrameParser) (returned : List Frame) :
    step ⟨parser, .draining, returned⟩ .pass = pass ⟨parser, .draining, returned⟩ := by
  rw [step, if_pos rfl]

theorem nextFrame_passes (parser : FrameParser) (returned : List Frame) :
    ∃ k, run ⟨parser, .draining, returned⟩ (List.replicate k .pass) =
      afterCall returned parser.nextFrame := by
  have hone {p : FrameParser} (herr : ¬ p.errored = true) :
      run ⟨p, .draining, returned⟩ (List.replicate 1 .pass) = pass ⟨p, .draining, returned⟩ :=
    step_pass p returned
  induction parser using FrameParser.nextFrame.induct with
  | case1 p herr =>
    refine ⟨1, ?_⟩
    rw [FrameParser.nextFrame_errored herr]
    exact (step_pass p returned).trans (if_pos herr)
  | case2 p herr hpass =>
    refine ⟨1, ?_⟩
    rw [hone herr, pass, if_neg herr, FrameParser.nextFrame_live (by simpa using herr), hpass]
    rfl
  | case3 p herr p' hpass =>
    refine ⟨1, ?_⟩
    rw [hone herr, pass, if_neg herr, FrameParser.nextFrame_live (by simpa using herr), hpass]
    rfl
  | case4 p herr e hpass =>
    refine ⟨1, ?_⟩
    rw [hone herr, pass, if_neg herr, FrameParser.nextFrame_live (by simpa using herr), hpass]
    rfl
  | case5 p herr f p' message hpass =>
    refine ⟨1, ?_⟩
    rw [hone herr, pass, if_neg herr, FrameParser.nextFrame_live (by simpa using herr), hpass]
    rfl
  | case6 p herr f p' hpass ih =>
    obtain ⟨k, ih⟩ := ih
    refine ⟨k + 1, ?_⟩
    have hpass' : pass ⟨p, .draining, returned⟩ = ⟨p', .draining, returned⟩ := by
      rw [pass, if_neg herr, hpass]
      simp
    rw [FrameParser.nextFrame_live (by simpa using herr), hpass, ← ih, List.replicate_succ]
    show run (step _ .pass) _ = _
    rw [step_pass, hpass']

def afterDrain (returned : List Frame) (d : FrameParser.Drained) : Pump :=
  ⟨d.parser, match d.thrown with | none => .waiting | some e => .threw e, returned ++ d.frames⟩

theorem drain_passes (parser : FrameParser) (returned : List Frame) :
    ∃ k, run ⟨parser, .draining, returned⟩ (List.replicate k .pass) =
      afterDrain returned parser.drain := by
  induction parser using FrameParser.drain.induct generalizing returned with
  | case1 p message p' hnext ih =>
    obtain ⟨k, hk⟩ := nextFrame_passes p returned
    obtain ⟨j, hj⟩ := ih (returned ++ [message])
    refine ⟨k + j, ?_⟩
    rw [List.replicate_add, run_append, hk, hnext, afterCall, hj, FrameParser.drain_message hnext]
    simp only [afterDrain, List.append_assoc, List.singleton_append]
  | case2 p p' hnext =>
    obtain ⟨k, hk⟩ := nextFrame_passes p returned
    refine ⟨k, ?_⟩
    rw [hk, hnext, FrameParser.drain_none hnext]
    simp only [afterCall, afterDrain, List.append_nil]
  | case3 p p' e hnext =>
    obtain ⟨k, hk⟩ := nextFrame_passes p returned
    refine ⟨k, ?_⟩
    rw [hk, hnext, FrameParser.drain_threw hnext]
    simp only [afterCall, afterDrain, List.append_nil]

/-- At every point of a run that reads chunks of at most `n` bytes and drains the parser after
each: no size below zero, no byte read outside the buffer, bounded memory and payloads, silence
after an error, and a loop that moves forward until it ends. -/
theorem parser_memory_bounded (max n : Nat) (events : List PumpEvent)
    (h : ∀ bytes, .chunk bytes ∈ events → bytes.length ≤ n) :
    let p := (new max).run events
    p.parser.consumed ≤ p.parser.incoming.length ∧
      fetchFrame max p.parser.incoming p.parser.consumed =
        some (readFrame max p.parser.unread) ∧
      p.parser.incoming.length ≤ 4096 + max + 13 + n ∧
      (p.parser.hasError = false → p.parser.reassembly.assembly.length ≤ max) ∧
      (∀ f ∈ p.returned, f.payload.length ≤ max) ∧
      (p.parser.hasError = true → ∀ more,
        (p.run more).parser = p.parser ∧ (p.run more).returned = p.returned) ∧
      (∀ f parser message, p.parser.pass = .consumed f parser message →
        p.parser.consumed < parser.consumed) ∧
      ∃ k, (p.run (List.replicate k .pass)).phase ≠ .draining := by
  obtain ⟨-, hc, hincoming, -, hassembly, hreturned⟩ := bounded_run h
  refine ⟨hc, fetchFrame_eq hc, hincoming, hassembly, hreturned, errored_run,
    fun _ _ _ hpass => (FrameParser.pass_consumed_lt hpass).1, ?_⟩
  generalize (new max).run events = p
  obtain ⟨parser, phase, returned⟩ := p
  cases phase with
  | waiting => exact ⟨0, fun h => nomatch h⟩
  | threw e => exact ⟨0, fun h => nomatch h⟩
  | draining =>
    obtain ⟨k, hk⟩ := drain_passes parser returned
    refine ⟨k, ?_⟩
    rw [hk, afterDrain]
    dsimp only
    split <;> exact fun h => nomatch h

theorem parser_memory_bounded_chunks :
    let p := (new 5).run [.chunk [0x89, 0x81, 1], .pass, .chunk [2, 3, 4, 0x41], .pass, .pass,
      .chunk [0x82, 0xff], .pass]
    p.returned = [⟨.ping, true, [0x40]⟩] ∧ p.parser.incoming.length ≤ 4096 + 5 + 13 + 4 :=
  ⟨by decide +kernel, (parser_memory_bounded 5 4 _ (by simp)).2.2.1⟩

end Pump
end Ppm.WebSocket

import Mathlib.Data.List.Nodup
import Mathlib.Data.List.Perm.Subperm
import PhonePostMix.Library.Runs
import PhonePostMix.WebSocket.ParserDecoder

/-! Which consumed frames end up in which message. The ledger follows the parser's loop
pass by pass; nothing in the parser reads it. -/

namespace Ppm.WebSocket
open Streaming

abbrev Placed := Frame × Nat

structure Ledger where
  consumed : List Frame := []
  -- Data messages returned, each with the frames whose payloads it is made of.
  returned : List (Frame × List Placed) := []
  -- The frames whose payloads are in the assembly buffer.
  inProgress : List Placed := []

def payloads (parts : List Placed) : List UInt8 := parts.flatMap (·.1.payload)

namespace Ledger

def dataFrames (l : Ledger) : List Placed :=
  l.consumed.zipIdx.filter fun x => !x.1.opcode.isControl

def attributed (l : Ledger) : List Placed := l.returned.flatMap (·.2) ++ l.inProgress

def record (l : Ledger) (f : Frame) (message : Option Frame) : Ledger :=
  -- follows the assembly buffer: a continuation joins it, an opening frame that is not final
  -- replaces it, a final continuation empties it
  let placed : Placed := (f, l.consumed.length)
  let l := { l with consumed := l.consumed ++ [f] }
  if f.opcode.isControl then l
  else if f.opcode = .continuation then
    match message with
    | some m =>
      { l with returned := l.returned ++ [(m, l.inProgress ++ [placed])], inProgress := [] }
    | none => { l with inProgress := l.inProgress ++ [placed] }
  else
    match message with
    | some m => { l with returned := l.returned ++ [(m, [placed])] }
    | none => { l with inProgress := [placed] }

end Ledger

def Frame.Opens (f : Frame) : Prop := f.opcode.isControl = false ∧ f.opcode ≠ .continuation

/-- The message of one opening data frame and the continuations after it. -/
def MadeOf (opcode : Opcode) (payload : List UInt8) : List Placed → Prop
  | [] => False
  | first :: rest => first.1.Opens ∧ (∀ c ∈ rest, c.1.opcode = .continuation) ∧
      opcode = first.1.opcode ∧ payload = payloads (first :: rest)

/-- Nothing is discarded or spliced: the frames of the messages returned, followed by those
of the message in progress, are the data frames consumed, and every message is made of an
opening frame and its continuations. -/
structure Ledger.Lossless (l : Ledger) (r : Reassembly) : Prop where
  inOrder : l.attributed = l.dataFrames
  returned : ∀ m ∈ l.returned, MadeOf m.1.opcode m.1.payload m.2
  inProgress : if r.assembling then MadeOf r.assemblyOpcode r.assembly l.inProgress
    else l.inProgress = []

structure Observed where
  parser : FrameParser
  ledger : Ledger

def Observed.step (o : Observed) : Op UInt8 → Observed
  -- a push, or one pass of the loop in `nextFrame`
  | .push chunk => { o with parser := o.parser.push chunk }
  | .next =>
    if o.parser.errored then o
    else
      match o.parser.pass with
      | .needMore => o
      | .threw _ => o
      | .failed p => { o with parser := p }
      | .consumed f p message => ⟨p, o.ledger.record f message⟩

def observe (max : Nat) (ops : List (Op UInt8)) : Observed :=
  Runs.run Observed.step ⟨.new max, {}⟩ ops

def nestingStep (unfinished : Option Bool) (f : Frame) : Option Bool :=
  -- whether a data message is unfinished after some frames, read off their opcodes and FIN bits;
  -- none once a frame has opened a message inside another or continued none
  match unfinished with
  | none => none
  | some open_ =>
    if f.opcode.isControl then some open_
    else if f.opcode = .continuation then if open_ then some (!f.fin) else none
    else if open_ then none
    else some (!f.fin)

def nesting (frames : List Frame) : Option Bool := frames.foldl nestingStep (some false)

inductive Accepted (r : Reassembly) (f : Frame) : Option Frame → Reassembly → Prop where
  | control : f.opcode.isControl = true → Accepted r f (some ⟨f.opcode, true, f.payload⟩) r
  | continued : f.opcode = .continuation → r.assembling = true → f.fin = false →
      Accepted r f none { r with assembly := r.assembly ++ f.payload }
  | finished : f.opcode = .continuation → r.assembling = true → f.fin = true →
      Accepted r f (some ⟨r.assemblyOpcode, true, r.assembly ++ f.payload⟩)
        { r with assembling := false, assembly := [] }
  | whole : f.opcode.isControl = false → f.opcode ≠ .continuation → f.fin = true →
      Accepted r f (some ⟨f.opcode, true, f.payload⟩) r
  | opened : f.opcode.isControl = false → f.opcode ≠ .continuation → f.fin = false →
      Accepted r f none ⟨true, f.opcode, f.payload⟩

theorem accept_cases {max : Nat} {r r' : Reassembly} {f : Frame} {m : Option Frame}
    (h : r.accept max f = (.ok m, r')) : Accepted r f m r' := by
  unfold Reassembly.accept at h
  by_cases hcontrol : f.opcode.isControl = true
  · rw [if_pos hcontrol] at h
    obtain ⟨⟨⟩, rfl⟩ := Prod.mk.inj h
    exact .control hcontrol
  rw [if_neg hcontrol] at h
  simp only [Bool.not_eq_true] at hcontrol
  by_cases hcont : f.opcode = .continuation
  · rw [if_pos hcont] at h
    cases hasm : r.assembling with
    | false => simp [hasm] at h
    | true =>
      simp only [hasm, Bool.not_true, Bool.false_eq_true, if_false] at h
      split at h
      · cases (Prod.mk.inj h).1
      cases hfin : f.fin with
      | false =>
        simp only [hfin, Bool.not_false, if_true, Prod.mk.injEq, Except.ok.injEq] at h
        obtain ⟨rfl, rfl⟩ := h
        exact hasm ▸ .continued hcont hasm hfin
      | true =>
        simp only [hfin, Bool.not_true, Bool.false_eq_true, if_false, Prod.mk.injEq,
          Except.ok.injEq] at h
        obtain ⟨rfl, rfl⟩ := h
        exact .finished hcont hasm hfin
  rw [if_neg hcont] at h
  cases hfin : f.fin with
  | true =>
    simp only [hfin, if_true, Prod.mk.injEq, Except.ok.injEq] at h
    obtain ⟨rfl, rfl⟩ := h
    exact .whole hcontrol hcont hfin
  | false =>
    simp only [hfin, Bool.false_eq_true, if_false, Prod.mk.injEq, Except.ok.injEq] at h
    obtain ⟨rfl, rfl⟩ := h
    exact .opened hcontrol hcont hfin

theorem nesting_snoc (frames : List Frame) (f : Frame) :
    nesting (frames ++ [f]) = nestingStep (nesting frames) f := by
  simp only [nesting, List.foldl_append, List.foldl_cons, List.foldl_nil]

theorem nestingStep_continuation {f : Frame} (h : f.opcode = .continuation) :
    nestingStep (some true) f = some (!f.fin) := by
  have hdata : f.opcode.isControl = false := by rw [h]; decide
  rw [nestingStep, if_neg (by simp [hdata]), if_pos h, if_pos rfl]

theorem dataFrames_snoc (fs : List Frame) (f : Frame) :
    ((fs ++ [f]).zipIdx.filter fun x => !x.1.opcode.isControl) =
      (fs.zipIdx.filter fun x => !x.1.opcode.isControl) ++
        if f.opcode.isControl then [] else [(f, fs.length)] := by
  rw [List.zipIdx_append, List.filter_append]
  cases h : f.opcode.isControl <;> simp [h]

theorem dataFrames_place_lt {l : Ledger} {x : Placed} (h : x ∈ l.dataFrames) :
    x.2 < l.consumed.length := by
  have hmem := (List.mem_filter.mp h).1
  have := List.snd_lt_of_mem_zipIdx hmem
  omega

theorem payloads_append (a b : List Placed) : payloads (a ++ b) = payloads a ++ payloads b :=
  List.flatMap_append

theorem MadeOf.snoc {opcode : Opcode} {payload : List UInt8} {parts : List Placed}
    (h : MadeOf opcode payload parts) {f : Frame} (hf : f.opcode = .continuation) (n : Nat) :
    MadeOf opcode (payload ++ f.payload) (parts ++ [(f, n)]) := by
  match parts, h with
  | first :: rest, ⟨hopens, hrest, hopcode, hpayload⟩ =>
    refine ⟨hopens, fun c hc => ?_, hopcode, ?_⟩
    · rcases List.mem_append.mp hc with hc | hc
      · exact hrest c hc
      · rw [List.mem_singleton.mp hc]
        exact hf
    · change payload ++ f.payload = payloads ((first :: rest) ++ [(f, n)])
      rw [hpayload, payloads_append]
      simp [payloads]

theorem madeOf_singleton {f : Frame} (h : f.Opens) (n : Nat) :
    MadeOf f.opcode f.payload [(f, n)] :=
  ⟨h, fun _ hc => (nomatch hc), rfl, by simp [payloads]⟩

structure Ledger.Sound (l : Ledger) (r : Reassembly) : Prop where
  idle : r.assembling = false → l.inProgress = []
  busy : r.assembling = true → MadeOf r.assemblyOpcode r.assembly l.inProgress
  returned : ∀ m ∈ l.returned, MadeOf m.1.opcode m.1.payload m.2
  nodup : l.attributed.Nodup
  consumed : ∀ x ∈ l.attributed, x ∈ l.dataFrames

theorem not_control_of_continuation {f : Frame} (h : f.opcode = .continuation) :
    f.opcode.isControl = false := by
  rw [h]
  decide

theorem Ledger.record_consumed (l : Ledger) (f : Frame) (m : Option Frame) :
    (l.record f m).consumed = l.consumed ++ [f] := by
  unfold record
  split_ifs <;> cases m <;> rfl

theorem Ledger.record_dataFrames (l : Ledger) (f : Frame) (m : Option Frame) :
    (l.record f m).dataFrames =
      l.dataFrames ++ if f.opcode.isControl then [] else [(f, l.consumed.length)] := by
  rw [Ledger.dataFrames, record_consumed, dataFrames_snoc]
  rfl

theorem Ledger.Sound.fresh {l : Ledger} {r : Reassembly} (h : l.Sound r) (f : Frame) :
    (f, l.consumed.length) ∉ l.attributed := fun hmem =>
  absurd (dataFrames_place_lt (h.consumed _ hmem)) (Nat.lt_irrefl _)

section Record
variable {l : Ledger} {f : Frame} {m : Option Frame}

theorem record_control (h : f.opcode.isControl = true) :
    l.record f m = { l with consumed := l.consumed ++ [f] } := by
  simp only [Ledger.record, h, if_true]

theorem record_continued (h : f.opcode = .continuation) :
    l.record f none = { l with
      consumed := l.consumed ++ [f], inProgress := l.inProgress ++ [(f, l.consumed.length)] } := by
  rw [Ledger.record, if_neg (by simp [not_control_of_continuation h]), if_pos h]

theorem record_finished (h : f.opcode = .continuation) (msg : Frame) :
    l.record f (some msg) = { l with
      consumed := l.consumed ++ [f], inProgress := []
      returned := l.returned ++ [(msg, l.inProgress ++ [(f, l.consumed.length)])] } := by
  rw [Ledger.record, if_neg (by simp [not_control_of_continuation h]), if_pos h]

theorem record_whole (h : f.opcode.isControl = false) (hc : f.opcode ≠ .continuation)
    (msg : Frame) :
    l.record f (some msg) = { l with
      consumed := l.consumed ++ [f]
      returned := l.returned ++ [(msg, [(f, l.consumed.length)])] } := by
  simp [Ledger.record, h, hc]

theorem record_opened (h : f.opcode.isControl = false) (hc : f.opcode ≠ .continuation) :
    l.record f none = { l with
      consumed := l.consumed ++ [f], inProgress := [(f, l.consumed.length)] } := by
  simp [Ledger.record, h, hc]

end Record

theorem attributed_record {l : Ledger} {r r' : Reassembly} {f : Frame} {m : Option Frame}
    (hacc : Accepted r f m r') :
    (l.record f m).attributed.Subperm
      (l.attributed ++ if f.opcode.isControl then [] else [(f, l.consumed.length)]) := by
  unfold Ledger.attributed
  cases hacc with
  | control hcontrol =>
    rw [record_control hcontrol, if_pos hcontrol, List.append_nil]
  | continued hcont _ _ =>
    rw [record_continued hcont, if_neg (by simp [not_control_of_continuation hcont])]
    simp only [List.append_assoc]
    exact .refl _
  | finished hcont _ _ =>
    rw [record_finished hcont, if_neg (by simp [not_control_of_continuation hcont])]
    simp only [List.flatMap_append, List.flatMap_singleton, List.append_nil, List.append_assoc]
    exact .refl _
  | whole hcontrol hcont _ =>
    rw [record_whole hcontrol hcont, if_neg (by simp [hcontrol])]
    simp only [List.flatMap_append, List.flatMap_singleton, List.append_assoc]
    exact (List.perm_append_comm.append_left _).subperm
  | opened hcontrol hcont _ =>
    rw [record_opened hcontrol hcont, if_neg (by simp [hcontrol])]
    exact ((List.sublist_append_left _ l.inProgress).append_right _).subperm

theorem Ledger.Sound.record {l : Ledger} {r r' : Reassembly} {f : Frame} {m : Option Frame}
    (h : l.Sound r) (hacc : Accepted r f m r') : (l.record f m).Sound r' := by
  -- what the frame attributes is new, so nothing is attributed twice
  have hattr := attributed_record (l := l) hacc
  have hnodup : (l.attributed ++
      if f.opcode.isControl then [] else [(f, l.consumed.length)]).Nodup := by
    split_ifs
    · rw [List.append_nil]
      exact h.nodup
    · rw [← List.concat_eq_append]
      exact List.Nodup.concat (h.fresh f) h.nodup
  have hnodup' : (l.record f m).attributed.Nodup := by
    obtain ⟨parts, hperm, hsub⟩ := hattr
    exact hperm.nodup_iff.mp (hsub.nodup hnodup)
  have hconsumed : ∀ x ∈ (l.record f m).attributed, x ∈ (l.record f m).dataFrames := by
    intro x hx
    rw [l.record_dataFrames f m]
    rcases List.mem_append.mp (hattr.subset hx) with hx | hx
    · exact List.mem_append_left _ (h.consumed x hx)
    · exact List.mem_append_right _ hx
  cases hacc with
  | control hcontrol =>
    rw [record_control hcontrol] at hnodup' hconsumed ⊢
    exact ⟨h.idle, h.busy, h.returned, hnodup', hconsumed⟩
  | continued hcont hasm _ =>
    rw [record_continued hcont] at hnodup' hconsumed ⊢
    exact ⟨fun hno => absurd hno (by simp [hasm]), fun _ => (h.busy hasm).snoc hcont _, h.returned,
      hnodup', hconsumed⟩
  | finished hcont hasm _ =>
    rw [record_finished hcont] at hnodup' hconsumed ⊢
    refine ⟨fun _ => rfl, fun hyes => absurd hyes (by simp), fun m hm => ?_, hnodup', hconsumed⟩
    rcases List.mem_append.mp hm with hm | hm
    · exact h.returned m hm
    · rw [List.mem_singleton.mp hm]
      exact (h.busy hasm).snoc hcont _
  | whole hcontrol hcont _ =>
    rw [record_whole hcontrol hcont] at hnodup' hconsumed ⊢
    refine ⟨h.idle, h.busy, fun m hm => ?_, hnodup', hconsumed⟩
    rcases List.mem_append.mp hm with hm | hm
    · exact h.returned m hm
    · rw [List.mem_singleton.mp hm]
      exact madeOf_singleton ⟨hcontrol, hcont⟩ _
  | opened hcontrol hcont _ =>
    rw [record_opened hcontrol hcont] at hnodup' hconsumed ⊢
    exact ⟨fun hno => absurd hno (by simp), fun _ => madeOf_singleton ⟨hcontrol, hcont⟩ _,
      h.returned, hnodup', hconsumed⟩

/-- While the frames nest, the parser knows whether a message is unfinished and every frame
is accounted for in order; once they do not, some frame is missing or out of place for good. -/
def Ledger.Tracks (l : Ledger) (r : Reassembly) : Prop :=
  match nesting l.consumed with
  | some unfinished => r.assembling = unfinished ∧ l.attributed = l.dataFrames
  | none => l.attributed ≠ l.dataFrames

theorem attributed_in_order {l : Ledger} {r r' : Reassembly} {f : Frame} {m : Option Frame}
    (hs : l.Sound r) (hacc : Accepted r f m r') (hopen : f.Opens → r.assembling = false) :
    (l.record f m).attributed =
      l.attributed ++ if f.opcode.isControl then [] else [(f, l.consumed.length)] := by
  unfold Ledger.attributed
  cases hacc with
  | control hcontrol => rw [record_control hcontrol, if_pos hcontrol, List.append_nil]
  | continued hcont _ _ =>
    rw [record_continued hcont, if_neg (by simp [not_control_of_continuation hcont])]
    simp only [List.append_assoc]
  | finished hcont _ _ =>
    rw [record_finished hcont, if_neg (by simp [not_control_of_continuation hcont])]
    simp only [List.flatMap_append, List.flatMap_singleton, List.append_nil, List.append_assoc]
  | whole hcontrol hcont _ =>
    have hidle := hs.idle (hopen ⟨hcontrol, hcont⟩)
    rw [record_whole hcontrol hcont, if_neg (by simp [hcontrol])]
    simp only [List.flatMap_append, List.flatMap_singleton, hidle, List.append_nil]
  | opened hcontrol hcont _ =>
    have hidle := hs.idle (hopen ⟨hcontrol, hcont⟩)
    rw [record_opened hcontrol hcont, if_neg (by simp [hcontrol])]
    simp only [hidle, List.append_nil]

theorem attributed_out_of_order {l : Ledger} {r r' : Reassembly} {f : Frame} {m : Option Frame}
    (hs : l.Sound r) (hacc : Accepted r f m r') (hf : f.Opens) (hasm : r.assembling = true) :
    (l.record f m).attributed ≠ l.dataFrames ++ [(f, l.consumed.length)] := by
  obtain ⟨first, rest, hprog⟩ : ∃ first rest, l.inProgress = first :: rest := by
    have hmsg := hs.busy hasm
    match hl : l.inProgress with
    | [] => rw [hl] at hmsg; exact hmsg.elim
    | first :: rest => exact ⟨first, rest, rfl⟩
  have hfirst : first ∈ l.dataFrames := by
    apply hs.consumed
    simp [Ledger.attributed, hprog]
  intro heq
  unfold Ledger.attributed at heq
  cases hacc with
  | control hcontrol => exact absurd hf.1 (by simp [hcontrol])
  | continued hcont _ _ => exact hf.2 hcont
  | finished hcont _ _ => exact hf.2 hcont
  | whole hcontrol hcont _ =>
    -- the last frame attributed is an earlier one, still in the buffer
    rw [record_whole hcontrol hcont] at heq
    have hlast := congrArg List.getLast? heq
    rw [List.getLast?_append_of_ne_nil _ (by simp [hprog]), List.getLast?_concat] at hlast
    have hmem : (f, l.consumed.length) ∈ l.attributed :=
      List.mem_append_right _ (List.mem_of_getLast? hlast)
    exact hs.fresh f hmem
  | opened hcontrol hcont _ =>
    -- the first frame of the replaced buffer is attributed nowhere
    rw [record_opened hcontrol hcont] at heq
    have hreturned := (List.append_inj' heq rfl).1
    have hnodup := hs.nodup
    rw [Ledger.attributed, hprog] at hnodup
    exact (List.disjoint_of_nodup_append hnodup) (hreturned ▸ hfirst) (by simp)

theorem Ledger.Tracks.record {l : Ledger} {r r' : Reassembly} {f : Frame} {m : Option Frame}
    (hs : l.Sound r) (h : l.Tracks r) (hacc : Accepted r f m r') : (l.record f m).Tracks r' := by
  unfold Tracks at h ⊢
  rw [record_consumed, nesting_snoc, record_dataFrames]
  by_cases hinside : f.Opens ∧ r.assembling = true
  · -- from here on some frame is missing or out of place, whatever follows
    obtain ⟨hf, hasm⟩ := hinside
    have hne := attributed_out_of_order hs hacc hf hasm
    have hstep : nestingStep (nesting l.consumed) f = none := by
      cases hn : nesting l.consumed with
      | none => rfl
      | some b =>
        rw [hn] at h
        simp [nestingStep, hf.1, hf.2, ← h.1, hasm]
    rw [hstep, if_neg (by simp [hf.1])]
    exact hne
  · have horder := attributed_in_order hs hacc fun hf => by simpa [hf] using hinside
    rw [horder]
    cases hn : nesting l.consumed with
    | none =>
      rw [hn] at h
      exact fun heq => h (List.append_cancel_right heq)
    | some b =>
      rw [hn] at h
      obtain ⟨hb, hall⟩ := h
      rw [hall]
      cases hacc with
      | control hcontrol => simpa [nestingStep, hcontrol] using hb
      | continued hcont hasm hfin =>
        simp [← hb, hasm, nestingStep_continuation hcont, hfin]
      | finished hcont hasm hfin =>
        simp [← hb, hasm, nestingStep_continuation hcont, hfin]
      | whole hcontrol hcont hfin =>
        have hidle : r.assembling = false := by simpa [Frame.Opens, hcontrol, hcont] using hinside
        simp [nestingStep, hcontrol, hcont, ← hb, hidle, hfin]
      | opened hcontrol hcont hfin =>
        have hidle : r.assembling = false := by simpa [Frame.Opens, hcontrol, hcont] using hinside
        simp [nestingStep, hcontrol, hcont, ← hb, hidle, hfin]

theorem push_reassembly (p : FrameParser) (c : List UInt8) :
    (p.push c).reassembly = p.reassembly ∧ (p.push c).hasError = p.hasError := by
  unfold FrameParser.push
  split_ifs <;> exact ⟨rfl, rfl⟩

def Observed.Inv (o : Observed) : Prop :=
  o.parser.hasError = false →
    o.ledger.Sound o.parser.reassembly ∧ o.ledger.Tracks o.parser.reassembly

theorem pass_failed {p p' : FrameParser} (h : p.pass = .failed p') : p'.errored = true := by
  unfold FrameParser.pass at h
  split at h
  case h_1 => cases h
  case h_2 => cases h; rfl
  case h_3 => cases h
  case h_4 =>
    dsimp only at h
    split at h
    · cases h; rfl
    · cases h

theorem Observed.step_inv (o : Observed) (op : Op UInt8) (h : o.Inv) : (o.step op).Inv := by
  cases op with
  | push chunk =>
    obtain ⟨hr, herr⟩ := push_reassembly o.parser chunk
    intro hno
    change (o.parser.push chunk).hasError = false at hno
    rw [herr] at hno
    simpa only [Observed.step, hr] using h hno
  | next =>
    rw [Observed.step]
    by_cases herr : o.parser.errored = true
    · rwa [if_pos herr]
    rw [if_neg herr]
    split
    case h_1 => exact h
    case h_2 => exact h
    case h_3 p' hpass =>
      exact fun hno => absurd hno (by simp [FrameParser.hasError, pass_failed hpass])
    case h_4 f p' message hpass =>
      intro _
      obtain ⟨size, r, -, hacc, rfl⟩ := FrameParser.pass_consumed hpass
      obtain ⟨hsound, htracks⟩ := h (by simpa [FrameParser.hasError] using herr)
      have hacc := accept_cases hacc
      exact ⟨hsound.record hacc, htracks.record hsound hacc⟩

theorem Ledger.initial_inv (max : Nat) : (⟨.new max, {}⟩ : Observed).Inv := fun _ =>
  ⟨⟨fun _ => rfl, fun h => (nomatch h), fun _ h => (nomatch h), .nil, fun _ h => (nomatch h)⟩,
    rfl, rfl⟩

theorem observe_inv (max : Nat) (ops : List (Op UInt8)) : (observe max ops).Inv :=
  Runs.invariant Observed.step_inv (Ledger.initial_inv max) ops

section Consumed
variable {max : Nat}

/-- The frames that some bytes begin with, each read where the one before it ends, and the bytes
behind them. -/
inductive ReadsFrames (max : Nat) : List UInt8 → List Frame → List UInt8 → Prop where
  | done (view : List UInt8) : ReadsFrames max view [] view
  | frame {view rest : List UInt8} {f : Frame} {size : Nat} {fs : List Frame} :
      readFrame max view = .frame f size → ReadsFrames max (view.drop size) fs rest →
      ReadsFrames max view (f :: fs) rest

theorem ReadsFrames.append {view rest : List UInt8} {fs : List Frame}
    (h : ReadsFrames max view fs rest) (more : List UInt8) :
    ReadsFrames max (view ++ more) fs (rest ++ more) := by
  induction h with
  | done view => exact .done _
  | frame hread _ ih =>
    refine .frame (readFrame_append_eq hread (by simp) more) ?_
    rwa [List.drop_append_of_le_length (readFrame_size hread).2]

theorem ReadsFrames.snoc {view rest : List UInt8} {fs : List Frame} {f : Frame} {size : Nat}
    (h : ReadsFrames max view fs rest) (hread : readFrame max rest = .frame f size) :
    ReadsFrames max view (fs ++ [f]) (rest.drop size) := by
  induction h with
  | done view => exact .frame hread (.done _)
  | frame hfirst _ ih => exact .frame hfirst (ih hread)

structure Observed.Read (max : Nat) (bytes : List UInt8) (o : Observed) : Prop where
  limit : o.parser.maxPayloadSize = max
  read : ∃ rest, ReadsFrames max bytes o.ledger.consumed rest ∧
    (o.parser.errored = false → o.parser.consumed ≤ o.parser.incoming.length ∧
      rest = o.parser.unread)

theorem Observed.Read.push {bytes : List UInt8} {o : Observed} (h : o.Read max bytes)
    (chunk : List UInt8) : (o.step (.push chunk)).Read max (bytes ++ chunk) := by
  obtain ⟨rest, hreads, hlive⟩ := h.read
  refine ⟨(o.parser.push_maxPayloadSize chunk).trans h.limit, rest ++ chunk, hreads.append chunk,
    fun hno => ?_⟩
  have herr : o.parser.errored = false := (push_reassembly o.parser chunk).2.symm.trans hno
  obtain ⟨hle, rfl⟩ := hlive herr
  obtain ⟨-, hle', -, -, hunread⟩ := FrameParser.push_live herr hle chunk
  exact ⟨hle', hunread.symm⟩

theorem Observed.Read.next {bytes : List UInt8} {o : Observed} (h : o.Read max bytes) :
    (o.step .next).Read max bytes := by
  obtain ⟨rest, hreads, hlive⟩ := h.read
  rw [Observed.step]
  by_cases herr : o.parser.errored = true
  · rwa [if_pos herr]
  obtain ⟨hle, rfl⟩ := hlive (by simpa using herr)
  rw [if_neg herr]
  split
  case h_1 => exact h
  case h_2 => exact h
  case h_3 p' hpass =>
    obtain ⟨hlimit, -⟩ := FrameParser.pass_failed_unread hpass
    refine ⟨hlimit.trans h.limit, _, hreads, fun hno => ?_⟩
    exact absurd hno (by simp [pass_failed hpass])
  case h_4 f p' message hpass =>
    obtain ⟨size, r, hread, -, rfl⟩ := FrameParser.pass_consumed hpass
    refine ⟨h.limit, o.parser.unread.drop size, ?_, fun _ => ⟨?_, ?_⟩⟩
    · rw [Ledger.record_consumed]
      exact hreads.snoc (h.limit ▸ hread)
    · have hsize := (readFrame_size hread).2
      rw [FrameParser.unread, List.length_drop] at hsize
      show o.parser.consumed + size ≤ o.parser.incoming.length
      omega
    · exact List.drop_drop

theorem observe_read (max : Nat) (ops : List (Op UInt8)) :
    (observe max ops).Read max (pushed ops) := by
  suffices key : ∀ (ops : List (Op UInt8)) (bytes : List UInt8) (o : Observed),
      o.Read max bytes → (Runs.run Observed.step o ops).Read max (bytes ++ pushed ops) from
    key ops [] _ ⟨rfl, [], .done _, fun _ => ⟨Nat.le_refl _, rfl⟩⟩
  intro ops
  induction ops with
  | nil => exact fun bytes o h => by rwa [pushed, List.append_nil]
  | cons op ops ih =>
    intro bytes o h
    cases op with
    | push chunk =>
      rw [pushed, ← List.append_assoc]
      exact ih _ _ (h.push chunk)
    | next => exact ih _ _ h.next

end Consumed

/-- At every point without an error, the parser has lost and spliced nothing exactly when no
frame it consumed opened a message inside another. -/
theorem lossless_iff_nested (max : Nat) (ops : List (Op UInt8))
    (h : (observe max ops).parser.hasError = false) :
    (observe max ops).ledger.Lossless (observe max ops).parser.reassembly ↔
      (nesting (observe max ops).ledger.consumed).isSome := by
  obtain ⟨hsound, htracks⟩ := observe_inv max ops h
  unfold Ledger.Tracks at htracks
  constructor
  · intro hlossless
    cases hn : nesting (observe max ops).ledger.consumed with
    | none =>
      rw [hn] at htracks
      exact absurd hlossless.inOrder htracks
    | some unfinished => rfl
  · intro hnested
    obtain ⟨unfinished, hn⟩ := Option.isSome_iff_exists.mp hnested
    rw [hn] at htracks
    refine ⟨htracks.2, hsound.returned, ?_⟩
    split_ifs with hasm
    · exact hsound.busy hasm
    · exact hsound.idle (by simpa using hasm)

def openedTwice : List UInt8 :=
  -- three one-byte frames: two that open a text message each, neither final, and a final
  -- continuation
  [0x01, 0x81, 0, 0, 0, 0, 0x41, 0x01, 0x81, 0, 0, 0, 0, 0x42, 0x80, 0x81, 0, 0, 0, 0, 0x43]

/-- The first frame's byte is in no message and the parser reports no error. -/
theorem openedTwice_loses_first :
    let o := observe 16 [.push openedTwice, .next, .next, .next]
    o.parser.hasError = false ∧ o.parser.reassembly.assembling = false ∧
      o.ledger.consumed.map (·.payload) = [[0x41], [0x42], [0x43]] ∧
      o.ledger.returned.map (·.1.payload) = [[0x42, 0x43]] ∧
      ¬ o.ledger.Lossless o.parser.reassembly := by
  refine ⟨by decide +kernel, by decide +kernel, by decide +kernel, by decide +kernel, fun h => ?_⟩
  have hlost : (observe 16 [.push openedTwice, .next, .next, .next]).ledger.attributed ≠
      (observe 16 [.push openedTwice, .next, .next, .next]).ledger.dataFrames := by
    decide +kernel
  exact hlost h.inOrder

theorem lossless_two_fragments :
    (observe 16 [.push (openedTwice.drop 7), .next, .next]).parser.hasError = false ∧
      ((observe 16 [.push (openedTwice.drop 7), .next, .next]).ledger.Lossless
          (observe 16 [.push (openedTwice.drop 7), .next, .next]).parser.reassembly ↔
        (nesting (observe 16 [.push (openedTwice.drop 7), .next, .next]).ledger.consumed).isSome) :=
  have noError :
      (observe 16 [.push (openedTwice.drop 7), .next, .next]).parser.hasError = false := by
    decide +kernel
  ⟨noError, lossless_iff_nested 16 [.push (openedTwice.drop 7), .next, .next] noError⟩

def dataMessages (messages : List Frame) : List Frame :=
  messages.filter fun m => !m.opcode.isControl

theorem record_returned {l : Ledger} {r r' : Reassembly} {f : Frame} {m : Option Frame}
    (hs : l.Sound r) (hacc : Accepted r f m r') :
    (l.record f m).returned.map (·.1) = l.returned.map (·.1) ++ dataMessages m.toList := by
  cases hacc with
  | control hcontrol =>
    rw [record_control hcontrol]
    simp [dataMessages, hcontrol]
  | continued hcont _ _ =>
    rw [record_continued hcont]
    simp [dataMessages]
  | finished hcont hasm _ =>
    have hdata : r.assemblyOpcode.isControl = false := by
      have hmade := hs.busy hasm
      match hl : l.inProgress with
      | [] => rw [hl] at hmade; exact hmade.elim
      | first :: rest =>
        rw [hl] at hmade
        rw [hmade.2.2.1, hmade.1.1]
    rw [record_finished hcont]
    simp [dataMessages, hdata]
  | whole hcontrol hcont _ =>
    rw [record_whole hcontrol hcont]
    simp [dataMessages, hcontrol]
  | opened hcontrol hcont _ =>
    rw [record_opened hcontrol hcont]
    simp [dataMessages]

theorem Observed.step_next {o : Observed} (h : o.parser.errored = false) :
    o.step .next = match o.parser.pass with
      | .needMore => o
      | .threw _ => o
      | .failed p => { o with parser := p }
      | .consumed f p message => ⟨p, o.ledger.record f message⟩ := by
  rw [Observed.step, if_neg (by simp [h])]

theorem Observed.step_consumed {o : Observed} {p' : FrameParser} {f : Frame} {m : Option Frame}
    (ho : o.Inv) (h : o.parser.errored = false) (hpass : o.parser.pass = .consumed f p' m) :
    o.step .next = ⟨p', o.ledger.record f m⟩ ∧
      (o.step .next).ledger.returned.map (·.1) =
        o.ledger.returned.map (·.1) ++ dataMessages m.toList := by
  obtain ⟨size, r, -, hacc, -⟩ := FrameParser.pass_consumed hpass
  have hstep : o.step .next = ⟨p', o.ledger.record f m⟩ := by rw [Observed.step_next h, hpass]
  refine ⟨hstep, ?_⟩
  rw [hstep]
  exact record_returned (ho h).1 (accept_cases hacc)

theorem nextFrame_observed {p : FrameParser} {l : Ledger} (h : (⟨p, l⟩ : Observed).Inv) :
    ∃ k, let o := Runs.run Observed.step ⟨p, l⟩ (List.replicate k .next)
      o.parser = p.nextFrame.2 ∧ o.ledger.returned.map (·.1) =
        l.returned.map (·.1) ++ dataMessages (FrameParser.delivered p.nextFrame.1).toList := by
  induction p using FrameParser.nextFrame.induct generalizing l with
  | case1 p herr =>
    rw [FrameParser.nextFrame_errored herr]
    exact ⟨0, rfl, (List.append_nil _).symm⟩
  | case2 p herr hpass =>
    rw [FrameParser.nextFrame_live (by simpa using herr), hpass]
    exact ⟨0, rfl, (List.append_nil _).symm⟩
  | case3 p herr p' hpass =>
    have hstep : Observed.step ⟨p, l⟩ .next = ⟨p', l⟩ := by
      rw [Observed.step_next (by simpa using herr), hpass]
    rw [FrameParser.nextFrame_live (by simpa using herr), hpass]
    refine ⟨1, ?_⟩
    simp only [List.replicate_one, Runs.run_cons, Runs.run_nil, hstep]
    exact ⟨trivial, (List.append_nil _).symm⟩
  | case4 p herr e hpass =>
    rw [FrameParser.nextFrame_live (by simpa using herr), hpass]
    exact ⟨0, rfl, (List.append_nil _).symm⟩
  | case5 p herr f p' message hpass =>
    obtain ⟨hstep, hret⟩ := Observed.step_consumed h (by simpa using herr) hpass
    rw [FrameParser.nextFrame_live (by simpa using herr), hpass]
    refine ⟨1, ?_, hret⟩
    simp only [List.replicate_one, Runs.run_cons, Runs.run_nil, hstep]
  | case6 p herr f p' hpass ih =>
    -- a frame without a message: the loop goes round again
    obtain ⟨hstep, hret⟩ := Observed.step_consumed h (by simpa using herr) hpass
    have hinv := Observed.step_inv _ .next h
    rw [hstep] at hinv hret
    obtain ⟨k, hparser, hmessages⟩ := ih hinv
    rw [FrameParser.nextFrame_live (by simpa using herr), hpass]
    refine ⟨k + 1, ?_⟩
    simp only [List.replicate_succ, Runs.run_cons, hstep]
    refine ⟨hparser, hmessages.trans ?_⟩
    rw [hret]
    simp [dataMessages]

theorem run_observed (max : Nat) (ops : List (Op UInt8)) :
    ∃ passes, (observe max passes).parser = ((FrameParser.new max).run ops).2 ∧
      (observe max passes).ledger.returned.map (·.1) =
        dataMessages ((FrameParser.new max).run ops).1 := by
  suffices key : ∀ (ops : List (Op UInt8)) (o : Observed), o.Inv → ∃ passes,
      (Runs.run Observed.step o passes).parser = (o.parser.run ops).2 ∧
        (Runs.run Observed.step o passes).ledger.returned.map (·.1) =
          o.ledger.returned.map (·.1) ++ dataMessages (o.parser.run ops).1 from
    key ops _ (Ledger.initial_inv max)
  intro ops
  induction ops with
  | nil => exact fun o _ => ⟨[], rfl, (List.append_nil _).symm⟩
  | cons op ops ih =>
    intro o ho
    cases op with
    | push chunk =>
      obtain ⟨passes, hp⟩ := ih (o.step (.push chunk)) (Observed.step_inv o _ ho)
      exact ⟨.push chunk :: passes, hp⟩
    | next =>
      obtain ⟨k, hparser, hmessages⟩ := nextFrame_observed (p := o.parser) (l := o.ledger) ho
      obtain ⟨passes, hp, hm⟩ := ih _ (Runs.invariant Observed.step_inv ho (List.replicate k .next))
      refine ⟨List.replicate k .next ++ passes, ?_, ?_⟩
      · rw [Runs.run_append, hp, hparser]
        rfl
      · rw [Runs.run_append, hm, hmessages, hparser, FrameParser.run]
        simp [dataMessages]

end Ppm.WebSocket

import PhonePostMix.Server.Lifecycle
import PhonePostMix.Server.Wire

/-! What a client gets whose request is not an authorised upgrade: a static answer, whatever is
broadcast meanwhile. -/

namespace Ppm.Server
open Http

/-- The request asks for a WebSocket and the authorizer, if there is one, accepts its target. -/
def Admitted (owner : Owner) (head : List UInt8) : Prop :=
  ∃ request, parseRequest head = .ok (some request) ∧ request.isWebSocketUpgrade = .ok true ∧
    owner.upgradeAuthorizer.all (fun authorize => authorize request.target) = true

def staticAnswer (owner : Owner) (head : List UInt8) : Option (List UInt8 × List UInt8) :=
  match parseRequest head with
  | .ok (some request) =>
    match request.isWebSocketUpgrade with
    | .ok true =>
      some (Connection.denialHead 403 (ascii "Forbidden") (ascii "Forbidden"), ascii "Forbidden")
    | .ok false =>
      match (owner.assetProvider.getD fun _ => .ok none) request.path with
      | .ok none =>
        some (Connection.denialHead 404 (ascii "Not Found") (ascii "Not found"), ascii "Not found")
      | .ok (some asset) =>
        some (makeResponseHead 200 (ascii "OK") asset.mimeType asset.data.length
          [ascii "Connection: close", ascii "Cache-Control: no-store"], asset.data)
      | .error _ => none
    | .error _ => none
  | _ => none

def threads (es : List ConnectionEvent) : List Answers :=
  es.filterMap fun
    | .thread a => some a
    | .enqueue _ => none

namespace Connection
variable {owner : Owner} {c d : Connection}

theorem handleRequest_static (hnot : ¬ Admitted owner c.head) :
    ∃ phase, c.handleRequest owner = { c with phase } ∧
      (phase = .finishing ∨ (∃ e, phase = .threw e) ∨
        ∃ head body next, phase = .entering head next ∧
          (next = .denialHead body ∨ next = .assetHead body) ∧
          staticAnswer owner c.head = some (head, body)) := by
  unfold handleRequest staticAnswer
  cases hparse : parseRequest c.head with
  | error e => exact ⟨_, rfl, .inr (.inl ⟨e, rfl⟩)⟩
  | ok parsed =>
    cases parsed with
    | none => exact ⟨_, rfl, .inl rfl⟩
    | some request =>
      dsimp only
      cases hupgrade : request.isWebSocketUpgrade with
      | error e => exact ⟨_, rfl, .inr (.inl ⟨e, rfl⟩)⟩
      | ok upgrade =>
        cases upgrade with
        | true =>
          have hrefused :
              ¬ owner.upgradeAuthorizer.all (fun authorize => authorize request.target) = true :=
            fun hall => hnot ⟨request, hparse, hupgrade, hall⟩
          dsimp only
          rw [if_neg hrefused]
          exact ⟨_, rfl, .inr (.inr ⟨_, _, _, rfl, .inl rfl, rfl⟩)⟩
        | false =>
          simp only [serveAsset]
          cases owner.assetProvider with
          | none => exact ⟨_, rfl, .inr (.inr ⟨_, _, _, rfl, .inl rfl, rfl⟩)⟩
          | some provider =>
            simp only [Option.getD_some]
            rcases provider request.path with e | _ | asset
            · exact ⟨_, rfl, .inr (.inl ⟨e, rfl⟩)⟩
            · exact ⟨_, rfl, .inr (.inr ⟨_, _, _, rfl, .inl rfl, rfl⟩)⟩
            · exact ⟨_, rfl, .inr (.inr ⟨_, _, _, rfl, .inr rfl, rfl⟩)⟩

end Connection

def Answered (owner : Owner) (head wire : List UInt8) : Prop :=
  wire = [] ∨ ∃ answer body sent more, staticAnswer owner head = some (answer, body) ∧
    sent <+: answer ∧ more <+: body ∧ wire = sent ++ more

theorem answered_begun {owner : Owner} {head wire answer body : List UInt8}
    (hanswer : staticAnswer owner head = some (answer, body)) (hwire : wire <+: answer) :
    Answered owner head wire :=
  .inr ⟨answer, body, wire, [], hanswer, hwire, List.nil_prefix, (List.append_nil wire).symm⟩

inductive Answering (owner : Owner) (head : List UInt8) : Phase → List UInt8 → Prop
  | reading (hmark : find headEndMark head = none) : Answering owner head .readingHead []
  | entering {answer body : List UInt8} {next : AfterWrite}
      (hanswer : staticAnswer owner head = some (answer, body))
      (hnext : next = .denialHead body ∨ next = .assetHead body) :
      Answering owner head (.entering answer next) []
  | writing {w : WriteAll} {body wire : List UInt8} {next : AfterWrite}
      (hanswer : staticAnswer owner head = some (w.data, body))
      (hnext : next = .denialHead body ∨ next = .assetHead body)
      (hwire : wire ++ w.data.drop w.sent = w.data) : Answering owner head (.writing w next) wire
  | enteringBody {answer body wire : List UInt8}
      (hanswer : staticAnswer owner head = some (answer, body)) (hwire : wire <+: answer) :
      Answering owner head (.entering body .body) wire
  | writingBody {w : WriteAll} {answer sent more : List UInt8}
      (hanswer : staticAnswer owner head = some (answer, w.data)) (hsent : sent <+: answer)
      (hmore : more ++ w.data.drop w.sent = w.data) :
      Answering owner head (.writing w .body) (sent ++ more)
  | finishing {wire : List UInt8} (hwire : Answered owner head wire) :
      Answering owner head .finishing wire
  | finished {wire : List UInt8} (hwire : Answered owner head wire) :
      Answering owner head .finished wire
  | threw {e : Exception} {wire : List UInt8} (hwire : Answered owner head wire) :
      Answering owner head (.threw e) wire

namespace Connection
variable {owner : Owner} {c d : Connection}

structure Denied (owner : Owner) (c : Connection) : Prop where
  closed : c.upgraded = false
  quiet : c.sendQueue = {}
  answering : Answering owner c.head c.phase c.wire

def Settled (owner : Owner) (c : Connection) : Prop :=
  c.phase ≠ .readingHead ∧ Admitted owner c.head

theorem Denied.answered (h : Denied owner c) : Answered owner c.head c.wire := by
  obtain ⟨-, -, hanswering⟩ := h
  generalize c.phase = phase at hanswering
  generalize c.wire = wire at hanswering ⊢
  cases hanswering with
  | reading hmark => exact .inl rfl
  | entering hanswer hnext => exact .inl rfl
  | writing hanswer hnext hwire => exact answered_begun hanswer ⟨_, hwire⟩
  | enteringBody hanswer hwire => exact answered_begun hanswer hwire
  | writingBody hanswer hsent hmore =>
    exact .inr ⟨_, _, _, _, hanswer, hsent, ⟨_, hmore⟩, rfl⟩
  | finishing hwire => exact hwire
  | finished hwire => exact hwire
  | threw hwire => exact hwire

theorem denied_new (owner : Owner) : Denied owner {} :=
  ⟨rfl, rfl, .reading (by decide)⟩

theorem denied_handleRequest (hclosed : c.upgraded = false) (hquiet : c.sendQueue = {})
    (hwire : c.wire = []) :
    Denied owner (c.handleRequest owner) ∨ Settled owner (c.handleRequest owner) := by
  by_cases hadmitted : Admitted owner c.head
  · right
    refine ⟨?_, (handleRequest_head owner c).symm ▸ hadmitted⟩
    rcases handleRequest_cases owner c with ⟨e, he⟩ | he | ⟨head, body, he⟩ | ⟨head, data, he⟩ |
      ⟨request, he⟩
    all_goals simp [he, performUpgrade]
  · left
    obtain ⟨phase, hc, hphase⟩ := handleRequest_static hadmitted
    rw [hc]
    refine ⟨hclosed, hquiet, ?_⟩
    dsimp only
    rw [hwire]
    rcases hphase with rfl | ⟨e, rfl⟩ | ⟨head, body, next, rfl, hnext, hanswer⟩
    · exact .finishing (.inl rfl)
    · exact .threw (.inl rfl)
    · exact .entering hanswer hnext

theorem denied_readHead (hclosed : c.upgraded = false) (hquiet : c.sendQueue = {})
    (hwire : c.wire = []) (hphase : c.phase = .readingHead)
    (hmark : find headEndMark c.head = none) (a : Answers) :
    Denied owner (c.readHead owner a) ∨ Settled owner (c.readHead owner a) := by
  have hend : ∀ head, Denied owner { c with head, phase := .finishing } := fun head =>
    ⟨hclosed, hquiet, .finishing (.inl hwire)⟩
  have hstill : ∀ head, find headEndMark head = none → Denied owner { c with head } := by
    intro head hhead
    refine ⟨hclosed, hquiet, ?_⟩
    dsimp only
    rw [hphase, hwire]
    exact .reading hhead
  unfold readHead
  split_ifs
  · exact denied_handleRequest hclosed hquiet hwire
  · exact .inl (hend _)
  · exact .inl (hstill _ hmark)
  · split
    · exact .inl (hend _)
    · dsimp only
      split_ifs with hfound
      · exact denied_handleRequest hclosed hquiet hwire
      · exact .inl (hend _)
      · exact .inl (hstill _ (Option.not_isSome_iff_eq_none.mp hfound))

theorem denied_write (hclosed : c.upgraded = false) (hquiet : c.sendQueue = {}) {w : WriteAll}
    {next : AfterWrite} (h : Answering owner c.head (.writing w next) c.wire) (a : Answers) :
    Denied owner (c.write w next a) := by
  unfold write
  generalize hsofar : c.wire = wire at h
  rcases hpass : w.pass a with ok | ⟨accepted, w'⟩
  · cases h with
    | writing hanswer hnext hwire =>
      have hsent : c.wire <+: w.data := hsofar ▸ ⟨_, hwire⟩
      have hfailed : Denied owner { c with phase := .finishing } :=
        ⟨hclosed, hquiet, .finishing (answered_begun hanswer hsent)⟩
      have hgoes (body : List UInt8) (hbody : staticAnswer owner c.head = some (w.data, body)) :
          Denied owner (c.callWriteAll body .body) :=
        ⟨hclosed, hquiet, .enteringBody hbody hsent⟩
      rcases hnext with rfl | rfl
      · exact hgoes _ hanswer
      · cases ok with
        | false => exact hfailed
        | true => exact hgoes _ hanswer
    | writingBody hanswer hsent hmore =>
      refine ⟨hclosed, hquiet, .finishing ?_⟩
      exact .inr ⟨_, _, _, _, hanswer, hsent, ⟨_, hmore⟩, hsofar⟩
  · obtain ⟨hdata, haccepted⟩ := WriteAll.pass_again hpass
    refine ⟨hclosed, hquiet, ?_⟩
    dsimp only
    cases h with
    | writing hanswer hnext hwire =>
      refine .writing (hdata ▸ hanswer) hnext ?_
      rw [List.append_assoc, haccepted, hwire, hdata]
    | writingBody hanswer hsent hmore =>
      rw [List.append_assoc]
      refine .writingBody (hdata ▸ hanswer) hsent ?_
      rw [List.append_assoc, haccepted, hmore, hdata]

theorem denied_threadStep (h : Denied owner c) (a : Answers) :
    Denied owner (c.threadStep owner a) ∨ Settled owner (c.threadStep owner a) := by
  obtain ⟨hclosed, hquiet, hanswering⟩ := h
  unfold threadStep
  cases hphase : c.phase with
  | readingHead =>
    rw [hphase] at hanswering
    generalize hsofar : c.wire = wire at hanswering
    cases hanswering with
    | reading hmark => exact denied_readHead hclosed hquiet hsofar hphase hmark a
  | entering data next =>
    left
    rw [hphase] at hanswering
    refine ⟨hclosed, hquiet, ?_⟩
    dsimp only
    generalize c.wire = wire at hanswering ⊢
    cases hanswering with
    | entering hanswer hnext => exact .writing hanswer hnext rfl
    | enteringBody hanswer hwire =>
      rw [← List.append_nil wire]
      exact .writingBody hanswer hwire rfl
  | writing w next =>
    rw [hphase] at hanswering
    exact .inl (denied_write hclosed hquiet hanswering a)
  | finishing =>
    left
    rw [hphase] at hanswering
    refine ⟨rfl, hquiet, .finished ?_⟩
    cases hanswering with
    | finishing hwire => exact hwire
  | finished => exact .inl ⟨hclosed, hquiet, hanswering⟩
  | threw e => exact .inl ⟨hclosed, hquiet, hanswering⟩
  | _ =>
    rw [hphase] at hanswering
    cases hanswering

theorem settled_step (h : Settled owner c) (e : ConnectionEvent) :
    Settled owner (c.step owner e) := by
  obtain ⟨hread, hadmitted⟩ := h
  obtain ⟨hphase, hhead, -⟩ := keeps_step owner hread e
  exact ⟨hphase, hhead.symm ▸ hadmitted⟩

theorem settled_run (h : Settled owner c) (es : List ConnectionEvent) :
    Settled owner (run owner c es) :=
  Runs.invariant (I := Settled owner) (fun _ e hc => settled_step hc e) h es

theorem denied_enqueue (h : Denied owner c) (out : Outgoing) : c.enqueue owner out = c := by
  unfold enqueue
  rw [h.closed, if_neg Bool.false_ne_true]

theorem denied_or_settled (h : Denied owner c) (es : List ConnectionEvent) :
    (Denied owner (run owner c es) ∧ run owner c es = run owner c ((threads es).map .thread)) ∨
      Settled owner (run owner c es) ∧ Settled owner (run owner c ((threads es).map .thread)) := by
  induction es generalizing c with
  | nil => exact .inl ⟨h, rfl⟩
  | cons e es ih =>
    cases e with
    | enqueue out =>
      have hsame : c.step owner (.enqueue out) = c := denied_enqueue h out
      have hrest : run owner c (.enqueue out :: es) = run owner c es :=
        congrArg (fun d => run owner d es) hsame
      rw [hrest]
      exact ih h
    | thread a =>
      rcases denied_threadStep h a with hnext | hsettled
      · exact ih hnext
      · exact .inr ⟨settled_run hsettled es, settled_run hsettled _⟩

theorem unadmitted_run (owner : Owner) {es es' : List ConnectionEvent}
    (hthreads : threads es = threads es') (hnot : ¬ Admitted owner (run owner {} es).head) :
    (run owner {} es').wire = (run owner {} es).wire ∧
      Answered owner (run owner {} es).head (run owner {} es).wire ∧
      ∀ pre post, es = pre ++ post →
        (run owner {} pre).upgraded = false ∧ (run owner {} pre).sendQueue = {} := by
  have hstart := denied_new owner
  rcases denied_or_settled hstart es with ⟨hdenied, hsame⟩ | ⟨⟨-, hadmitted⟩, -⟩
  swap
  · exact absurd hadmitted hnot
  refine ⟨?_, hdenied.answered, fun pre post hes => ?_⟩
  · rcases denied_or_settled hstart es' with ⟨-, hsame'⟩ | ⟨-, -, hadmitted⟩
    · rw [hsame', hsame, hthreads]
    · rw [← hthreads, ← hsame] at hadmitted
      exact absurd hadmitted hnot
  · subst hes
    rcases denied_or_settled hstart pre with ⟨hpre, -⟩ | ⟨hsettled, -⟩
    · exact ⟨hpre.closed, hpre.quiet⟩
    · rw [run, Runs.run_append] at hnot
      exact absurd (settled_run hsettled post).2 hnot

end Connection
end Ppm.Server

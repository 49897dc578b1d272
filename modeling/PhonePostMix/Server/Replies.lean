import PhonePostMix.Http.PrintedResponse
import PhonePostMix.Server.Admission
import PhonePostMix.Server.Deadline
import PhonePostMix.Server.Handover
import PhonePostMix.WebSocket.AcceptKey

/-! What a client reads of a connection: the one response that its request deserves, or
nothing, and after an accepted upgrade the frames that follow it. -/

namespace Ppm.Server
open Http WebSocket Engine ListField

def closing : Field where
  name := ascii "Connection"
  value := ascii "close"

def noStore : Field where
  name := ascii "Cache-Control"
  value := ascii "no-store"

theorem upgrade_colon : 0x3a ∉ ascii "Upgrade" := by decide
theorem upgrade_line : OneLine (ascii "Upgrade") := by decide
theorem upgrade_bare : Bare isOws (ascii "Upgrade") := by decide
theorem connection_colon : 0x3a ∉ ascii "Connection" := by decide
theorem connection_line : OneLine (ascii "Connection") := by decide
theorem connection_bare : Bare isOws (ascii "Connection") := by decide
theorem accept_colon : 0x3a ∉ ascii "Sec-WebSocket-Accept" := by decide
theorem accept_line : OneLine (ascii "Sec-WebSocket-Accept") := by decide
theorem accept_bare : Bare isOws (ascii "Sec-WebSocket-Accept") := by decide
theorem websocket_line : OneLine (ascii "websocket") := by decide
theorem websocket_bare : Bare isOws (ascii "websocket") := by decide

def upgrading (accept : List UInt8) (hline : OneLine accept) (hbare : Bare isOws accept) :
    List Field :=
  [{ name := ascii "Upgrade"
     value := ascii "websocket"
     name_colon := upgrade_colon
     name_line := upgrade_line
     name_bare := upgrade_bare
     value_line := websocket_line
     value_bare := websocket_bare },
    { name := ascii "Connection"
      value := ascii "Upgrade"
      name_colon := connection_colon
      name_line := connection_line
      name_bare := connection_bare
      value_line := upgrade_line
      value_bare := upgrade_bare },
    { name := ascii "Sec-WebSocket-Accept"
      value := accept
      name_colon := accept_colon
      name_line := accept_line
      name_bare := accept_bare
      value_line := hline
      value_bare := hbare }]

def denial (statusCode : ℕ) (reasonPhrase body : List UInt8) (hreason : OneLine reasonPhrase) :
    Reply where
  statusCode := statusCode
  reasonPhrase := reasonPhrase
  contentType := ascii "text/plain; charset=utf-8"
  extraHeaders := [closing]
  body := some body
  reason_line := hreason
  type_line := by decide
  type_bare := by decide
  extra_length := by decide
  body_framed h := absurd h (Option.some_ne_none body)

def forbidden : Reply := denial 403 (ascii "Forbidden") (ascii "Forbidden") (by decide)

def notFound : Reply := denial 404 (ascii "Not Found") (ascii "Not found") (by decide)

structure Asset.Printable (asset : Asset) : Prop where
  line : OneLine asset.mimeType
  bare : Bare isOws asset.mimeType

def ok (asset : Asset) (h : asset.Printable) : Reply where
  statusCode := 200
  reasonPhrase := ascii "OK"
  contentType := asset.mimeType
  extraHeaders := [closing, noStore]
  body := some asset.data
  reason_line := by decide
  type_line := h.line
  type_bare := h.bare
  extra_length := by decide
  body_framed h := absurd h (Option.some_ne_none asset.data)

theorem upgrading_length (accept : List UInt8) (hline : OneLine accept)
    (hbare : Bare isOws accept) : ∀ f ∈ upgrading accept hline hbare,
      toLower f.name ≠ ascii "content-length" := by
  intro f hf
  simp only [upgrading, List.mem_cons, List.not_mem_nil, or_false] at hf
  rcases hf with rfl | rfl | rfl
  all_goals
    dsimp only
    decide

def switchingProtocols (accept : List UInt8) (hline : OneLine accept) (hbare : Bare isOws accept) :
    Reply where
  statusCode := 101
  reasonPhrase := ascii "Switching Protocols"
  contentType := []
  extraHeaders := upgrading accept hline hbare
  body := none
  reason_line := by decide
  type_line := by decide
  type_bare := by decide
  extra_length := upgrading_length accept hline hbare
  body_framed _ := by decide

inductive Deserves (owner : Owner) (request : Request) : Reply → Prop
  | forbidden (hupgrade : request.isWebSocketUpgrade = .ok true)
      (hrefused : ¬ owner.upgradeAuthorizer.all (fun authorize => authorize request.target) = true) :
      Deserves owner request forbidden
  | switchingProtocols (hupgrade : request.isWebSocketUpgrade = .ok true)
      (hallowed : owner.upgradeAuthorizer.all (fun authorize => authorize request.target) = true)
      (hline : OneLine (owner.makeAcceptKey (request.header (ascii "sec-websocket-key"))))
      (hbare : Bare isOws (owner.makeAcceptKey (request.header (ascii "sec-websocket-key")))) :
      Deserves owner request (switchingProtocols _ hline hbare)
  | notFound (hupgrade : request.isWebSocketUpgrade = .ok false)
      (hasset : (owner.assetProvider.getD fun _ => .ok none) request.path = .ok none) :
      Deserves owner request notFound
  | ok (asset : Asset) (hupgrade : request.isWebSocketUpgrade = .ok false)
      (hasset : (owner.assetProvider.getD fun _ => .ok none) request.path = .ok (some asset))
      (hprintable : asset.Printable) : Deserves owner request (ok asset hprintable)

structure Owner.Printable (owner : Owner) : Prop where
  key_line : ∀ key, OneLine (owner.makeAcceptKey key)
  key_bare : ∀ key, Bare isOws (owner.makeAcceptKey key)
  asset : ∀ provider path asset, owner.assetProvider = some provider →
    provider path = .ok (some asset) → asset.Printable

def Due (owner : Owner) (head : List UInt8) (r : Reply) : Prop :=
  ∃ request, parseRequest head = .ok (some request) ∧ Deserves owner request r

theorem Deserves.unique {owner : Owner} {request : Request} {r r' : Reply}
    (h : Deserves owner request r) (h' : Deserves owner request r') : r = r' := by
  have hnot (htrue : request.isWebSocketUpgrade = .ok true)
      (hfalse : request.isWebSocketUpgrade = .ok false) : r = r' :=
    absurd (Except.ok.inj (htrue.symm.trans hfalse)) (by decide)
  cases h with
  | forbidden hupgrade hrefused =>
    cases h' with
    | forbidden => rfl
    | switchingProtocols _ hallowed => exact absurd hallowed hrefused
    | notFound hplain => exact hnot hupgrade hplain
    | ok _ hplain => exact hnot hupgrade hplain
  | switchingProtocols hupgrade hallowed =>
    cases h' with
    | forbidden _ hrefused => exact absurd hallowed hrefused
    | switchingProtocols => rfl
    | notFound hplain => exact hnot hupgrade hplain
    | ok _ hplain => exact hnot hupgrade hplain
  | notFound hplain hasset =>
    cases h' with
    | forbidden hupgrade => exact hnot hupgrade hplain
    | switchingProtocols hupgrade => exact hnot hupgrade hplain
    | notFound => rfl
    | ok _ _ hasset' =>
      rw [hasset] at hasset'
      cases hasset'
  | ok asset hplain hasset hprintable =>
    cases h' with
    | forbidden hupgrade => exact hnot hupgrade hplain
    | switchingProtocols hupgrade => exact hnot hupgrade hplain
    | notFound _ hasset' =>
      rw [hasset] at hasset'
      cases hasset'
    | ok _ _ hasset' =>
      rw [hasset] at hasset'
      obtain rfl := Option.some.inj (Except.ok.inj hasset')
      rfl

theorem Due.unique {owner : Owner} {head : List UInt8} {r r' : Reply} (h : Due owner head r)
    (h' : Due owner head r') : r = r' := by
  obtain ⟨request, hparse, hr⟩ := h
  obtain ⟨request', hparse', hr'⟩ := h'
  obtain rfl := Option.some.inj (Except.ok.inj (hparse.symm.trans hparse'))
  exact hr.unique hr'

theorem not_due_of_parse {owner : Owner} {head : List UInt8}
    (h : ∀ request, parseRequest head ≠ .ok (some request)) (r : Reply) : ¬ Due owner head r :=
  fun ⟨request, hparse, _⟩ => h request hparse

namespace Connection
variable {owner : Owner} {c d : Connection}

theorem print_upgrading (accept : List UInt8) (hline : OneLine accept) (hbare : Bare isOws accept) :
    (upgrading accept hline hbare).map Field.print =
      [ascii "Upgrade: websocket", ascii "Connection: Upgrade",
        ascii "Sec-WebSocket-Accept: " ++ accept] := by
  have hupgrade : ascii "Upgrade" ++ ascii ": " ++ ascii "websocket" =
    ascii "Upgrade: websocket" := by decide
  have hconnection : ascii "Connection" ++ ascii ": " ++ ascii "Upgrade" =
    ascii "Connection: Upgrade" := by decide
  have haccept : ascii "Sec-WebSocket-Accept" ++ ascii ": " = ascii "Sec-WebSocket-Accept: " := by
    decide
  simp only [upgrading, List.map_cons, List.map_nil, Field.print, hupgrade, hconnection, haccept]

end Connection

def Announces (next : AfterWrite) (body : List UInt8) : Prop :=
  next = .assetHead body ∨ next = .denialHead body ∧ OneLine body

namespace Connection
variable {owner : Owner} {c d : Connection}

/-- How the thread goes on from a head: it closes, having nothing to answer, or it enters the
writes of the reply that is due. -/
inductive Outcome (owner : Owner) (c : Connection) : Connection → Prop
  | closes {phase : Phase} (hphase : phase = .finishing ∨ ∃ e, phase = .threw e)
      (hnone : ∀ r, ¬ Due owner c.head r) : Outcome owner c { c with phase }
  | replies {r : Reply} {body : List UInt8} {next : AfterWrite} (hdue : Due owner c.head r)
      (hbody : r.body = some body) (hnext : Announces next body) :
      Outcome owner c (c.callWriteAll r.head next)
  | upgrades {r : Reply} (hdue : Due owner c.head r) (hbody : r.body = none) :
      Outcome owner c ({ c with response := some r.head }.callWriteAll r.head .upgradeHead)

theorem serveAsset_outcome (howner : owner.Printable) {request : Request}
    (hparse : parseRequest c.head = .ok (some request))
    (hplain : request.isWebSocketUpgrade = .ok false) :
    Outcome owner c (c.serveAsset owner request) := by
  have hdue {r : Reply} (h : Deserves owner request r) : Due owner c.head r := ⟨request, hparse, h⟩
  unfold serveAsset
  cases hprovider : owner.assetProvider with
  | none =>
    have hasset : (owner.assetProvider.getD fun _ => .ok none) request.path = .ok none := by
      rw [hprovider]
      rfl
    have hreply := Outcome.replies (c := c) (hdue (.notFound hplain hasset)) rfl
      (.inr ⟨rfl, by decide⟩)
    exact hreply
  | some provider =>
    have hget : (owner.assetProvider.getD fun _ => .ok none) = provider := by
      rw [hprovider]
      rfl
    cases hasset : provider request.path with
    | error e =>
      simp only [hasset]
      refine .closes (.inr ⟨e, rfl⟩) fun r => ?_
      rintro ⟨request', hparse', hdeserves⟩
      obtain rfl := Option.some.inj (Except.ok.inj (hparse.symm.trans hparse'))
      cases hdeserves with
      | forbidden hupgrade => simp [hplain] at hupgrade
      | switchingProtocols hupgrade => simp [hplain] at hupgrade
      | notFound _ hfound => simp [hget, hasset] at hfound
      | ok _ _ hfound => simp [hget, hasset] at hfound
    | ok found =>
      simp only [hasset]
      cases found with
      | none =>
        have hreply := Outcome.replies (c := c) (hdue (.notFound hplain (by rw [hget, hasset]))) rfl
          (.inr ⟨rfl, by decide⟩)
        exact hreply
      | some asset =>
        have hprintable := howner.asset provider _ asset hprovider hasset
        have hreply := Outcome.replies (c := c)
          (hdue (.ok asset hplain (by rw [hget, hasset]) hprintable)) rfl (.inl rfl)
        exact hreply

theorem handleRequest_outcome (howner : owner.Printable) (c : Connection) :
    Outcome owner c (c.handleRequest owner) := by
  unfold handleRequest
  cases hparse : parseRequest c.head with
  | error e => exact .closes (.inr ⟨e, rfl⟩) (not_due_of_parse (by simp [hparse]))
  | ok parsed =>
    cases parsed with
    | none => exact .closes (.inl rfl) (not_due_of_parse (by simp [hparse]))
    | some request =>
      obtain ⟨upgrade, hupgrade⟩ := isWebSocketUpgrade_total request
      simp only [hupgrade]
      cases upgrade with
      | false => exact serveAsset_outcome howner hparse hupgrade
      | true =>
        dsimp only
        split_ifs with hallowed
        · have hline := howner.key_line (request.header (ascii "sec-websocket-key"))
          have hbare := howner.key_bare (request.header (ascii "sec-websocket-key"))
          have hresponse : c.performUpgrade owner request =
              { c with response := some (switchingProtocols _ hline hbare).head }.callWriteAll
                (switchingProtocols _ hline hbare).head .upgradeHead := by
            unfold performUpgrade
            dsimp only
            rw [← print_upgrading _ hline hbare]
            rfl
          rw [hresponse]
          exact .upgrades ⟨request, hparse, .switchingProtocols hupgrade hallowed hline hbare⟩ rfl
        · have hreply := Outcome.replies (c := c) ⟨request, hparse, .forbidden hupgrade hallowed⟩ rfl
            (.inr ⟨rfl, by decide⟩)
          exact hreply

inductive Sending (r : Reply) (body : List UInt8) : Phase → List UInt8 → Prop
  | entering {next : AfterWrite} (hnext : Announces next body) :
      Sending r body (.entering r.head next) []
  | writing {w : WriteAll} {next : AfterWrite} {wire : List UInt8} (hnext : Announces next body)
      (hwire : wire ++ w.data.drop w.sent = r.head) (hdata : w.data = r.head) :
      Sending r body (.writing w next) wire
  | enteringBody : Sending r body (.entering body .body) r.head
  | writingBody {w : WriteAll} {sent : List UInt8} (hsent : sent ++ w.data.drop w.sent = body)
      (hdata : w.data = body) : Sending r body (.writing w .body) (r.head ++ sent)
  | ended {phase : Phase} (hphase : phase.side = .ended) : Sending r body phase (r.head ++ body)

inductive Torn (r : Reply) (body : List UInt8) : Phase → List UInt8 → Prop
  | enteringBody {sent : List UInt8} (hsent : sent <+: r.head) (hne : sent ≠ r.head)
      (hbody : OneLine body) : Torn r body (.entering body .body) sent
  | writingBody {w : WriteAll} {sent more : List UInt8} (hsent : sent <+: r.head)
      (hne : sent ≠ r.head) (hbody : OneLine body) (hmore : more ++ w.data.drop w.sent = body)
      (hdata : w.data = body) : Torn r body (.writing w .body) (sent ++ more)
  | begun {phase : Phase} {wire : List UInt8} (hphase : phase.side = .ended)
      (hwire : wire <+: r.head ++ body) : Torn r body phase wire
  | ended {phase : Phase} {sent more : List UInt8} (hphase : phase.side = .ended)
      (hsent : sent <+: r.head) (hne : sent ≠ r.head) (hmore : OneLine more) :
      Torn r body phase (sent ++ more)

inductive Course (owner : Owner) (whole : Bool) (c : Connection) : Prop
  | reading (hphase : c.phase = .readingHead) (hmark : headLength c.head = none)
      (hwire : c.wire = [])
  | silent (hphase : c.phase.side = .ended) (hwire : c.wire = [])
      (hnone : ∀ r, ¬ Due owner c.head r)
  | sending {r : Reply} {body : List UInt8} (hdue : Due owner c.head r) (hbody : r.body = some body)
      (hresponse : c.response = none) (h : Sending r body c.phase c.wire)
  | torn {r : Reply} {body : List UInt8} (hcut : whole = false) (hdue : Due owner c.head r)
      (hbody : r.body = some body) (h : Torn r body c.phase c.wire)
  | upgraded {r : Reply} (hdue : Due owner c.head r) (hbody : r.body = none)
      (hresponse : c.response = some r.head)
      (hwhole : whole = true → c.wire ++ c.phase.unsent = c.stream r.head)

def failing (c : Connection) (e : ConnectionEvent) : Bool :=
  match c.phase, e with
  | .writing w _, .thread a => w.pass a = .returned false
  | _, _ => false

def Intact (c : Connection) (e : ConnectionEvent) : Prop := c.failing e = false

instance (c : Connection) (e : ConnectionEvent) : Decidable (Intact c e) :=
  inferInstanceAs (Decidable (_ = _))

theorem Intact.pass {w : WriteAll} {next : AfterWrite} {a : Answers} (h : Intact c (.thread a))
    (hphase : c.phase = .writing w next) : w.pass a ≠ .returned false := by
  unfold Intact failing at h
  rw [hphase] at h
  exact of_decide_eq_false h

theorem oneLine_of_append {s t : List UInt8} (h : OneLine (s ++ t)) : OneLine s :=
  ⟨fun hr => h.1 (List.mem_append_left t hr), fun hn => h.2 (List.mem_append_left t hn)⟩

theorem drop_ne_nil_of_failed {w : WriteAll} {a : Answers} (h : w.pass a = .returned false) :
    w.data.drop w.sent ≠ [] := by
  intro hnil
  rw [WriteCall.pass_of_all_sent hnil] at h
  cases h

section Write
variable {r : Reply} {body : List UInt8} {w : WriteAll} {next : AfterWrite} {a : Answers}

theorem sending_again (h : Sending r body (.writing w next) c.wire) {accepted : List UInt8}
    {w' : WriteAll} (hpass : w.pass a = .again accepted w') :
    Sending r body (.writing w' next) (c.wire ++ accepted) := by
  obtain ⟨hdata', haccepted⟩ := WriteAll.pass_again hpass
  generalize c.wire = wire at h ⊢
  cases h with
  | writing hnext hwire hdata =>
    refine .writing hnext ?_ (hdata'.trans hdata)
    rw [List.append_assoc, haccepted, hwire]
  | writingBody hsent hdata =>
    rw [List.append_assoc]
    refine .writingBody ?_ (hdata'.trans hdata)
    rw [List.append_assoc, haccepted, hsent]
  | ended hphase => cases next <;> cases hphase

theorem sending_sent (h : Sending r body (.writing w next) c.wire)
    (hpass : w.pass a = .returned true) :
    Sending r body (c.afterWrite next true).phase (c.afterWrite next true).wire := by
  have hall := WriteAll.pass_returned_true hpass
  have hafter : (c.afterWrite next true).wire = c.wire := by cases next <;> rfl
  rw [hafter]
  generalize c.wire = wire at h ⊢
  cases h with
  | writing hnext hwire hdata =>
    rw [hall, List.append_nil] at hwire
    subst hwire
    rcases hnext with rfl | ⟨rfl, -⟩
    · exact .enteringBody
    · exact .enteringBody
  | writingBody hsent hdata =>
    rw [hall, List.append_nil] at hsent
    subst hsent
    exact .ended rfl
  | ended hphase => cases next <;> cases hphase

theorem sending_failed (h : Sending r body (.writing w next) c.wire)
    (hpass : w.pass a = .returned false) :
    Torn r body (c.afterWrite next false).phase (c.afterWrite next false).wire := by
  have hmore := drop_ne_nil_of_failed hpass
  have hafter : (c.afterWrite next false).wire = c.wire := by cases next <;> rfl
  rw [hafter]
  generalize c.wire = wire at h ⊢
  cases h with
  | writing hnext hwire hdata =>
    have hsent : wire <+: r.head := ⟨_, hwire⟩
    rcases hnext with rfl | ⟨rfl, hbody⟩
    · exact .begun rfl (hsent.trans (List.prefix_append _ _))
    · refine .enteringBody hsent (fun hwhole => hmore ?_) hbody
      rw [hwhole] at hwire
      exact List.append_right_eq_self.mp hwire
  | writingBody hsent hdata =>
    exact .begun rfl ((List.prefix_append_right_inj _).mpr ⟨_, hsent⟩)
  | ended hphase => cases next <;> cases hphase

theorem sending_write (h : Sending r body (.writing w next) c.wire) (a : Answers) :
    Sending r body (c.write w next a).phase (c.write w next a).wire ∨
      w.pass a = .returned false ∧
        Torn r body (c.write w next a).phase (c.write w next a).wire := by
  unfold write
  rcases hpass : w.pass a with ok | ⟨accepted, w'⟩
  · cases ok with
    | true => exact .inl (sending_sent h hpass)
    | false => exact .inr ⟨rfl, sending_failed h hpass⟩
  · exact .inl (sending_again h hpass)

theorem torn_write (h : Torn r body (.writing w next) c.wire) (a : Answers) :
    Torn r body (c.write w next a).phase (c.write w next a).wire := by
  unfold write
  rcases hpass : w.pass a with ok | ⟨accepted, w'⟩
  · have hafter : (c.afterWrite next ok).wire = c.wire := by cases next <;> cases ok <;> rfl
    dsimp only
    rw [hafter]
    generalize c.wire = wire at h ⊢
    cases h with
    | writingBody hsent hne hbody hmore hdata =>
      exact .ended rfl hsent hne (oneLine_of_append (hmore.symm ▸ hbody))
    | begun hphase => cases next <;> cases hphase
    | ended hphase => cases next <;> cases hphase
  · obtain ⟨hdata', haccepted⟩ := WriteAll.pass_again hpass
    dsimp only
    generalize c.wire = wire at h ⊢
    cases h with
    | writingBody hsent hne hbody hmore hdata =>
      rw [List.append_assoc]
      refine .writingBody hsent hne hbody ?_ (hdata'.trans hdata)
      rw [List.append_assoc, haccepted, hmore]
    | begun hphase => cases next <;> cases hphase
    | ended hphase => cases next <;> cases hphase

end Write

theorem Sending.of_ended {r : Reply} {body wire : List UInt8} {phase phase' : Phase}
    (h : Sending r body phase wire) (hphase : phase.side = .ended) (hphase' : phase'.side = .ended) :
    Sending r body phase' wire := by
  cases h with
  | entering hnext => rcases hnext with rfl | ⟨rfl, -⟩ <;> cases hphase
  | writing hnext => rcases hnext with rfl | ⟨rfl, -⟩ <;> cases hphase
  | enteringBody => cases hphase
  | writingBody => cases hphase
  | ended => exact .ended hphase'

theorem Torn.of_ended {r : Reply} {body wire : List UInt8} {phase phase' : Phase}
    (h : Torn r body phase wire) (hphase : phase.side = .ended) (hphase' : phase'.side = .ended) :
    Torn r body phase' wire := by
  cases h with
  | enteringBody => cases hphase
  | writingBody => cases hphase
  | begun _ hwire => exact .begun hphase' hwire
  | ended _ hsent hne hmore => exact .ended hphase' hsent hne hmore

theorem sending_threadStep {r : Reply} {body : List UInt8} (h : Sending r body c.phase c.wire)
    (a : Answers) :
    Sending r body (c.threadStep owner a).phase (c.threadStep owner a).wire ∨
      ¬ Intact c (.thread a) ∧
        Torn r body (c.threadStep owner a).phase (c.threadStep owner a).wire := by
  by_cases hended : c.phase.side = .ended
  · obtain ⟨hside, hwire⟩ := ended_step owner (.thread a) hended
    left
    exact hwire ▸ h.of_ended hended hside
  · unfold threadStep
    cases hphase : c.phase with
    | entering data next =>
      left
      rw [hphase] at h
      dsimp only
      generalize c.wire = wire at h ⊢
      cases h with
      | entering hnext => exact .writing hnext rfl rfl
      | enteringBody =>
        rw [← List.append_nil r.head]
        exact .writingBody rfl rfl
      | ended hside => exact absurd (hphase ▸ hside) hended
    | writing w next =>
      rw [hphase] at h
      rcases sending_write h a with hsending | ⟨hfailed, htorn⟩
      · exact .inl hsending
      · exact .inr ⟨fun hintact => hintact.pass hphase hfailed, htorn⟩
    | _ =>
      exfalso
      rw [hphase] at h hended
      generalize c.wire = wire at h
      cases h with
      | ended hside => exact hended hside

theorem torn_threadStep {r : Reply} {body : List UInt8} (h : Torn r body c.phase c.wire)
    (a : Answers) :
    Torn r body (c.threadStep owner a).phase (c.threadStep owner a).wire := by
  by_cases hended : c.phase.side = .ended
  · obtain ⟨hside, hwire⟩ := ended_step owner (.thread a) hended
    exact hwire ▸ h.of_ended hended hside
  · unfold threadStep
    cases hphase : c.phase with
    | entering data next =>
      rw [hphase] at h
      dsimp only
      generalize c.wire = wire at h ⊢
      cases h with
      | enteringBody hsent hne hbody =>
        rw [← List.append_nil wire]
        exact .writingBody hsent hne hbody rfl rfl
      | begun hside => exact absurd (hphase ▸ hside) hended
      | ended hside => exact absurd (hphase ▸ hside) hended
    | writing w next =>
      rw [hphase] at h
      exact torn_write h a
    | _ =>
      exfalso
      rw [hphase] at h hended
      generalize c.wire = wire at h
      cases h with
      | begun hside => exact hended hside
      | ended hside => exact hended hside

theorem unsent_of_ended {phase : Phase} (h : phase.side = .ended) : phase.unsent = [] := by
  cases phase with
  | entering data next => cases next <;> cases h
  | writing w next => cases next <;> cases h
  | _ => rfl

theorem ended_between {a : Answers} (hside : c.phase.side ≠ .http) (hintact : Intact c (.thread a))
    (hended : (c.threadStep owner a).phase.side = .ended) :
    (c.threadStep owner a).wire = c.wire ∧ (c.threadStep owner a).popped = c.popped ∧
      c.phase.unsent = [] := by
  unfold threadStep at hended ⊢
  cases hphase : c.phase with
  | readingHead =>
    rw [hphase] at hside
    exact absurd rfl hside
  | entering data next =>
    rw [hphase] at hended
    cases next <;> cases hended
  | writing w next =>
    rw [hphase] at hended hside
    simp only [write] at hended ⊢
    rcases hpass : w.pass a with ok | ⟨accepted, w'⟩
    · rw [hpass] at hended
      cases ok with
      | false => exact absurd hpass (hintact.pass hphase)
      | true =>
        cases next with
        | denialHead body => exact absurd rfl hside
        | assetHead data => exact absurd rfl hside
        | body => exact absurd rfl hside
        | upgradeHead => cases hended
        | frame => cases hended
    · rw [hpass] at hended
      cases next <;> cases hended
  | looping => exact ⟨rfl, rfl, rfl⟩
  | draining =>
    rw [hphase] at hended
    simp only [drain] at hended
    split at hended
    · cases hended
    · cases hended
  | pumping =>
    simp only [pump]
    split_ifs
    · exact ⟨rfl, rfl, rfl⟩
    · exact ⟨rfl, rfl, rfl⟩
    · split <;> exact ⟨rfl, rfl, rfl⟩
  | dispatching =>
    simp only [nextMessage]
    split
    · exact ⟨rfl, rfl, rfl⟩
    · unfold dispatch enqueue
      split_ifs <;> exact ⟨rfl, rfl, rfl⟩
    · exact ⟨rfl, rfl, rfl⟩
  | finishing => exact ⟨rfl, rfl, rfl⟩
  | finished => exact ⟨rfl, rfl, rfl⟩
  | threw e => exact ⟨rfl, rfl, rfl⟩

variable {whole : Bool}

theorem course_new : Course owner whole {} := .reading rfl rfl rfl

theorem Course.of_eq (h : Course owner whole c) (hphase : d.phase = c.phase)
    (hhead : d.head = c.head) (hwire : d.wire = c.wire) (hresponse : d.response = c.response)
    (hpopped : d.popped = c.popped) : Course owner whole d := by
  have hstream : d.stream = c.stream := by
    funext r
    rw [stream, stream, hpopped]
  cases h with
  | reading hreading hmark hnil =>
    exact .reading (hphase.trans hreading) (hhead ▸ hmark) (hwire.trans hnil)
  | silent hside hnil hnone => exact .silent (hphase ▸ hside) (hwire.trans hnil) (hhead ▸ hnone)
  | sending hdue hbody hnone h =>
    exact .sending (hhead ▸ hdue) hbody (hresponse.trans hnone) (hphase ▸ hwire ▸ h)
  | torn hcut hdue hbody h => exact .torn hcut (hhead ▸ hdue) hbody (hphase ▸ hwire ▸ h)
  | upgraded hdue hbody hsome hwhole =>
    refine .upgraded (hhead ▸ hdue) hbody (hresponse.trans hsome) ?_
    rw [hwire, hphase, hstream]
    exact hwhole

theorem course_handleRequest (howner : owner.Printable) (hwire : c.wire = [])
    (hresponse : c.response = none) (hpopped : c.popped = []) :
    Course owner whole (c.handleRequest owner) := by
  have houtcome := handleRequest_outcome howner c
  generalize c.handleRequest owner = d at houtcome
  cases houtcome with
  | closes hphase hnone =>
    refine .silent ?_ hwire hnone
    rcases hphase with rfl | ⟨e, rfl⟩ <;> rfl
  | replies hdue hbody hnext =>
    refine .sending hdue hbody hresponse ?_
    show Sending _ _ (.entering _ _) c.wire
    rw [hwire]
    exact .entering hnext
  | upgrades hdue hbody =>
    refine .upgraded hdue hbody rfl fun _ => ?_
    show c.wire ++ _ = _ ++ (c.popped.map _).flatten
    rw [hwire, hpopped, List.map_nil, List.flatten_nil, List.append_nil]
    rfl

theorem not_due_of_find {head : List UInt8} (h : find headEndMark head = none) (r : Reply) :
    ¬ Due owner head r :=
  not_due_of_parse (fun request hparse => by simp [parseRequest_of_no_mark h] at hparse) r

theorem course_readHead (howner : owner.Printable) (hphase : c.phase = .readingHead)
    (hmark : find headEndMark c.head = none) (hwire : c.wire = []) (hresponse : c.response = none)
    (hpopped : c.popped = []) (a : Answers) : Course owner whole (c.readHead owner a) := by
  have hend (head : List UInt8) (hhead : find headEndMark head = none) :
      Course owner whole { c with head, phase := .finishing } :=
    .silent rfl hwire (not_due_of_find hhead)
  have hstill (head : List UInt8) (hhead : find headEndMark head = none) :
      Course owner whole { c with head } :=
    .reading hphase (by simp [headLength, hhead]) hwire
  unfold readHead
  split_ifs
  · exact course_handleRequest howner hwire hresponse hpopped
  · exact hend _ hmark
  · exact hstill _ hmark
  · split
    · exact hend _ hmark
    · dsimp only
      split_ifs with hfound
      · exact course_handleRequest howner hwire hresponse hpopped
      · exact hend _ (Option.not_isSome_iff_eq_none.mp hfound)
      · exact hstill _ (Option.not_isSome_iff_eq_none.mp hfound)

theorem course_threadStep (howner : owner.Printable) (hsound : WireSound c)
    (h : Course owner whole c) (a : Answers) (hintact : whole = true → Intact c (.thread a)) :
    Course owner whole (c.threadStep owner a) := by
  by_cases hread : c.phase = .readingHead
  · obtain ⟨hnone, hwire⟩ := hsound.fresh hread
    have hmark : find headEndMark c.head = none := by
      cases h with
      | reading _ hmark => exact find_of_headLength hmark
      | silent hside => simp [hread] at hside
      | sending _ _ _ h =>
        rw [hread] at h
        generalize c.wire = wire at h
        cases h with
        | ended hside => cases hside
      | torn _ _ _ h =>
        rw [hread] at h
        generalize c.wire = wire at h
        cases h with
        | begun hside => cases hside
        | ended hside => cases hside
      | upgraded _ _ hsome => simp [hnone] at hsome
    unfold threadStep
    rw [hread]
    exact course_readHead howner hread hmark hwire hnone (hsound.static hnone).2 a
  · obtain ⟨-, hhead, hresponse⟩ := keeps_threadStep owner hread a
    cases h with
    | reading hphase => exact absurd hphase hread
    | silent hside hwire hnone =>
      obtain ⟨hside', hwire'⟩ := ended_step owner (.thread a) hside
      exact .silent hside' (hwire'.trans hwire) (hhead ▸ hnone)
    | sending hdue hbody hnone h =>
      have hstep : Sending _ _ (c.threadStep owner a).phase (c.threadStep owner a).wire ∨ _ :=
        sending_threadStep h a
      rcases hstep with hsending | ⟨hfailed, htorn⟩
      · exact .sending (hhead ▸ hdue) hbody (hresponse.trans hnone) hsending
      · refine .torn ?_ (hhead ▸ hdue) hbody htorn
        exact Bool.eq_false_iff.mpr (mt hintact hfailed)
    | torn hcut hdue hbody h => exact .torn hcut (hhead ▸ hdue) hbody (torn_threadStep h a)
    | upgraded hdue hbody hsome hwhole =>
      have hsome' := hresponse.trans hsome
      obtain ⟨hside, -, -⟩ := hsound.upgrade _ hsome
      obtain ⟨hside', -, hall⟩ := (wireSound_threadStep owner a hsound).upgrade _ hsome'
      refine .upgraded (hhead ▸ hdue) hbody hsome' fun htrue => ?_
      cases hended : (c.threadStep owner a).phase.side with
      | http => exact absurd hended hside'
      | webSocket => exact hall hended
      | ended =>
        obtain ⟨hwire, hpopped, hunsent⟩ := ended_between hside (hintact htrue) hended
        have hbefore := hwhole htrue
        rw [hunsent] at hbefore
        rw [unsent_of_ended hended, hwire, hbefore, stream, stream, hpopped]

theorem course_run (howner : owner.Printable) (es : List ConnectionEvent)
    (hintact : whole = true → Runs.Along (step owner) Intact {} es) :
    WireSound (run owner {} es) ∧ Course owner whole (run owner {} es) := by
  have halong : Runs.Along (step owner) (fun c e => whole = true → Intact c e) {} es := by
    cases whole with
    | false =>
      exact Runs.along_of_invariant (I := fun _ => True) (C := fun _ _ => True)
        (fun _ _ _ _ => ⟨trivial, fun h => absurd h (by decide)⟩) trivial
        (Runs.along_of_forall_mem (P := fun _ => True) _ fun _ _ => trivial)
    | true =>
      exact Runs.along_of_invariant (I := fun _ => True) (C := Intact)
        (fun _ _ _ h => ⟨trivial, fun _ => h⟩) trivial (hintact rfl)
  refine Runs.invariant_along (I := fun c => WireSound c ∧ Course owner whole c) ?_
    ⟨wireSound_new, course_new⟩ halong
  rintro c e ⟨hsound, hcourse⟩ hintact
  cases e with
  | thread a =>
    exact ⟨wireSound_threadStep owner a hsound,
      course_threadStep howner hsound hcourse a hintact⟩
  | enqueue out =>
    refine ⟨wireSound_enqueue owner out hsound, ?_⟩
    show Course owner whole (c.enqueue owner out)
    unfold enqueue
    split_ifs
    · exact hcourse.of_eq rfl rfl rfl rfl rfl
    · exact hcourse

def frames (c : Connection) : List UInt8 := (c.popped.map (·.frame)).flatten

theorem read_torn {r : Reply} {body wire : List UInt8} {phase : Phase} (hbody : r.body = some body)
    (h : Torn r body phase wire) {response : Response} {rest : List UInt8}
    (hread : readResponse wire = some (response, rest)) : response = r.response ∧ rest = [] := by
  have hprint : r.print = r.head ++ body := by rw [Reply.print, hbody, Option.getD_some]
  have hbegun (hwire : wire <+: r.print) : response = r.response ∧ rest = [] := by
    by_cases hall : wire = r.print
    · have hwhole := r.read_print []
      rw [List.append_nil, ← hall, hread] at hwhole
      exact Prod.mk.inj (Option.some.inj hwhole)
    · rw [r.read_begun hwire hall] at hread
      cases hread
  cases h with
  | enteringBody hsent => exact hbegun (hsent.trans (List.prefix_append _ _))
  | writingBody hsent hne hline hmore =>
    rw [r.read_torn hsent hne (oneLine_of_append (hmore.symm ▸ hline))] at hread
    cases hread
  | begun _ hprefix => exact hbegun (hprint ▸ hprefix)
  | ended _ hsent hne hmore =>
    rw [r.read_torn hsent hne hmore] at hread
    cases hread

theorem prefix_of_sending {r : Reply} {body wire : List UInt8} {phase : Phase}
    (h : Sending r body phase wire) : wire <+: r.head ++ body := by
  cases h with
  | entering => exact List.nil_prefix
  | writing _ hwire => exact (List.IsPrefix.trans ⟨_, hwire⟩ (List.prefix_append _ _))
  | enteringBody => exact List.prefix_append _ _
  | writingBody hsent => exact (List.prefix_append_right_inj _).mpr ⟨_, hsent⟩
  | ended => exact List.prefix_rfl

theorem read_course (hsound : WireSound c) (h : Course owner whole c) {response : Response}
    {rest : List UInt8} (hread : readResponse c.wire = some (response, rest)) :
    ∃ r, Due owner c.head r ∧ response = r.response ∧ rest <+: c.frames := by
  have hnothing (hwire : c.wire = []) : False := by
    rw [hwire] at hread
    cases hread
  cases h with
  | reading _ _ hwire => exact (hnothing hwire).elim
  | silent _ hwire => exact (hnothing hwire).elim
  | sending hdue hbody _ h =>
    have hbegun : Torn _ _ .finished c.wire := .begun rfl (prefix_of_sending h)
    obtain ⟨hresponse, rfl⟩ := read_torn hbody hbegun hread
    exact ⟨_, hdue, hresponse, List.nil_prefix⟩
  | torn _ hdue hbody h =>
    obtain ⟨hresponse, rfl⟩ := read_torn hbody h hread
    exact ⟨_, hdue, hresponse, List.nil_prefix⟩
  | @upgraded r hdue hbody hsome _ =>
    obtain ⟨-, hprefix, -⟩ := hsound.upgrade _ hsome
    have hprint : r.print = r.head := by rw [Reply.print, hbody, Option.getD_none, List.append_nil]
    rcases List.prefix_or_prefix_of_prefix hprefix (List.prefix_append r.head _) with hhead | hhead
    · by_cases hall : c.wire = r.head
      · have hwhole := r.read_print []
        rw [List.append_nil, hprint, ← hall, hread] at hwhole
        obtain ⟨hresponse, rfl⟩ := Prod.mk.inj (Option.some.inj hwhole)
        exact ⟨_, hdue, hresponse, List.nil_prefix⟩
      · rw [r.read_begun (hprint ▸ hhead) (hprint ▸ hall)] at hread
        cases hread
    · obtain ⟨more, hmore⟩ := hhead
      rw [← hmore, ← hprint, r.read_print] at hread
      obtain ⟨hresponse, rfl⟩ := Prod.mk.inj (Option.some.inj hread)
      rw [← hmore] at hprefix
      exact ⟨_, hdue, hresponse.symm, (List.prefix_append_right_inj _).mp hprefix⟩

theorem read_whole (hsound : WireSound c) (h : Course owner true c) (hended : c.phase.side = .ended)
    {r : Reply} (hdue : Due owner c.head r) :
    readResponse c.wire = some (r.response, c.frames) := by
  have hread {r' : Reply} (hdue' : Due owner c.head r') (hwire : c.wire = r'.print ++ c.frames) :
      readResponse c.wire = some (r.response, c.frames) := by
    obtain rfl := hdue.unique hdue'
    rw [hwire, r.read_print]
  cases h with
  | reading hphase => simp [hphase] at hended
  | silent _ _ hnone => exact absurd hdue (hnone r)
  | torn hcut => cases hcut
  | @sending r' body hdue' hbody hnone h =>
    have hframes : c.frames = [] := by rw [frames, (hsound.static hnone).2]; rfl
    refine hread hdue' ?_
    rw [hframes, List.append_nil, Reply.print, hbody, Option.getD_some]
    have hsent : Sending r' body .finished c.wire := h.of_ended hended rfl
    generalize c.wire = wire at hsent
    cases hsent with
    | ended => rfl
  | @upgraded r' hdue' hbody hsome hwhole =>
    refine hread hdue' ?_
    have hall := hwhole rfl
    rw [unsent_of_ended hended, List.append_nil] at hall
    rw [hall, Reply.print, hbody, Option.getD_none, List.append_nil]
    rfl

end Connection

theorem printable_mimeTypes : ∀ t ∈ ascii "application/octet-stream" :: mimeTypes.map Prod.snd,
    OneLine t ∧ Bare isOws t := by
  decide

theorem mem_mimeTypes {path mimeType : List UInt8} (h : mimeTypeForPath path = .ok mimeType) :
    mimeType ∈ ascii "application/octet-stream" :: mimeTypes.map Prod.snd := by
  unfold mimeTypeForPath at h
  split at h
  · exact Except.ok.inj h ▸ List.mem_cons_self
  · rename_i fromEnd _
    have hwithin : path.length - 1 - fromEnd ≤ path.length := by omega
    obtain ⟨extension, hextension⟩ := substr_ok hwithin none
    rw [hextension] at h
    have hvalue := Except.ok.inj h
    cases hlookup : mimeTypes.lookup (toLower extension) with
    | none =>
      rw [hlookup] at hvalue
      exact hvalue ▸ List.mem_cons_self
    | some found =>
      rw [hlookup] at hvalue
      obtain ⟨l, l', hl, -⟩ := List.lookup_eq_some_iff.mp hlookup
      have hmem : (toLower extension, found) ∈ mimeTypes := by simp [hl]
      exact hvalue ▸ List.mem_cons_of_mem _ (List.mem_map_of_mem hmem)

theorem printable_asset {resources : List Resource} {path : List UInt8} {asset : Asset}
    (h : resolveAsset resources path = .ok (some asset)) : asset.Printable := by
  have hmime : ∃ file, mimeTypeForPath file = .ok asset.mimeType := by
    unfold resolveAsset at h
    cases hfile : assetFile path with
    | error e => simp [hfile, bind, Except.bind] at h
    | ok file =>
      refine ⟨file, ?_⟩
      rw [hfile] at h
      cases hfind : resources.find? (fun r => file = r.originalFilename) with
      | none =>
        simp only [hfind, bind, Except.bind] at h
        cases h
      | some resource =>
        cases hmime : mimeTypeForPath file with
        | error e => simp [hfind, hmime, bind, Except.bind] at h
        | ok mimeType =>
          simp only [hfind, hmime, bind, Except.bind] at h
          exact congrArg _ (congrArg Asset.mimeType (Option.some.inj (Except.ok.inj h)))
  obtain ⟨file, hmime⟩ := hmime
  obtain ⟨hline, hbare⟩ := printable_mimeTypes _ (mem_mimeTypes hmime)
  exact ⟨hline, hbare⟩

section Engine
variable {convertToBase64 : List UInt8 → List UInt8}

theorem printable_engineOwner (hbase64 : ∀ bytes, convertToBase64 bytes = Base64.encode bytes)
    (resources : List Resource) (authorize : List UInt8 → Bool) (limit : ℕ) :
    (engineOwner resources authorize (makeAcceptKey convertToBase64) limit).Printable := by
  have hkey (key : List UInt8) : ∀ c ∈ makeAcceptKey convertToBase64 key, 0x2b ≤ c := by
    rw [makeAcceptKey, hbase64]
    exact fun c => Base64.le_of_mem_encode
  have hnot {b : UInt8} (hb : b < 0x2b) (key : List UInt8) :
      b ∉ makeAcceptKey convertToBase64 key :=
    fun h => absurd (hkey key b h) (UInt8.not_le.mpr hb)
  have hows (key : List UInt8) : ∀ c ∈ makeAcceptKey convertToBase64 key, isOws c = false := by
    intro c hc
    have hspace : c ≠ 0x20 := fun h => hnot (by decide) key (h ▸ hc)
    have htab : c ≠ 0x09 := fun h => hnot (by decide) key (h ▸ hc)
    simp [isOws, hspace, htab]
  refine ⟨fun key => ⟨hnot (by decide) key, hnot (by decide) key⟩, fun key => ⟨?_, ?_⟩, ?_⟩
  · exact fun c hc => hows key c (List.mem_of_mem_head? hc)
  · exact fun c hc => hows key c (List.mem_of_mem_getLast? hc)
  · rintro provider path asset hprovider hasset
    obtain rfl := Option.some.inj hprovider
    exact printable_asset hasset

/-- Whatever other threads enqueue and wherever writes fail, a client reads the reply that the
request in the bytes read from it deserves, with every field and byte, or no reply at all; what it
reads behind an accepted upgrade are the frames taken for it, and it reads all of this when no write
has failed. -/
theorem client_reads (hbase64 : ∀ bytes, convertToBase64 bytes = Base64.encode bytes)
    (resources : List Resource) (authorize : List UInt8 → Bool) (limit : ℕ)
    (es : List ConnectionEvent) :
    let owner := engineOwner resources authorize (makeAcceptKey convertToBase64) limit
    let c := Connection.run owner {} es
    let bytes := received (Tap.run owner es).reads
    (∀ response rest, readResponse c.wire = some (response, rest) →
      ∃ r, Due owner bytes r ∧ response = r.response ∧ rest <+: c.frames) ∧
    (Runs.Along (Connection.step owner) Connection.Intact {} es → c.phase.side = .ended →
      ∀ r, Due owner bytes r → readResponse c.wire = some (r.response, c.frames)) := by
  intro owner c bytes
  have hparse : parseRequest bytes = parseRequest c.head := Tap.parseRequest_reads owner es
  simp only [Due, hparse]
  have howner := printable_engineOwner hbase64 resources authorize limit
  refine ⟨fun response rest hread => ?_, fun hintact hended r hdue => ?_⟩
  · obtain ⟨hsound, hcourse⟩ : c.WireSound ∧ Connection.Course owner false c :=
      Connection.course_run howner es fun h => absurd h Bool.false_ne_true
    exact Connection.read_course hsound hcourse hread
  · obtain ⟨hsound, hcourse⟩ := Connection.course_run howner es fun _ => hintact
    exact Connection.read_whole hsound hcourse hended hdue

def pageRead : List ConnectionEvent :=
  [.thread { read := ascii "GET / HTTP/1.1\r\n\r\n" }, .thread {}, .thread { written := 100 },
    .thread { written := 100 }, .thread {}, .thread {}, .thread { written := 2 },
    .thread { written := 1 }, .thread {}, .thread {}]

theorem client_reads_page :
    let owner := engineOwner (namedResources (ascii "<p>") []) (fun _ => true)
      (makeAcceptKey Base64.encode) 2097152
    ∃ response, readResponse (Connection.run owner {} pageRead).wire = some (response, []) ∧
      response.statusCode = 200 ∧ response.body = ascii "<p>" := by
  intro owner
  let asset : Asset := { data := ascii "<p>", mimeType := ascii "text/html; charset=utf-8" }
  have hasset : asset.Printable := ⟨by decide, by decide⟩
  have hdue : Due owner (received (Tap.run owner pageRead).reads) (ok asset hasset) := by
    let request : Request :=
      { method := ascii "GET", target := ascii "/", path := ascii "/", version := ascii "HTTP/1.1" }
    refine ⟨request, ?_, .ok asset ?_ ?_ hasset⟩
    · decide +kernel
    · decide +kernel
    · decide +kernel
  obtain ⟨-, hwhole⟩ := client_reads (fun bytes => Eq.refl (Base64.encode bytes))
    (namedResources (ascii "<p>") []) (fun _ => true) 2097152 pageRead
  have hread := hwhole (by decide +kernel) (by decide +kernel) _ hdue
  have hframes : (Connection.run owner {} pageRead).frames = [] := by decide +kernel
  rw [hframes] at hread
  exact ⟨_, hread, rfl, rfl⟩

end Engine

end Ppm.Server

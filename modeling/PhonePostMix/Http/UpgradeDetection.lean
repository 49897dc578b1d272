import PhonePostMix.Http.PrintedRequest

/-! `isWebSocketUpgrade` against the list semantics of headers: it asks the last header of a name,
where the list is what all headers of the name hold together. -/

namespace Ppm.Http
open ListField

/-- The list that these values make together has the token, in some letter case. -/
def Lists (values : List (List UInt8)) (token : List UInt8) : Prop :=
  ∃ item ∈ items 0x2c isOws (join 0x2c values), toLower item = token

instance (values : List (List UInt8)) (token : List UInt8) : Decidable (Lists values token) :=
  inferInstanceAs (Decidable (∃ item ∈ _, _))

inductive Signal where
  | upgrade
  | connection
  | key

namespace Signal

def name : Signal → List UInt8
  | upgrade => ascii "Upgrade"
  | connection => ascii "Connection"
  | key => ascii "Sec-WebSocket-Key"

def In (values : List (List UInt8)) : Signal → Prop
  | upgrade => Lists values (ascii "websocket")
  | connection => Lists values (ascii "upgrade")
  | key => ∃ value ∈ values, value ≠ []

instance (values : List (List UInt8)) : (s : Signal) → Decidable (s.In values)
  | upgrade => inferInstanceAs (Decidable (Lists _ _))
  | connection => inferInstanceAs (Decidable (Lists _ _))
  | key => inferInstanceAs (Decidable (∃ value ∈ _, _))

end Signal

def RequestsUpgrade (line : RequestLine) (fields : List Field) : Prop :=
  line.method = ascii "GET" ∧ ∀ s : Signal, s.In (valuesOf fields s.name)

/-- The headers of the name give the signal, but the last of them alone does not. -/
def Overwritten (fields : List Field) (s : Signal) : Prop :=
  s.In (valuesOf fields s.name) ∧ ¬ s.In (valuesOf fields s.name).getLast?.toList

section Token
variable {token : List UInt8}

theorem anyItem_eq (token : List UInt8) (parts : List (List UInt8)) :
    anyItem token parts = .ok (decide (token ∈ parts.map (strip isBlank))) := by
  induction parts with
  | nil => rfl
  | cons part parts ih =>
    simp only [anyItem, trim_eq, bind, Except.bind, pure, Except.pure, ih, List.map_cons,
      List.mem_cons]
    by_cases hpart : strip isBlank part = token
    · simp [hpart]
    · simp [hpart, Ne.symm hpart]

theorem splitOn_eq_getlines (delimiter : UInt8) (s : List UInt8) :
    s.splitOn delimiter = getlines delimiter s ∨
      s.splitOn delimiter = getlines delimiter s ++ [[]] := by
  induction s with
  | nil => exact .inr rfl
  | cons c rest ih =>
    rw [List.splitOn_cons_eq_if_modifyHead, getlines]
    by_cases hc : c = delimiter
    · rw [if_pos (beq_iff_eq.mpr hc), if_pos hc]
      exact ih.imp (congrArg ([] :: ·)) (congrArg ([] :: ·))
    · rw [if_neg (mt beq_iff_eq.mp hc), if_neg hc]
      cases hlines : getlines delimiter rest with
      | nil =>
        rw [hlines] at ih
        rcases ih with ih | ih
        · exact absurd ih (List.splitOn_ne_nil _ _)
        · rw [ih]
          exact .inl rfl
      | cons line lines =>
        rw [hlines] at ih
        rcases ih with ih | ih
        · rw [ih]
          exact .inl rfl
        · rw [ih]
          exact .inr rfl

theorem isBlank_toLowerByte (c : UInt8) : isBlank (toLowerByte c) = isBlank c := by
  obtain ⟨c⟩ := c
  revert c
  decide +kernel

theorem toLowerByte_eq_comma (c : UInt8) : toLowerByte c = 0x2c ↔ c = 0x2c := by
  obtain ⟨c⟩ := c
  revert c
  decide +kernel

theorem containsToken_eq (hne : token ≠ []) {value : List UInt8} (hvalue : OneLine value) :
    ∃ found, containsToken value token = .ok found ∧ (found = true ↔ Lists [value] token) := by
  refine ⟨_, anyItem_eq _ _, ?_⟩
  have hempty : token ∉ [strip isBlank []] := by
    have hnil : strip isBlank [] = [] := rfl
    simp [hnil, hne]
  have hparts : token ∈ (getlines 0x2c (toLower value)).map (strip isBlank) ↔
      token ∈ items 0x2c isBlank (toLower value) := by
    rw [items]
    rcases splitOn_eq_getlines 0x2c (toLower value) with hsplit | hsplit
    · rw [hsplit]
    · rw [hsplit, List.map_append, List.mem_append]
      exact (or_iff_left hempty).symm
  have hone : join 0x2c [value] = value := by simp [join]
  rw [decide_eq_true_iff, hparts, toLower, items_map toLowerByte_eq_comma isBlank_toLowerByte,
    items_congr fun c hc => hvalue.isBlank_eq hc, List.mem_map, Lists, hone]
  rfl

theorem lists_iff (hne : token ≠ []) (values : List (List UInt8)) :
    Lists values token ↔ ∃ value ∈ values, Lists [value] token := by
  have hone (value : List UInt8) : join 0x2c [value] = value := by simp [join]
  have hitem {item : List UInt8} (h : toLower item = token) : item ≠ [] := by
    rintro rfl
    exact hne h.symm
  constructor
  · rintro ⟨item, hin, hlower⟩
    obtain ⟨value, hvalue, hin'⟩ := (mem_items_join (hitem hlower) values).mp hin
    exact ⟨value, hvalue, item, (hone value).symm ▸ hin', hlower⟩
  · rintro ⟨value, hvalue, item, hin, hlower⟩
    rw [hone value] at hin
    exact ⟨item, (mem_items_join (hitem hlower) values).mpr ⟨value, hvalue, hin⟩, hlower⟩

end Token

theorem Signal.in_iff (s : Signal) (values : List (List UInt8)) :
    s.In values ↔ ∃ value ∈ values, s.In [value] := by
  cases s with
  | upgrade => exact lists_iff (by decide) values
  | connection => exact lists_iff (by decide) values
  | key => simp [Signal.In]

theorem Signal.In.of_last {s : Signal} {values : List (List UInt8)}
    (h : s.In values.getLast?.toList) : s.In values := by
  obtain ⟨value, hvalue, hin⟩ := (s.in_iff _).mp h
  exact (s.in_iff values).mpr
    ⟨value, List.mem_of_mem_getLast? (Option.mem_toList.mp hvalue), hin⟩

theorem oneLine_of_mem_valuesOf {fields : List Field} {name value : List UInt8}
    (h : value ∈ valuesOf fields name) : OneLine value := by
  obtain ⟨f, -, rfl⟩ := List.mem_map.mp h
  exact f.value_line

theorem valuesOf_congr (fields : List Field) {name : List UInt8} (name' : List UInt8)
    (h : toLower name = toLower name') : valuesOf fields name = valuesOf fields name' := by
  rw [valuesOf, valuesOf, h]

theorem containsToken_header (line : RequestLine) (fields : List Field)
    (name token : List UInt8) (hne : token ≠ []) :
    ∃ found, containsToken ((parsed line fields).header name) token = .ok found ∧
      (found = true ↔ Lists (valuesOf fields name).getLast?.toList token) := by
  rw [header_parsed]
  cases hlast : (valuesOf fields name).getLast? with
  | none =>
    have hnil : OneLine [] := ⟨List.not_mem_nil, List.not_mem_nil⟩
    exact containsToken_eq hne hnil
  | some value =>
    exact containsToken_eq hne (oneLine_of_mem_valuesOf (List.mem_of_mem_getLast? hlast))

theorem isWebSocketUpgrade_parsed (line : RequestLine) (fields : List Field) :
    ∃ upgrade, (parsed line fields).isWebSocketUpgrade = .ok upgrade ∧
      (upgrade = true ↔ line.method = ascii "GET" ∧
        ∀ s : Signal, s.In (valuesOf fields s.name).getLast?.toList) := by
  obtain ⟨found, hfound, hupgrade⟩ := containsToken_header line fields (ascii "upgrade")
    (ascii "websocket") (by decide)
  obtain ⟨found', hfound', hconnection⟩ := containsToken_header line fields
    (ascii "connection") (ascii "upgrade") (by decide)
  have hkey : (parsed line fields).header (ascii "sec-websocket-key") ≠ [] ↔
      ∃ value ∈ (valuesOf fields (ascii "sec-websocket-key")).getLast?.toList, value ≠ [] := by
    rw [header_parsed]
    cases (valuesOf fields (ascii "sec-websocket-key")).getLast? with
    | none => simp
    | some value => simp
  rw [valuesOf_congr fields Signal.upgrade.name (by decide)] at hupgrade
  rw [valuesOf_congr fields Signal.connection.name (by decide)] at hconnection
  rw [valuesOf_congr fields Signal.key.name (by decide)] at hkey
  have hsignals : (∀ s : Signal, s.In (valuesOf fields s.name).getLast?.toList) ↔
      found = true ∧ found' = true ∧
        (parsed line fields).header (ascii "sec-websocket-key") ≠ [] := by
    rw [hupgrade, hconnection, hkey]
    constructor
    · exact fun h => ⟨h .upgrade, h .connection, h .key⟩
    · rintro ⟨hu, hc, hk⟩ (_ | _ | _)
      · exact hu
      · exact hc
      · exact hk
  rw [hsignals]
  unfold Request.isWebSocketUpgrade
  simp only [hfound, hfound', bind, Except.bind, pure, Except.pure]
  have hmethod : (parsed line fields).method = line.method := rfl
  rw [hmethod]
  split_ifs with hget hno hno'
  · exact ⟨false, rfl, by simp [hget]⟩
  · exact ⟨false, rfl, by simp_all⟩
  · exact ⟨false, rfl, by simp_all⟩
  · exact ⟨_, rfl, by simp_all⟩

/-- However the headers of a request are written, the upgrade test agrees with their lists unless
the request asks for an upgrade and a header takes back what an earlier one of its name says. -/
theorem upgrade_detected_iff (line : RequestLine) (headers : List HeaderLine)
    (trailing : List UInt8) :
    let fields := headers.map HeaderLine.toField
    ∃ r upgrade, parseRequest (printRequest line (headers.map HeaderLine.print) ++ trailing) =
        .ok (some r) ∧ r.isWebSocketUpgrade = .ok upgrade ∧
      ((upgrade = true ↔ RequestsUpgrade line fields) ↔
        (RequestsUpgrade line fields → ∀ s, ¬ Overwritten fields s)) := by
  intro fields
  obtain ⟨upgrade, hupgrade, hiff⟩ := isWebSocketUpgrade_parsed line fields
  refine ⟨_, upgrade, parseRequest_print line headers trailing, hupgrade, ?_⟩
  rw [hiff]
  constructor
  · rintro h hrequests s ⟨-, hnot⟩
    exact hnot ((h.mpr hrequests).2 s)
  · intro h
    constructor
    · exact fun hlast => ⟨hlast.1, fun s => (hlast.2 s).of_last⟩
    · intro hrequests
      refine ⟨hrequests.1, fun s => ?_⟩
      by_contra hnot
      exact h hrequests s ⟨hrequests.2 s, hnot⟩

def socketLine : RequestLine :=
  { method := ascii "GET", target := ascii "/ws", version := ascii "HTTP/1.1" }

def socketFields (connections : List Field) : List Field :=
  { name := ascii "Upgrade", value := ascii "websocket" } ::
    { name := ascii "Sec-WebSocket-Key", value := ascii "k" } :: connections

/-- The list `Upgrade, keep-alive` is heard in one header and not in two. -/
theorem split_connection_refused :
    let one := socketFields [{ name := ascii "Connection", value := ascii "Upgrade, keep-alive" }]
    let two := socketFields [{ name := ascii "Connection", value := ascii "Upgrade" },
      { name := ascii "Connection", value := ascii "keep-alive" }]
    RequestsUpgrade socketLine one ∧ RequestsUpgrade socketLine two ∧
      (∃ r, parseRequest (printRequest socketLine (one.map Field.print)) = .ok (some r) ∧
        r.isWebSocketUpgrade = .ok true) ∧
      ∃ r, parseRequest (printRequest socketLine (two.map Field.print)) = .ok (some r) ∧
        r.isWebSocketUpgrade = .ok false := by
  intro one two
  have hone : ∀ s : Signal, s.In (valuesOf one s.name) := by
    rintro (_ | _ | _) <;> decide +kernel
  have htwo : ∀ s : Signal, s.In (valuesOf two s.name) := by
    rintro (_ | _ | _) <;> decide +kernel
  have hparse (fields : List Field) := parseRequest_fields socketLine fields []
  simp only [List.append_nil] at hparse
  exact ⟨⟨rfl, hone⟩, ⟨rfl, htwo⟩, ⟨_, hparse one, by decide +kernel⟩,
    _, hparse two, by decide +kernel⟩

end Ppm.Http

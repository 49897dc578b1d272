import Mathlib.Algebra.Group.Nat.Defs
import PhonePostMix.Http.PrintedRequest

/-! Responses as `makeResponseHead` prints them, and what a client reads of them: a response is
taken only when all of it has arrived, and what follows it is left alone. -/

namespace Ppm.Http
open ListField

/-- A response as its reader takes it. The newest header stands first, as in a `Request`. -/
structure Response where
  version : List UInt8
  statusCode : ℕ
  reasonPhrase : List UInt8
  headers : List (List UInt8 × List UInt8)
  body : List UInt8
  deriving DecidableEq, Repr

def decimal (s : List UInt8) : Option ℕ :=
  let digits := s.map fun c => Char.ofNat c.toNat
  if s ≠ [] ∧ digits.all Char.isDigit = true then some (Nat.ofDigitChars 10 digits 0) else none

def readStatusLine (line : List UInt8) : Option (List UInt8 × ℕ × List UInt8) :=
  -- the reason phrase is all that follows the second space
  match line.splitOn 0x20 with
  | version :: status :: reason =>
    (decimal status).map fun statusCode => (version, statusCode, [0x20].intercalate reason)
  | _ => none

def bodyLength (statusCode : ℕ) (headers : List (List UInt8 × List UInt8)) : Option ℕ :=
  -- without a length only a response that has no body ends before the connection does
  match headers.lookup (ascii "content-length") with
  | none => if statusCode < 200 then some 0 else none
  | some value => decimal value

def readHead (text : List UInt8) : Option Response :=
  match getlines 0x0a text with
  | [] => none
  | statusLine :: headerLines => do
    let (version, statusCode, reasonPhrase) ← readStatusLine statusLine.dropLast
    let headers ← (headerLines.foldlM addHeader []).toOption
    return { version, statusCode, reasonPhrase, headers, body := [] }

def readResponse (text : List UInt8) : Option (Response × List UInt8) :=
  match find headEndMark text with
  | none => none
  | some headEnd => do
    let head ← readHead (text.take (headEnd + 2))
    let length ← bodyLength head.statusCode head.headers
    let rest := text.drop (headEnd + headEndMark.length)
    if length ≤ rest.length then some ({ head with body := rest.take length }, rest.drop length)
    else none

/-- What `makeResponseHead` is asked for, and the body that is sent after it. -/
structure Reply where
  statusCode : ℕ
  reasonPhrase : List UInt8
  contentType : List UInt8
  extraHeaders : List Field
  body : Option (List UInt8)
  reason_line : OneLine reasonPhrase
  type_line : OneLine contentType
  type_bare : Bare isOws contentType
  extra_length : ∀ f ∈ extraHeaders, toLower f.name ≠ ascii "content-length"
  body_framed : body = none → statusCode < 200

section Decimal
variable (n : ℕ)

theorem ascii_toString : ascii (toString n) = (Nat.toDigits 10 n).map fun c => c.toNat.toUInt8 := by
  rw [ascii, Nat.toString_eq_ofList_toDigits, String.toList_ofList]

theorem digit_byte {c : Char} (hc : c.isDigit = true) :
    Char.ofNat (c.toNat.toUInt8).toNat = c ∧ c.toNat.toUInt8 ≠ 0x20 ∧ c.toNat.toUInt8 ≠ 0x09 ∧
      c.toNat.toUInt8 ≠ 0x0d ∧ c.toNat.toUInt8 ≠ 0x0a := by
  obtain ⟨hlow, hhigh⟩ : 48 ≤ c.toNat ∧ c.toNat ≤ 57 := by
    simpa [Char.isDigit, UInt32.le_iff_toNat_le] using hc
  have hbyte : (c.toNat.toUInt8).toNat = c.toNat := by
    rw [Nat.toUInt8, UInt8.toNat_ofNat', Nat.mod_eq_of_lt (by omega)]
  have hne (b : UInt8) (hb : b.toNat < 48) : c.toNat.toUInt8 ≠ b := by
    rintro rfl
    omega
  refine ⟨?_, hne _ (by decide), hne _ (by decide), hne _ (by decide), hne _ (by decide)⟩
  rw [hbyte, Char.ofNat_toNat]

theorem digits_read : (ascii (toString n)).map (fun c => Char.ofNat c.toNat) = Nat.toDigits 10 n := by
  rw [ascii_toString, List.map_map]
  calc (Nat.toDigits 10 n).map _ = (Nat.toDigits 10 n).map id := by
        refine List.map_congr_left fun c hc => ?_
        exact (digit_byte (Nat.isDigit_of_mem_toDigits (by decide) (by decide) hc)).1
    _ = Nat.toDigits 10 n := List.map_id _

theorem ascii_toString_ne_nil : ascii (toString n) ≠ [] := by
  rw [ascii_toString]
  simp

theorem decimal_toString : decimal (ascii (toString n)) = some n := by
  have hdigits : (Nat.toDigits 10 n).all Char.isDigit = true :=
    List.all_eq_true.mpr fun c hc => Nat.isDigit_of_mem_toDigits (by decide) (by decide) hc
  unfold decimal
  simp only [digits_read]
  rw [if_pos ⟨ascii_toString_ne_nil n, hdigits⟩, Nat.ofDigitChars_ten_toDigits]

theorem mem_toString {c : UInt8} (hc : c ∈ ascii (toString n)) :
    c ≠ 0x20 ∧ c ≠ 0x09 ∧ c ≠ 0x0d ∧ c ≠ 0x0a := by
  rw [ascii_toString] at hc
  obtain ⟨d, hd, rfl⟩ := List.mem_map.mp hc
  exact (digit_byte (Nat.isDigit_of_mem_toDigits (by decide) (by decide) hd)).2

theorem oneLine_toString : OneLine (ascii (toString n)) :=
  ⟨fun h => (mem_toString n h).2.2.1 rfl, fun h => (mem_toString n h).2.2.2 rfl⟩

theorem bare_toString : Bare isOws (ascii (toString n)) := by
  have hnot : ∀ c ∈ ascii (toString n), isOws c = false := by
    intro c hc
    obtain ⟨hspace, htab, -⟩ := mem_toString n hc
    simp [isOws, hspace, htab]
  exact ⟨fun c hc => hnot c (List.mem_of_mem_head? hc),
    fun c hc => hnot c (List.mem_of_mem_getLast? hc)⟩

end Decimal

def lengthField (length : ℕ) : Field where
  name := ascii "Content-Length"
  value := ascii (toString length)
  value_line := oneLine_toString length
  value_bare := bare_toString length

namespace Reply
variable (r : Reply)

def typeField : Field where
  name := ascii "Content-Type"
  value := r.contentType
  value_line := r.type_line
  value_bare := r.type_bare

def contentLength : ℤ :=
  match r.body with
  | none => -1
  | some body => body.length

def head : List UInt8 :=
  makeResponseHead r.statusCode r.reasonPhrase r.contentType r.contentLength
    (r.extraHeaders.map Field.print)

def print : List UInt8 := r.head ++ r.body.getD []

def lengthFields : List Field :=
  match r.body with
  | none => []
  | some body => [lengthField body.length]

def fields : List Field :=
  (if r.contentType = [] then [] else [r.typeField]) ++ r.lengthFields ++ r.extraHeaders

def statusLine : List UInt8 :=
  ascii "HTTP/1.1" ++ 0x20 :: (ascii (toString r.statusCode) ++ 0x20 :: r.reasonPhrase)

def response : Response where
  version := ascii "HTTP/1.1"
  statusCode := r.statusCode
  reasonPhrase := r.reasonPhrase
  headers := (r.fields.map Field.entry).reverse
  body := r.body.getD []

theorem print_typeField : r.typeField.print = ascii "Content-Type: " ++ r.contentType := by
  have hname : ascii "Content-Type: " = ascii "Content-Type" ++ ascii ": " := by decide
  rw [hname]
  rfl

theorem print_lengthField (length : ℕ) :
    (lengthField length).print = ascii "Content-Length: " ++ ascii (toString length) := by
  have hname : ascii "Content-Length: " = ascii "Content-Length" ++ ascii ": " := by decide
  rw [hname]
  rfl

theorem headLines_append (lines lines' : List (List UInt8)) :
    headLines (lines ++ lines') = headLines lines ++ headLines lines' := List.flatMap_append

theorem head_eq : r.head = headLines (r.statusLine :: r.fields.map Field.print) ++ [0x0d, 0x0a] := by
  have hversion : ascii "HTTP/1.1 " = ascii "HTTP/1.1" ++ [0x20] := by decide
  have hspace : ascii " " = [0x20] := by decide
  have hend : ascii "\r\n" = [0x0d, 0x0a] := by decide
  have hstatus : ascii "HTTP/1.1 " ++ ascii (toString r.statusCode) ++ ascii " " ++
      r.reasonPhrase ++ ascii "\r\n" = headLines [r.statusLine] := by
    simp [hversion, hspace, hend, headLines, statusLine]
  have htype : (if r.contentType = [] then []
        else ascii "Content-Type: " ++ r.contentType ++ ascii "\r\n") =
      headLines ((if r.contentType = [] then [] else [r.typeField]).map Field.print) := by
    split_ifs
    · rfl
    · simp [headLines, print_typeField, hend]
  have hlength : (if r.contentLength < 0 then []
        else ascii "Content-Length: " ++ ascii (toString r.contentLength) ++ ascii "\r\n") =
      headLines (r.lengthFields.map Field.print) := by
    unfold contentLength lengthFields
    cases r.body with
    | none => rfl
    | some body =>
      dsimp only
      rw [if_neg (Int.not_lt.mpr (Int.natCast_nonneg _))]
      simp [headLines, print_lengthField, hend]
      rfl
  have hextra : ((r.extraHeaders.map Field.print).map (· ++ ascii "\r\n")).flatten =
      headLines (r.extraHeaders.map Field.print) := by
    rw [hend, headLines, List.flatMap]
  have hcons (rest : List (List UInt8)) :
      headLines (r.statusLine :: rest) = headLines [r.statusLine] ++ headLines rest :=
    headLines_append [r.statusLine] rest
  unfold head makeResponseHead
  rw [fields, List.map_append, List.map_append, hcons, headLines_append, headLines_append,
    hstatus, htype, hlength, hextra, hend]
  simp only [List.append_assoc]

theorem oneLine_statusLine : OneLine r.statusLine := by
  have hversion : OneLine (ascii "HTTP/1.1") := by decide
  have hspace : OneLine [0x20] := by decide
  exact hversion.append (hspace.append ((oneLine_toString _).append (hspace.append r.reason_line)))

theorem readStatusLine_statusLine :
    readStatusLine r.statusLine = some (ascii "HTTP/1.1", r.statusCode, r.reasonPhrase) := by
  have hversion : (0x20 : UInt8) ∉ ascii "HTTP/1.1" := by decide
  have hstatus : (0x20 : UInt8) ∉ ascii (toString r.statusCode) :=
    fun h => (mem_toString r.statusCode h).1 rfl
  unfold readStatusLine statusLine
  rw [List.splitOn_append_cons_self_of_not_mem hversion,
    List.splitOn_append_cons_self_of_not_mem hstatus]
  simp only [decimal_toString, Option.map_some, List.intercalate_splitOn]

theorem lines_ok : ∀ l ∈ r.statusLine :: r.fields.map Field.print, l ≠ [] ∧ OneLine l := by
  intro l hl
  rcases List.mem_cons.mp hl with rfl | hl
  · exact ⟨by simp [statusLine, ascii], r.oneLine_statusLine⟩
  · obtain ⟨f, -, rfl⟩ := List.mem_map.mp hl
    refine ⟨by simp [Field.print, ascii], ?_⟩
    rw [← Field.print_toLine]
    exact HeaderLine.oneLine_print _

theorem addHeaders_fields (fields : List Field) :
    (fields.map fun f => f.print ++ [0x0d]).foldlM addHeader [] =
      .ok (fields.map Field.entry).reverse := by
  have hlines : (fields.map fun f => f.print ++ [0x0d]) =
      (fields.map Field.toLine).map fun l => l.print ++ [0x0d] := by
    rw [List.map_map]
    exact List.map_congr_left fun f _ => congrArg (· ++ [0x0d]) f.print_toLine.symm
  rw [hlines, addHeaders_print, List.append_nil, List.map_map]
  rfl

theorem readHead_lines : readHead (headLines (r.statusLine :: r.fields.map Field.print)) =
    some { r.response with body := [] } := by
  unfold readHead
  rw [getlines_headLines fun l hl => (r.lines_ok l hl).2, List.map_cons, List.map_map]
  have hheaders := addHeaders_fields r.fields
  simp only [List.dropLast_concat, readStatusLine_statusLine, Function.comp_def, hheaders]
  rfl

theorem bodyLength_response :
    bodyLength r.statusCode (r.fields.map Field.entry).reverse = some (r.body.getD []).length := by
  have hlower : ascii "content-length" = toLower (ascii "content-length") := by decide
  have htype : toLower (ascii "Content-Type") ≠ ascii "content-length" := by decide
  have hname : toLower (ascii "Content-Length") = ascii "content-length" := by decide
  have hextra : valuesOf r.extraHeaders (ascii "content-length") = [] := by
    rw [valuesOf, List.map_eq_nil_iff, List.filter_eq_nil_iff]
    intro f hf
    rw [← hlower]
    simpa using r.extra_length f hf
  have hvalues : valuesOf r.fields (ascii "content-length") =
      valuesOf r.lengthFields (ascii "content-length") := by
    have hfirst : valuesOf (if r.contentType = [] then [] else [r.typeField])
        (ascii "content-length") = [] := by
      split_ifs
      · rfl
      · simp [valuesOf, typeField, htype, ← hlower]
    rw [fields, valuesOf, List.filter_append, List.filter_append, List.map_append, List.map_append,
      ← valuesOf, ← valuesOf, ← valuesOf, hfirst, hextra, List.append_nil, List.nil_append]
  unfold bodyLength
  rw [hlower, lookup_entries, hvalues]
  cases hbody : r.body with
  | none =>
    have hnone : valuesOf r.lengthFields (ascii "content-length") = [] := by
      rw [lengthFields, hbody]
      rfl
    rw [hnone]
    exact if_pos (r.body_framed hbody)
  | some body =>
    have hsome : valuesOf r.lengthFields (ascii "content-length") =
        [ascii (toString body.length)] := by
      rw [lengthFields, hbody]
      simp [valuesOf, lengthField, hname, ← hlower]
    rw [hsome]
    exact decimal_toString body.length

theorem find_head (more : List UInt8) : find headEndMark (r.head ++ more) =
    some ((headLines (r.statusLine :: r.fields.map Field.print)).length - 2) := by
  rw [head_eq]
  exact find_headLines (fun l hl => ⟨(r.lines_ok l hl).1, (r.lines_ok l hl).2.1⟩) more

theorem two_le_headLines :
    2 ≤ (headLines (r.statusLine :: r.fields.map Field.print)).length := by
  simp only [headLines, List.flatMap_cons, List.length_append, List.length_cons]
  omega

theorem read_head (more : List UInt8) : readResponse (r.head ++ more) =
    if (r.body.getD []).length ≤ more.length then
      some ({ r.response with body := more.take (r.body.getD []).length },
        more.drop (r.body.getD []).length)
    else none := by
  have hlines := r.two_le_headLines
  have htake : (r.head ++ more).take
      ((headLines (r.statusLine :: r.fields.map Field.print)).length - 2 + 2) =
        headLines (r.statusLine :: r.fields.map Field.print) := by
    rw [Nat.sub_add_cancel hlines, head_eq, List.append_assoc, List.take_left]
  have hdrop : (r.head ++ more).drop
      ((headLines (r.statusLine :: r.fields.map Field.print)).length - 2 + headEndMark.length) =
        more := by
    refine List.drop_left' ?_
    have hmark : headEndMark.length = 4 := rfl
    rw [head_eq, List.length_append, hmark]
    simp only [List.length_cons, List.length_nil]
    omega
  unfold readResponse
  rw [find_head]
  simp only [htake, hdrop, readHead_lines, bind, Option.bind]
  have hlength := r.bodyLength_response
  simp only [response, hlength]

theorem read_print (more : List UInt8) :
    readResponse (r.print ++ more) = some (r.response, more) := by
  rw [print, List.append_assoc, read_head, if_pos (by simp), List.take_left, List.drop_left]
  rfl

theorem readResponse_of_find {text : List UInt8} (h : find headEndMark text = none) :
    readResponse text = none := by
  unfold readResponse
  rw [h]

theorem find_begun {sent : List UInt8} (hsent : sent <+: r.head) (hne : sent ≠ r.head) :
    find headEndMark sent = none := by
  obtain ⟨tail, htail⟩ := hsent
  rw [Option.eq_none_iff_forall_ne_some]
  intro pos hpos
  have hhead := r.find_head []
  rw [List.append_nil, ← htail, find_append (by decide) hpos] at hhead
  have hpos' := Option.some.inj hhead
  have hfits := (find_eq_some hpos).2
  have hmark : headEndMark.length = 4 := rfl
  have hlines := r.two_le_headLines
  have hlength := congrArg List.length (htail.trans r.head_eq)
  simp only [List.length_append, List.length_cons, List.length_nil] at hlength
  have hnil : tail = [] := List.eq_nil_of_length_eq_zero (by omega)
  rw [hnil, List.append_nil] at htail
  exact hne htail

theorem read_torn {sent more : List UInt8} (hsent : sent <+: r.head) (hne : sent ≠ r.head)
    (hmore : OneLine more) : readResponse (sent ++ more) = none := by
  refine readResponse_of_find ?_
  have hbegun := r.find_begun hsent hne
  cases more with
  | nil => rwa [List.append_nil]
  | cons c more =>
    obtain ⟨hreturn, hreturns⟩ := not_or.mp (List.mem_cons.not.mp hmore.1)
    have hmark : ∀ b ∈ headEndMark, b = 0x0d ∨ b = 0x0a := by decide +kernel
    have hc : c ∉ headEndMark := by
      intro hc
      rcases hmark c hc with rfl | rfl
      · exact hmore.1 List.mem_cons_self
      · exact hmore.2 List.mem_cons_self
    have hskip := find_skip hreturns []
    rw [List.append_nil] at hskip
    rw [find_append_cons hc (by decide) hbegun, hskip]
    rfl

theorem read_begun {text : List UInt8} (htext : text <+: r.print) (hne : text ≠ r.print) :
    readResponse text = none := by
  rcases List.prefix_or_prefix_of_prefix htext (List.prefix_append r.head _) with hhead | hhead
  · by_cases heq : text = r.head
    · subst heq
      have hbody : r.body.getD [] ≠ [] := fun hnil => hne (by rw [print, hnil, List.append_nil])
      have hread := r.read_head []
      rw [List.append_nil] at hread
      rw [hread]
      exact if_neg (Nat.not_le.mpr (List.length_pos_iff.mpr hbody))
    · have hread : readResponse (text ++ []) = none :=
        r.read_torn hhead heq ⟨List.not_mem_nil, List.not_mem_nil⟩
      rwa [List.append_nil] at hread
  · obtain ⟨more, rfl⟩ := hhead
    have hmore : more <+: r.body.getD [] := (List.prefix_append_right_inj r.head).mp htext
    have hshort : ¬ (r.body.getD []).length ≤ more.length := by
      intro hle
      exact hne (by rw [print, hmore.eq_of_length_le hle])
    rw [read_head, if_neg hshort]

end Reply

/-- A printed response is read back with what follows it, and no part of it is taken for a whole
response. -/
theorem readResponse_print (r : Reply) :
    (∀ more, readResponse (r.print ++ more) = some (r.response, more)) ∧
      ∀ text, text <+: r.print → text ≠ r.print → readResponse text = none :=
  ⟨r.read_print, fun _ => r.read_begun⟩

theorem readResponse_print_notFound :
    (∃ response, readResponse (ascii "HTTP/1.1 404 Not Found\r\nContent-Length: 4\r\n\r\nGoneHTTP") =
        some (response, ascii "HTTP") ∧
      response.statusCode = 404 ∧ response.reasonPhrase = ascii "Not Found" ∧
        response.body = ascii "Gone") ∧
      readResponse (ascii "HTTP/1.1 404 Not Found\r\nContent-Length: 4\r\n\r\nGon") = none := by
  let r : Reply :=
    { statusCode := 404, reasonPhrase := ascii "Not Found", contentType := [], extraHeaders := [],
      body := some (ascii "Gone"), reason_line := by decide, type_line := by decide,
      type_bare := by decide, extra_length := by decide, body_framed := by decide }
  obtain ⟨hread, hbegun⟩ := readResponse_print r
  have hprint : r.print ++ ascii "HTTP" =
      ascii "HTTP/1.1 404 Not Found\r\nContent-Length: 4\r\n\r\nGoneHTTP" := by decide +kernel
  refine ⟨⟨r.response, hprint ▸ hread (ascii "HTTP"), rfl, rfl, rfl⟩, ?_⟩
  exact hbegun _ (by decide +kernel) (by decide +kernel)

end Ppm.Http

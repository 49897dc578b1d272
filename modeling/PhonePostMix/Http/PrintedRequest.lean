import PhonePostMix.Http.HttpMessage
import PhonePostMix.Library.ListField

/-! Request heads as a client prints them, and what `parseRequest` reads in them. -/

namespace Ppm.Http
open ListField

def isOws (c : UInt8) : Bool := c = 0x20 || c = 0x09

def OneLine (s : List UInt8) : Prop := 0x0d ∉ s ∧ 0x0a ∉ s

def IsWord (s : List UInt8) : Prop := s ≠ [] ∧ ∀ c ∈ s, isSpace c = false

def Padding (s : List UInt8) : Prop := ∀ c ∈ s, isOws c = true

instance (s : List UInt8) : Decidable (OneLine s) := inferInstanceAs (Decidable (_ ∧ _))

instance (s : List UInt8) : Decidable (IsWord s) :=
  @instDecidableAnd _ _ inferInstance (List.decidableBAll _ s)

instance (s : List UInt8) : Decidable (Padding s) := List.decidableBAll _ s

structure RequestLine where
  method : List UInt8
  target : List UInt8
  version : List UInt8
  method_word : IsWord method := by decide
  target_word : IsWord target := by decide
  version_word : IsWord version := by decide

structure Field where
  name : List UInt8
  value : List UInt8
  name_colon : 0x3a ∉ name := by decide
  name_line : OneLine name := by decide
  name_bare : Bare isOws name := by decide
  value_line : OneLine value := by decide
  value_bare : Bare isOws value := by decide

structure HeaderLine extends Field where
  beforeName : List UInt8 := []
  afterName : List UInt8 := []
  beforeValue : List UInt8 := [0x20]
  afterValue : List UInt8 := []
  beforeName_padding : Padding beforeName := by decide
  afterName_padding : Padding afterName := by decide
  beforeValue_padding : Padding beforeValue := by decide
  afterValue_padding : Padding afterValue := by decide

def RequestLine.print (l : RequestLine) : List UInt8 :=
  l.method ++ [0x20] ++ l.target ++ [0x20] ++ l.version

def Field.print (f : Field) : List UInt8 := f.name ++ ascii ": " ++ f.value

def HeaderLine.print (l : HeaderLine) : List UInt8 :=
  l.beforeName ++ l.name ++ l.afterName ++ 0x3a :: (l.beforeValue ++ l.value ++ l.afterValue)

def printRequest (line : RequestLine) (headers : List (List UInt8)) : List UInt8 :=
  headLines (line.print :: headers) ++ [0x0d, 0x0a]

def Field.toLine (f : Field) : HeaderLine := { f with }

def valuesOf (fields : List Field) (name : List UInt8) : List (List UInt8) :=
  (fields.filter fun f => toLower f.name = toLower name).map (·.value)

theorem Field.print_toLine (f : Field) : f.toLine.print = f.print := by
  have hcolon : ascii ": " = [0x3a, 0x20] := by decide
  simp [Field.toLine, HeaderLine.print, Field.print, hcolon]

section Trim
variable {before s after : List UInt8}

theorem findIdx?_pad (hbefore : ∀ c ∈ before, isBlank c = true) (h : Bare isBlank s)
    (hne : s ≠ []) (after : List UInt8) :
    (before ++ s ++ after).findIdx? (fun c => !isBlank c) = some before.length := by
  obtain ⟨c, rest, rfl⟩ := List.exists_cons_of_ne_nil hne
  have hc : isBlank c = false := h.first c rfl
  have hnone : before.findIdx? (fun c => !isBlank c) = none :=
    List.findIdx?_eq_none_iff.mpr fun b hb => by simp [hbefore b hb]
  rw [List.append_assoc, List.findIdx?_append, hnone]
  simp [List.findIdx?_cons, hc]

theorem trim_pad (hbefore : ∀ c ∈ before, isBlank c = true) (h : Bare isBlank s)
    (hafter : ∀ c ∈ after, isBlank c = true) : trim (before ++ s ++ after) = .ok s := by
  unfold trim
  by_cases hne : s = []
  · subst hne
    have hnone : (before ++ [] ++ after).findIdx? (fun c => !isBlank c) = none := by
      refine List.findIdx?_eq_none_iff.mpr fun c hc => ?_
      rw [List.append_nil] at hc
      rcases List.mem_append.mp hc with hc | hc
      · simp [hbefore c hc]
      · simp [hafter c hc]
    rw [hnone]
  · have hreverse : (before ++ s ++ after).reverse.findIdx? (fun c => !isBlank c) =
        some after.length := by
      rw [List.reverse_append, List.reverse_append, ← List.append_assoc,
        findIdx?_pad (fun c hc => hafter c (List.mem_reverse.mp hc)) h.reverse
          (mt List.reverse_eq_nil_iff.mp hne), List.length_reverse]
    have hpos := List.length_pos_iff.mpr hne
    have hcount : (before ++ s ++ after).length - 1 - after.length - before.length + 1 =
        s.length := by
      simp only [List.length_append]
      omega
    rw [findIdx?_pad hbefore h hne, hreverse]
    dsimp only
    rw [hcount, substr, if_neg (by simp only [List.length_append]; omega)]
    rw [List.append_assoc, List.drop_left, List.take_left]

theorem trim_eq (s : List UInt8) : trim s = .ok (strip isBlank s) := by
  obtain ⟨before, after, hs, hbefore, hafter⟩ := exists_pad isBlank s
  calc trim s = trim (before ++ strip isBlank s ++ after) := congrArg trim hs
    _ = .ok (strip isBlank s) := trim_pad hbefore (bare_strip isBlank s) hafter

end Trim

theorem Padding.isBlank {s : List UInt8} (h : Padding s) : ∀ c ∈ s, isBlank c = true := by
  intro c hc
  have hows := h c hc
  simp only [isOws, Bool.or_eq_true] at hows
  simp only [Http.isBlank, Bool.or_eq_true]
  exact .inl (.inl hows)

theorem OneLine.isBlank_eq {s : List UInt8} (h : OneLine s) {c : UInt8} (hc : c ∈ s) :
    isBlank c = isOws c := by
  have hr : c ≠ 0x0d := fun hr => h.1 (hr ▸ hc)
  have hn : c ≠ 0x0a := fun hn => h.2 (hn ▸ hc)
  simp [isBlank, isOws, hr, hn]

theorem OneLine.bare {s : List UInt8} (h : OneLine s) (hs : Bare isOws s) : Bare isBlank s :=
  hs.congr fun _ hc => (h.isBlank_eq hc).symm

def Field.entry (f : Field) : List UInt8 × List UInt8 := (toLower f.name, f.value)

section Line
variable (l : HeaderLine)

theorem Padding.oneLine {s : List UInt8} (h : Padding s) : OneLine s :=
  ⟨fun hr => absurd (h _ hr) (by decide), fun hn => absurd (h _ hn) (by decide)⟩

theorem OneLine.append {s t : List UInt8} (hs : OneLine s) (ht : OneLine t) : OneLine (s ++ t) :=
  ⟨fun h => (List.mem_append.mp h).elim hs.1 ht.1, fun h => (List.mem_append.mp h).elim hs.2 ht.2⟩

theorem HeaderLine.oneLine_print : OneLine l.print := by
  have hcolon : OneLine [0x3a] := ⟨by decide, by decide⟩
  have hname : OneLine (l.beforeName ++ l.name ++ l.afterName) :=
    (l.beforeName_padding.oneLine.append l.name_line).append l.afterName_padding.oneLine
  have hvalue : OneLine (l.beforeValue ++ l.value ++ l.afterValue) :=
    (l.beforeValue_padding.oneLine.append l.value_line).append l.afterValue_padding.oneLine
  exact hname.append (hcolon.append hvalue)

theorem addHeader_print (headers : List (List UInt8 × List UInt8)) :
    addHeader headers (l.print ++ [0x0d]) = .ok (l.entry :: headers) := by
  have hmark : ascii ":" = [0x3a] := by decide
  have hcolon : 0x3a ∉ l.beforeName ++ l.name ++ l.afterName := by
    intro h
    rcases List.mem_append.mp h with h | h
    · rcases List.mem_append.mp h with h | h
      · exact absurd (l.beforeName_padding _ h) (by decide)
      · exact l.name_colon h
    · exact absurd (l.afterName_padding _ h) (by decide)
  have hline : l.print ++ [0x0d] = (l.beforeName ++ l.name ++ l.afterName) ++
      0x3a :: (l.beforeValue ++ l.value ++ (l.afterValue ++ [0x0d])) := by
    simp [HeaderLine.print]
  have hname : trim (l.beforeName ++ l.name ++ l.afterName) = .ok l.name :=
    trim_pad l.beforeName_padding.isBlank (l.name_line.bare l.name_bare)
      l.afterName_padding.isBlank
  have hvalue : trim (l.beforeValue ++ l.value ++ (l.afterValue ++ [0x0d])) = .ok l.value := by
    refine trim_pad l.beforeValue_padding.isBlank (l.value_line.bare l.value_bare) fun c hc => ?_
    rcases List.mem_append.mp hc with hc | hc
    · exact l.afterValue_padding.isBlank c hc
    · rw [List.mem_singleton.mp hc]
      decide
  rw [hline]
  generalize l.beforeName ++ l.name ++ l.afterName = before at hcolon hname
  generalize l.beforeValue ++ l.value ++ (l.afterValue ++ [0x0d]) = after at hvalue
  have hafter : substr (before ++ 0x3a :: after) (before.length + 1) none = .ok after := by
    rw [substr, if_neg (by simp), List.append_cons]
    rw [List.drop_left' (by simp)]
  unfold addHeader
  rw [hmark, find_byte hcolon]
  simp only [substr_zero, List.take_left, hname, hafter, hvalue, bind, Except.bind]
  rfl

theorem addHeaders_print (lines : List HeaderLine) (headers : List (List UInt8 × List UInt8)) :
    (lines.map fun l => l.print ++ [0x0d]).foldlM addHeader headers =
      .ok ((lines.map fun l => l.entry).reverse ++ headers) := by
  induction lines generalizing headers with
  | nil => rfl
  | cons l lines ih =>
    rw [List.map_cons, List.foldlM_cons, addHeader_print]
    show (lines.map fun l => l.print ++ [0x0d]).foldlM addHeader (l.entry :: headers) = _
    rw [ih, List.map_cons, List.reverse_cons, List.append_assoc]
    rfl

end Line

section RequestLine
variable (line : RequestLine)

theorem IsWord.oneLine {s : List UInt8} (h : IsWord s) : OneLine s :=
  ⟨fun hr => absurd (h.2 _ hr) (by decide), fun hn => absurd (h.2 _ hn) (by decide)⟩

theorem RequestLine.oneLine_print : OneLine line.print := by
  have hspace : OneLine [0x20] := ⟨by decide, by decide⟩
  exact (((line.method_word.oneLine.append hspace).append line.target_word.oneLine).append
    hspace).append line.version_word.oneLine

theorem words_print :
    words (line.print ++ [0x0d]) = [line.method, line.target, line.version] := by
  have hshape : line.print ++ [0x0d] =
      line.method ++ 0x20 :: (line.target ++ 0x20 :: (line.version ++ 0x0d :: [])) := by
    simp [RequestLine.print]
  rw [hshape, words_append_space line.method_word.1 line.method_word.2 (by decide),
    words_append_space line.target_word.1 line.target_word.2 (by decide),
    words_append_space line.version_word.1 line.version_word.2 (by decide)]
  rfl

end RequestLine

theorem getlines_headLines {lines : List (List UInt8)} (h : ∀ l ∈ lines, OneLine l) :
    getlines 0x0a (headLines lines) = lines.map (· ++ [0x0d]) := by
  induction lines with
  | nil => rfl
  | cons l lines ih =>
    obtain ⟨hl, hlines⟩ := List.forall_mem_cons.mp h
    have hshape : headLines (l :: lines) = (l ++ [0x0d]) ++ 0x0a :: headLines lines := by
      simp [headLines]
    have hnot : 0x0a ∉ l ++ [0x0d] := by simpa using hl.2
    rw [hshape, getlines_cons_line hnot, ih hlines, List.map_cons]

def parsed (line : RequestLine) (fields : List Field) : Request where
  method := line.method
  target := line.target
  path := line.target.takeWhile (· != 0x3f)
  version := line.version
  headers := (fields.map Field.entry).reverse

theorem parseRequest_print (line : RequestLine) (lines : List HeaderLine)
    (trailing : List UInt8) :
    parseRequest (printRequest line (lines.map HeaderLine.print) ++ trailing) =
      .ok (some (parsed line (lines.map HeaderLine.toField))) := by
  have hlines : ∀ l ∈ line.print :: lines.map HeaderLine.print, OneLine l := by
    intro l hl
    rcases List.mem_cons.mp hl with rfl | hl
    · exact line.oneLine_print
    · obtain ⟨header, -, rfl⟩ := List.mem_map.mp hl
      exact header.oneLine_print
  have hnonempty : ∀ l ∈ line.print :: lines.map HeaderLine.print, l ≠ [] ∧ 0x0d ∉ l := by
    intro l hl
    refine ⟨?_, (hlines l hl).1⟩
    rcases List.mem_cons.mp hl with rfl | hl
    · simp [RequestLine.print]
    · obtain ⟨header, -, rfl⟩ := List.mem_map.mp hl
      simp [HeaderLine.print]
  have hlength : 2 ≤ (headLines (line.print :: lines.map HeaderLine.print)).length := by
    simp only [headLines, List.flatMap_cons, List.length_append, List.length_cons]
    omega
  have htake : (printRequest line (lines.map HeaderLine.print) ++ trailing).take
      ((headLines (line.print :: lines.map HeaderLine.print)).length - 2 + 2) =
        headLines (line.print :: lines.map HeaderLine.print) := by
    rw [Nat.sub_add_cancel hlength, printRequest, List.append_assoc, List.take_left]
  have hgetlines := getlines_headLines hlines
  rw [List.map_cons, List.map_map] at hgetlines
  have hheaders := addHeaders_print lines []
  rw [List.append_nil] at hheaders
  unfold parseRequest
  rw [printRequest, find_headLines hnonempty, ← printRequest]
  simp only [substr_zero, htake, hgetlines, words_print, bind, Except.bind, targetPath_eq,
    Function.comp_def, hheaders]
  simp only [parsed, List.map_map, Function.comp_def]
  rfl

theorem parseRequest_fields (line : RequestLine) (fields : List Field) (trailing : List UInt8) :
    parseRequest (printRequest line (fields.map Field.print) ++ trailing) =
      .ok (some (parsed line fields)) := by
  have hprint : fields.map Field.print = (fields.map Field.toLine).map HeaderLine.print := by
    rw [List.map_map]
    exact List.map_congr_left fun f _ => f.print_toLine.symm
  have hfields : (fields.map Field.toLine).map HeaderLine.toField = fields := by
    rw [List.map_map]
    exact List.map_id' fields
  have hparse := parseRequest_print line (fields.map Field.toLine) trailing
  rwa [← hprint, hfields] at hparse

theorem lookup_entries (fields : List Field) (name : List UInt8) :
    (fields.map Field.entry).reverse.lookup (toLower name) = (valuesOf fields name).getLast? := by
  induction fields using List.reverseRecOn with
  | nil => rfl
  | append_singleton fields f ih =>
    rw [List.map_append, List.reverse_append, valuesOf, List.filter_append, List.map_append,
      ← valuesOf]
    by_cases hname : toLower f.name = toLower name
    · simp [Field.entry, hname]
    · have hne : (toLower name == toLower f.name) = false := beq_eq_false_iff_ne.mpr (Ne.symm hname)
      simp [Field.entry, List.lookup_cons, hname, hne, ih]

theorem header_parsed (line : RequestLine) (fields : List Field) (name : List UInt8) :
    (parsed line fields).header name = (valuesOf fields name).getLast?.getD [] :=
  congrArg (·.getD []) (lookup_entries fields name)

/-- `parseRequest` reads back what was printed, whatever follows the blank line, and nothing in a
text without a blank line. -/
theorem parse_inverts_print :
    (∀ (line : RequestLine) (fields : List Field) (trailing : List UInt8), ∃ r,
      parseRequest (printRequest line (fields.map Field.print) ++ trailing) = .ok (some r) ∧
        r.method = line.method ∧ r.target = line.target ∧ r.version = line.version ∧
        r.path = line.target.takeWhile (· != 0x3f) ∧
        ∀ name, r.header name = (valuesOf fields name).getLast?.getD []) ∧
      ∀ text, ¬ headEndMark <:+: text → parseRequest text = .ok none := by
  refine ⟨fun line fields trailing => ?_, fun text hmark => ?_⟩
  · exact ⟨_, parseRequest_fields line fields trailing, rfl, rfl, rfl, rfl,
      header_parsed line fields⟩
  · apply parseRequest_of_no_mark
    cases hfind : find headEndMark text with
    | none => rfl
    | some pos =>
      have hin := (find_eq_some hfind).1.isInfix.trans (List.drop_suffix pos text).isInfix
      exact absurd hin hmark

theorem parse_inverts_print_host :
    (∃ r, parseRequest (ascii "GET /app.js?v=3 HTTP/1.1\r\nHost: 192.168.1.50:8420\r\n\r\n*") =
        .ok (some r) ∧
      r.path = ascii "/app.js" ∧ r.header (ascii "HOST") = ascii "192.168.1.50:8420") ∧
    parseRequest (ascii "GET / HTTP/1.1\r\nHost: x\r\n") = .ok none := by
  let line : RequestLine :=
    { method := ascii "GET", target := ascii "/app.js?v=3", version := ascii "HTTP/1.1" }
  let host : Field := { name := ascii "Host", value := ascii "192.168.1.50:8420" }
  obtain ⟨hprinted, hunmarked⟩ := parse_inverts_print
  obtain ⟨r, hr, -, -, -, hpath, hheader⟩ := hprinted line [host] (ascii "*")
  have htext : printRequest line ([host].map Field.print) ++ ascii "*" =
      ascii "GET /app.js?v=3 HTTP/1.1\r\nHost: 192.168.1.50:8420\r\n\r\n*" := by decide +kernel
  rw [htext] at hr
  refine ⟨⟨r, hr, hpath.trans (by decide), (hheader _).trans (by decide +kernel)⟩, ?_⟩
  exact hunmarked _ (by decide +kernel)

end Ppm.Http

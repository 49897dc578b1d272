import PhonePostMix.Core.ByteString

/-! HTTP request heads: parsing, the upgrade test and response heads. -/

namespace Ppm.Http

def toLower (s : List UInt8) : List UInt8 := s.map toLowerByte

def isBlank (c : UInt8) : Bool := c = 0x20 || c = 0x09 || c = 0x0d || c = 0x0a

def trim (s : List UInt8) : Except Exception (List UInt8) :=
  match s.findIdx? (fun c => !isBlank c), s.reverse.findIdx? (fun c => !isBlank c) with
  | some first, some fromEnd =>
    let last := s.length - 1 - fromEnd
    substr s first (some (last - first + 1))
  | _, _ => .ok []

def anyItem (token : List UInt8) : List (List UInt8) → Except Exception Bool
  | [] => .ok false
  | item :: items => do
    if (← trim item) = token then pure true else anyItem token items

def containsToken (headerValue token : List UInt8) : Except Exception Bool :=
  anyItem token (getlines 0x2c (toLower headerValue))

/-- `headers` holds the newest entry for a name first, so a lookup finds the last one set. -/
structure Request where
  method : List UInt8
  target : List UInt8
  path : List UInt8 := []
  version : List UInt8
  headers : List (List UInt8 × List UInt8) := []
  deriving DecidableEq, Repr

def Request.header (r : Request) (name : List UInt8) : List UInt8 :=
  (r.headers.lookup (toLower name)).getD []

def Request.isWebSocketUpgrade (r : Request) : Except Exception Bool := do
  if r.method ≠ ascii "GET" then return false
  if !(← containsToken (r.header (ascii "upgrade")) (ascii "websocket")) then return false
  if !(← containsToken (r.header (ascii "connection")) (ascii "upgrade")) then return false
  return r.header (ascii "sec-websocket-key") ≠ []

def addHeader (headers : List (List UInt8 × List UInt8)) (line : List UInt8) :
    Except Exception (List (List UInt8 × List UInt8)) :=
  match find (ascii ":") line with
  -- a line without a colon is skipped
  | none => .ok headers
  | some colon => do
    let name ← trim (← substr line 0 (some colon))
    let value ← trim (← substr line (colon + 1) none)
    return (toLower name, value) :: headers

def headEndMark : List UInt8 := ascii "\r\n\r\n"

def targetPath (target : List UInt8) : Except Exception (List UInt8) :=
  match find (ascii "?") target with
  | none => .ok target
  | some query => substr target 0 (some query)

def parseRequest (text : List UInt8) : Except Exception (Option Request) :=
  match find headEndMark text with
  | none => .ok none
  | some headEnd => do
    match getlines 0x0a (← substr text 0 (some (headEnd + 2))) with
    | [] => return none
    | requestLine :: headerLines =>
      match words requestLine with
      | method :: target :: version :: _ =>
        let headers ← headerLines.foldlM addHeader []
        let path ← targetPath target
        return some { method, target, path, version, headers }
      | _ => return none

def mimeTypes : List (List UInt8 × List UInt8) :=
  [(ascii ".html", ascii "text/html; charset=utf-8"),
   (ascii ".js", ascii "text/javascript; charset=utf-8"),
   (ascii ".css", ascii "text/css; charset=utf-8"),
   (ascii ".json", ascii "application/json; charset=utf-8"),
   (ascii ".svg", ascii "image/svg+xml"),
   (ascii ".png", ascii "image/png"),
   (ascii ".ico", ascii "image/x-icon"),
   (ascii ".txt", ascii "text/plain; charset=utf-8")]

def mimeTypeForPath (path : List UInt8) : Except Exception (List UInt8) :=
  match path.reverse.findIdx? (· = 0x2e) with
  | none => .ok (ascii "application/octet-stream")
  | some fromEnd => do
    let extension ← substr path (path.length - 1 - fromEnd) none
    return (mimeTypes.lookup (toLower extension)).getD (ascii "application/octet-stream")

def makeResponseHead (statusCode : ℕ) (reasonPhrase contentType : List UInt8)
    (contentLength : ℤ) (extraHeaders : List (List UInt8)) : List UInt8 :=
  ascii "HTTP/1.1 " ++ ascii (toString statusCode) ++ ascii " " ++ reasonPhrase ++ ascii "\r\n" ++
  (if contentType = [] then [] else ascii "Content-Type: " ++ contentType ++ ascii "\r\n") ++
  (if contentLength < 0 then []
    else ascii "Content-Length: " ++ ascii (toString contentLength) ++ ascii "\r\n") ++
  (extraHeaders.map (· ++ ascii "\r\n")).flatten ++ ascii "\r\n"

def Total {α : Type} (x : Except Exception α) : Prop := ∃ a, x = .ok a

theorem Total.bind {α β : Type} {x : Except Exception α} {f : α → Except Exception β}
    (hx : Total x) (hf : ∀ a, Total (f a)) : Total (x >>= f) := by
  obtain ⟨a, rfl⟩ := hx
  exact hf a

theorem Total.pure {α : Type} (a : α) : Total (pure a : Except Exception α) := ⟨a, rfl⟩

theorem trim_total (s : List UInt8) : Total (trim s) := by
  unfold trim
  split
  · rename_i first fromEnd hfirst hlast
    have hlt : first < s.length := by
      obtain ⟨hlt, -⟩ := List.findIdx?_eq_some_iff_getElem.mp hfirst
      exact hlt
    exact substr_ok (Nat.le_of_lt hlt) _
  · exact ⟨_, rfl⟩

theorem containsToken_total (headerValue token : List UInt8) :
    Total (containsToken headerValue token) := by
  unfold containsToken
  induction getlines 0x2c (toLower headerValue) with
  | nil => exact ⟨false, rfl⟩
  | cons item items ih =>
    refine (trim_total item).bind fun t => ?_
    split_ifs
    · exact Total.pure true
    · exact ih

theorem isWebSocketUpgrade_total (r : Request) : Total r.isWebSocketUpgrade := by
  unfold Request.isWebSocketUpgrade
  split_ifs
  · exact Total.pure false
  · refine (containsToken_total _ _).bind fun upgrade => ?_
    split_ifs
    · exact Total.pure false
    · refine (containsToken_total _ _).bind fun connection => ?_
      split_ifs
      · exact Total.pure false
      · exact Total.pure _

theorem addHeader_total (headers : List (List UInt8 × List UInt8)) (line : List UInt8) :
    Total (addHeader headers line) := by
  unfold addHeader
  split
  · exact ⟨_, rfl⟩
  · rename_i colon hcolon
    have hlen : colon + 1 ≤ line.length := (find_eq_some hcolon).2
    refine Total.bind (substr_ok (Nat.zero_le _) _) fun name => ?_
    refine (trim_total name).bind fun name => ?_
    refine Total.bind (substr_ok hlen _) fun value => ?_
    exact (trim_total value).bind fun value => Total.pure _

theorem addHeaders_total (lines : List (List UInt8)) (headers : List (List UInt8 × List UInt8)) :
    Total (lines.foldlM addHeader headers) := by
  induction lines generalizing headers with
  | nil => exact Total.pure headers
  | cons line lines ih =>
    rw [List.foldlM_cons]
    exact (addHeader_total headers line).bind fun headers => ih headers

theorem targetPath_eq (target : List UInt8) :
    targetPath target = .ok (target.takeWhile (· != 0x3f)) := by
  have hmark : ascii "?" = [0x3f] := by decide
  have hfind : ∀ s : List UInt8, (find [0x3f] s = none ∧ s.takeWhile (· != 0x3f) = s) ∨
      ∃ query, find [0x3f] s = some query ∧ s.takeWhile (· != 0x3f) = s.take query := by
    intro s
    induction s with
    | nil => exact .inl ⟨rfl, rfl⟩
    | cons c rest ih =>
      by_cases hc : c = 0x3f
      · subst hc
        exact .inr ⟨0, by simp [find], by simp⟩
      · have hstep : find [0x3f] (c :: rest) = (find [0x3f] rest).map (· + 1) := by
          simp [find, Ne.symm hc]
        rcases ih with ⟨hnone, htake⟩ | ⟨query, hsome, htake⟩
        · exact .inl ⟨by rw [hstep, hnone]; rfl, by simp [hc, htake]⟩
        · exact .inr ⟨query + 1, by rw [hstep, hsome]; rfl, by simp [hc, htake]⟩
  unfold targetPath
  rw [hmark]
  rcases hfind target with ⟨hnone, htake⟩ | ⟨query, hsome, htake⟩
  · rw [hnone, htake]
  · rw [hsome, htake]
    exact substr_zero target query

theorem parseRequest_cases (text : List UInt8) :
    parseRequest text = .ok none ∨ ∃ r, parseRequest text = .ok (some r) ∧ r.target ≠ [] ∧
      r.path = r.target.takeWhile (· != 0x3f) := by
  unfold parseRequest
  split
  · exact .inl rfl
  · rename_i headEnd _
    rw [substr_zero]
    simp only [bind, Except.bind]
    split
    · exact .inl rfl
    · rename_i requestLine headerLines _
      split
      · rename_i method target version rest hwords
        obtain ⟨headers, hheaders⟩ := addHeaders_total headerLines []
        rw [hheaders, targetPath_eq]
        right
        refine ⟨_, rfl, ?_, rfl⟩
        exact ne_nil_of_mem_words (s := requestLine) (by simp [hwords])
      · exact .inl rfl

theorem parseRequest_of_no_mark {text : List UInt8} (h : find headEndMark text = none) :
    parseRequest text = .ok none := by
  unfold parseRequest
  rw [h]

theorem parseRequest_append {text : List UInt8} {headEnd : ℕ}
    (h : find headEndMark text = some headEnd) (more : List UInt8) :
    parseRequest (text ++ more) = parseRequest text := by
  have hlen := (find_eq_some h).2
  have hmark : headEndMark.length = 4 := rfl
  unfold parseRequest
  rw [h, find_append (by decide) h more]
  simp only [substr_zero]
  rw [List.take_append_of_le_length (by omega)]

theorem parseRequest_of_requestLine {line rest method target version : List UInt8}
    {more : List (List UInt8)} {headEnd : ℕ} (hline : 0x0a ∉ line)
    (hwords : words line = method :: target :: version :: more)
    (h : find headEndMark (line ++ 0x0a :: rest) = some headEnd) (hle : line.length ≤ headEnd + 1) :
    ∃ r, parseRequest (line ++ 0x0a :: rest) = .ok (some r) := by
  have htake : (line ++ 0x0a :: rest).take (headEnd + 2) =
      line ++ 0x0a :: rest.take (headEnd + 1 - line.length) := by
    rw [List.take_append, List.take_of_length_le (by omega)]
    obtain ⟨k, hk⟩ : ∃ k, headEnd + 2 - line.length = k + 1 := ⟨headEnd + 1 - line.length, by omega⟩
    rw [hk, List.take_succ_cons]
    congr 3
    omega
  obtain ⟨headers, hheaders⟩ :=
    addHeaders_total (getlines 0x0a (rest.take (headEnd + 1 - line.length))) []
  unfold parseRequest
  rw [h]
  simp only [substr_zero, htake, bind, Except.bind, getlines_cons_line hline, hwords, hheaders,
    targetPath_eq]
  exact ⟨_, rfl⟩

theorem find_skip {before : List UInt8} (hbefore : 0x0d ∉ before) (more : List UInt8) :
    find headEndMark (before ++ more) = (find headEndMark more).map (· + before.length) := by
  induction before with
  | nil => simp
  | cons c rest ih =>
    obtain ⟨hc, hrest⟩ := not_or.mp (mt List.mem_cons.mpr hbefore)
    have hnot : ¬ headEndMark.isPrefixOf (c :: (rest ++ more)) = true := by
      rw [List.isPrefixOf_iff_prefix]
      rintro ⟨tail, htail⟩
      exact hc (List.cons.inj htail).1
    rw [List.cons_append, find, if_neg hnot, ih hrest, Option.map_map]
    rfl

theorem find_skip_line {c : UInt8} (hc : c ≠ 0x0d) (more : List UInt8) :
    find headEndMark (0x0d :: 0x0a :: c :: more) = (find headEndMark (c :: more)).map (· + 2) := by
  have hfirst : ¬ headEndMark.isPrefixOf (0x0d :: 0x0a :: c :: more) = true := by
    rw [List.isPrefixOf_iff_prefix]
    rintro ⟨tail, htail⟩
    have h3 := List.cons.inj (List.cons.inj (List.cons.inj htail).2).2
    exact hc h3.1.symm
  have hsecond : ¬ headEndMark.isPrefixOf (0x0a :: c :: more) = true := by
    rw [List.isPrefixOf_iff_prefix]
    rintro ⟨tail, htail⟩
    exact absurd (List.cons.inj htail).1 (by decide)
  rw [find, if_neg hfirst, find, if_neg hsecond, Option.map_map]
  rfl

def headLines (lines : List (List UInt8)) : List UInt8 := lines.flatMap fun l => l ++ [0x0d, 0x0a]

theorem find_headLines {first : List UInt8} {rest : List (List UInt8)}
    (h : ∀ l ∈ first :: rest, l ≠ [] ∧ 0x0d ∉ l) (more : List UInt8) :
    find headEndMark (headLines (first :: rest) ++ [0x0d, 0x0a] ++ more) =
      some ((headLines (first :: rest)).length - 2) := by
  induction rest generalizing first with
  | nil =>
    obtain ⟨-, hfirst⟩ := h first List.mem_cons_self
    have hshape : headLines [first] ++ [0x0d, 0x0a] ++ more = first ++ (headEndMark ++ more) := by
      simp [headLines, headEndMark, ascii]
    have hhere : find headEndMark (headEndMark ++ more) = some 0 := rfl
    rw [hshape, find_skip hfirst, hhere]
    simp [headLines]
  | cons second rest ih =>
    obtain ⟨-, hfirst⟩ := h first List.mem_cons_self
    obtain ⟨hne, hsecond⟩ := h second (List.mem_cons_of_mem _ List.mem_cons_self)
    obtain ⟨c, tail, rfl⟩ := List.exists_cons_of_ne_nil hne
    have hc : c ≠ 0x0d := fun hc => hsecond (hc ▸ List.mem_cons_self)
    have hshape : headLines (first :: (c :: tail) :: rest) ++ [0x0d, 0x0a] ++ more =
        first ++ (0x0d :: 0x0a :: c :: (tail ++ [0x0d, 0x0a] ++ headLines rest ++ [0x0d, 0x0a] ++
          more)) := by
      simp [headLines]
    have hnext : c :: (tail ++ [0x0d, 0x0a] ++ headLines rest ++ [0x0d, 0x0a] ++ more) =
        headLines ((c :: tail) :: rest) ++ [0x0d, 0x0a] ++ more := by
      simp [headLines]
    rw [hshape, find_skip hfirst, find_skip_line hc, hnext,
      ih fun l hl => h l (List.mem_cons_of_mem _ hl)]
    simp only [Option.map_some, headLines, List.flatMap_cons, List.length_append,
      List.length_cons, List.length_nil]
    congr 1
    omega

end Ppm.Http

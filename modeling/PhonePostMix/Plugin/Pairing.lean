import Mathlib.Data.List.TakeWhile
import PhonePostMix.Plugin.State
import PhonePostMix.Server.Admission
import PhonePostMix.Server.Handover

/-! The pairing token: the URL the plugin shows carries it in the fragment, the receivers move it
into the query of their upgrade request, and the engine looks for it there. -/

namespace Ppm.Plugin
open Engine Http Server

/-- `juce::String (const std::string&)`, of which only this is used: ASCII stands for itself. -/
structure TextCodec where
  fromBytes : List UInt8 → List Char
  fromBytes_ascii : ∀ s : List Char, (∀ c ∈ s, c ≠ Char.ofNat 0 ∧ c.toNat < 128) →
    fromBytes (s.map fun c => c.toNat.toUInt8) = s

def upToFirstOccurrenceOf (text : List Char) (sub : Char) : List Char :=
  -- `upToFirstOccurrenceOf (sub, false, false)`: everything, where `sub` does not occur
  match text.findIdx? (· = sub) with
  | none => text
  | some i => text.take i

def fromFirstOccurrenceOf (text : List Char) (sub : Char) : List Char :=
  -- `fromFirstOccurrenceOf (sub, false, false)`: nothing, where `sub` does not occur
  match text.findIdx? (· = sub) with
  | none => []
  | some i => text.drop (i + 1)

def fromTokens (text : List Char) (breakCharacter : Char) : List (List Char) :=
  -- `StringArray::fromTokens` with one break character and no quotes
  if text = [] then [] else text.splitOn breakCharacter

def authorizePairs (token : List Char) : List (List Char) → Bool
  | [] => false
  | pair :: pairs =>
    if upToFirstOccurrenceOf pair '=' = ['t'] then fromFirstOccurrenceOf pair '=' = token
    else authorizePairs token pairs

def authorizeUpgrade (codec : TextCodec) (token : List Char) (target : List UInt8) : Bool :=
  let query := fromFirstOccurrenceOf (codec.fromBytes target) '?'
  authorizePairs token (fromTokens query '&')

def parameters (target : List Char) : List (List Char × List Char) :=
  ((target.dropWhile (· != '?')).tail.splitOn '&').map fun pair =>
    (pair.takeWhile (· != '='), (pair.dropWhile (· != '=')).tail)

/-- A WebSocket upgrade whose first parameter `t` is the token. -/
def HoldsToken (codec : TextCodec) (token : List Char) (head : List UInt8) : Prop :=
  ∃ request, parseRequest head = .ok (some request) ∧ request.isWebSocketUpgrade = .ok true ∧
    (parameters (codec.fromBytes request.target)).lookup ['t'] = some token

theorem upToFirstOccurrenceOf_eq (text : List Char) (sub : Char) :
    upToFirstOccurrenceOf text sub = text.takeWhile (· != sub) := by
  induction text with
  | nil => rfl
  | cons c rest ih =>
    by_cases hc : c = sub
    · simp [upToFirstOccurrenceOf, List.findIdx?_cons, hc]
    · unfold upToFirstOccurrenceOf at ih ⊢
      rw [List.findIdx?_cons, List.takeWhile_cons, ← ih]
      cases rest.findIdx? (· = sub) <;> simp [hc]

theorem fromFirstOccurrenceOf_eq (text : List Char) (sub : Char) :
    fromFirstOccurrenceOf text sub = (text.dropWhile (· != sub)).tail := by
  induction text with
  | nil => rfl
  | cons c rest ih =>
    by_cases hc : c = sub
    · simp [fromFirstOccurrenceOf, List.findIdx?_cons, hc]
    · unfold fromFirstOccurrenceOf at ih ⊢
      have hgoes : (c != sub) = true := bne_iff_ne.mpr hc
      rw [List.findIdx?_cons, List.dropWhile_cons, if_pos hgoes, ← ih]
      cases rest.findIdx? (· = sub) <;> simp [hc]

theorem authorizePairs_iff (token : List Char) (pairs : List (List Char)) :
    authorizePairs token pairs = true ↔
      (pairs.map fun pair =>
        (pair.takeWhile (· != '='), (pair.dropWhile (· != '=')).tail)).lookup ['t'] = some token := by
  induction pairs with
  | nil => simp [authorizePairs]
  | cons pair pairs ih =>
    rw [authorizePairs, upToFirstOccurrenceOf_eq, fromFirstOccurrenceOf_eq, List.map_cons,
      List.lookup_cons]
    by_cases hname : pair.takeWhile (· != '=') = ['t']
    · rw [if_pos hname, hname]
      simp
    · have hother : (['t'] == pair.takeWhile (· != '=')) = false :=
        beq_false_of_ne (Ne.symm hname)
      rw [if_neg hname, hother]
      exact ih

theorem authorizeUpgrade_iff (codec : TextCodec) (token : List Char) (target : List UInt8) :
    authorizeUpgrade codec token target = true ↔
      (parameters (codec.fromBytes target)).lookup ['t'] = some token := by
  unfold authorizeUpgrade parameters
  dsimp only
  rw [authorizePairs_iff, fromFirstOccurrenceOf_eq, fromTokens]
  split_ifs with hnone
  · -- without a query there is one empty parameter, whose name is not `t`
    rw [hnone]
    simp
  · exact Iff.rfl

theorem admitted_iff (codec : TextCodec) (token : List Char) (resources : List Resource)
    (accept : List UInt8 → List UInt8) (limit : ℕ) (head : List UInt8) :
    Admitted (engineOwner resources (authorizeUpgrade codec token) accept limit) head ↔
      HoldsToken codec token head := by
  unfold Admitted HoldsToken
  simp only [engineOwner, Option.all_some, authorizeUpgrade_iff]

def isHexDigit (c : Char) : Bool :=
  ('0' ≤ c && c ≤ '9') || ('a' ≤ c && c ≤ 'f') || ('A' ≤ c && c ≤ 'F')

def matchHere : List Char → Option (List Char)
  -- `[#&]t=([0-9a-fA-F]+)` at the beginning of a text
  | mark :: 't' :: '=' :: rest =>
    let digits := rest.takeWhile isHexDigit
    if (mark = '#' ∨ mark = '&') ∧ digits ≠ [] then some digits else none
  | _ => none

def matchToken : List Char → Option (List Char)
  -- `hash.match(/[#&]t=([0-9a-fA-F]+)/)`: the group of the leftmost match
  | [] => none
  | c :: rest => (matchHere (c :: rest)).or (matchToken rest)

def urlHash (url : List Char) : List Char :=
  -- the `hash` of a URL whose fragment needs no escapes
  let fragment := url.dropWhile (· != '#')
  if fragment.length ≤ 1 then [] else fragment

def percentEncode (b : UInt8) : List Char :=
  let digit := fun n : ℕ => "0123456789ABCDEF".toList.getD n '0'
  ['%', digit (b.toNat / 16), digit (b.toNat % 16)]

def isUnreserved (c : Char) : Bool := c.isAlphanum || c ∈ "-_.!~*'()".toList

def encodeURIComponent (s : List Char) : List Char :=
  s.flatMap fun c => if isUnreserved c then [c] else (String.utf8EncodeChar c).flatMap percentEncode

def upgradeTarget (url : List Char) : List Char :=
  -- what both receivers ask for, given the URL of the page or of the command line
  let token := (matchToken (urlHash url)).getD []
  "/ws".toList ++ if token = [] then [] else "?t=".toList ++ encodeURIComponent token

def Processor.getListenUrl {α : Type} (p : Processor α) (port : ℤ) (token : List Char) : List Char :=
  let address := p.getPreferredAddress
  if address = "" ∨ p.engine.serverRunning = false then []
  else "http://".toList ++ address.toList ++ ":".toList ++ (toString port).toList ++ "/#t=".toList ++ token

theorem matchToken_fragment {token : List Char} (hne : token ≠ [])
    (hhex : ∀ c ∈ token, isHexDigit c = true) :
    matchToken ('#' :: 't' :: '=' :: token) = some token := by
  have hall : token.takeWhile isHexDigit = token := List.takeWhile_eq_self_iff.mpr hhex
  simp [matchToken, matchHere, hall, hne]

theorem isHexDigit_ascii {c : Char} (h : isHexDigit c = true) : c.toNat < 128 := by
  simp only [isHexDigit, Bool.or_eq_true, Bool.and_eq_true, decide_eq_true_eq] at h
  rcases h with (⟨-, h⟩ | ⟨-, h⟩) | ⟨-, h⟩
  · exact Nat.lt_of_le_of_lt (UInt32.le_iff_toNat_le.mp h) (by decide)
  · exact Nat.lt_of_le_of_lt (UInt32.le_iff_toNat_le.mp h) (by decide)
  · exact Nat.lt_of_le_of_lt (UInt32.le_iff_toNat_le.mp h) (by decide)

theorem isHexDigit_plain {c : Char} (h : isHexDigit c = true) :
    isUnreserved c = true ∧ c ≠ Char.ofNat 0 ∧ c ≠ '&' ∧ c ≠ '=' := by
  have hall : ∀ n < 128, isHexDigit (Char.ofNat n) = true →
      isUnreserved (Char.ofNat n) = true ∧ Char.ofNat n ≠ Char.ofNat 0 ∧ Char.ofNat n ≠ '&' ∧
        Char.ofNat n ≠ '=' := by
    decide +kernel
  have hc := hall c.toNat (isHexDigit_ascii h)
  rw [Char.ofNat_toNat] at hc
  exact hc h

theorem encodeURIComponent_hex {token : List Char} (hhex : ∀ c ∈ token, isHexDigit c = true) :
    encodeURIComponent token = token := by
  unfold encodeURIComponent
  induction token with
  | nil => rfl
  | cons c rest ih =>
    obtain ⟨hc, -⟩ := isHexDigit_plain (hhex c List.mem_cons_self)
    rw [List.flatMap_cons, if_pos hc, ih fun d hd => hhex d (List.mem_cons_of_mem c hd)]
    rfl

def Dotted (address : String) : Prop := ∀ c ∈ address.toList, c.isDigit = true ∨ c = '.'

instance (address : String) : Decidable (Dotted address) := List.decidableBAll _ _

theorem toString_port (port : ℤ) : ∀ c ∈ (toString port).toList, c.isDigit = true ∨ c = '-' := by
  intro c hc
  cases port with
  | ofNat n =>
    left
    rw [show toString (Int.ofNat n) = n.repr from rfl, Nat.toList_repr] at hc
    exact Nat.isDigit_of_mem_toDigits (by decide) (by decide) hc
  | negSucc n =>
    rw [show toString (Int.negSucc n) = "-" ++ (n + 1).repr from rfl, String.toList_append,
      Nat.toList_repr] at hc
    rcases List.mem_append.mp hc with hsign | hdigit
    · right
      exact List.mem_singleton.mp hsign
    · left
      exact Nat.isDigit_of_mem_toDigits (by decide) (by decide) hdigit

theorem urlHash_append {before fragment : List Char} (hbefore : '#' ∉ before)
    (hne : fragment ≠ []) : urlHash (before ++ '#' :: fragment) = '#' :: fragment := by
  have hall : before.dropWhile (· != '#') = [] :=
    List.dropWhile_eq_nil_iff.mpr fun c hc => bne_iff_ne.mpr fun h => hbefore (h ▸ hc)
  have hdrop : (before ++ '#' :: fragment).dropWhile (· != '#') = '#' :: fragment := by
    rw [List.dropWhile_append, hall]
    rfl
  unfold urlHash
  rw [hdrop]
  have hlength := List.length_pos_iff.mpr hne
  rw [if_neg]
  simp only [List.length_cons]
  omega

theorem upgradeTarget_getListenUrl {α : Type} (p : Processor α) (port : ℤ) {token : List Char}
    (hne : token ≠ []) (hhex : ∀ c ∈ token, isHexDigit c = true)
    (hdotted : ∀ address ∈ p.addresses, Dotted address)
    (hurl : p.getListenUrl port token ≠ []) :
    upgradeTarget (p.getListenUrl port token) = "/ws?t=".toList ++ token := by
  have hshown : p.getListenUrl port token =
      ("http://".toList ++ p.getPreferredAddress.toList ++ ":".toList ++ (toString port).toList ++
        ['/']) ++ '#' :: 't' :: '=' :: token := by
    unfold Processor.getListenUrl at hurl ⊢
    dsimp only at hurl ⊢
    by_cases hnone : p.getPreferredAddress = "" ∨ p.engine.serverRunning = false
    · rw [if_pos hnone] at hurl
      exact absurd rfl hurl
    · rw [if_neg hnone]
      simp
  have hlisted : p.getPreferredAddress = "" ∨ p.getPreferredAddress ∈ p.addresses := by
    unfold Processor.getPreferredAddress
    split_ifs with hchosen
    · exact .inr hchosen.2
    · cases p.addresses with
      | nil => exact .inl rfl
      | cons address rest => exact .inr List.mem_cons_self
  have hplain : '#' ∉ "http://".toList ++ p.getPreferredAddress.toList ++ ":".toList ++
      (toString port).toList ++ ['/'] := by
    simp only [List.mem_append, not_or]
    refine ⟨⟨⟨⟨by decide, ?_⟩, by decide⟩, ?_⟩, by decide⟩
    · rcases hlisted with hnone | hlisted
      · rw [hnone]
        decide
      · intro hmem
        rcases hdotted _ hlisted _ hmem with h | h
        · revert h
          decide
        · revert h
          decide
    · intro hmem
      rcases toString_port port _ hmem with h | h
      · revert h
        decide
      · revert h
        decide
  rw [hshown, upgradeTarget, urlHash_append hplain (by simp), matchToken_fragment hne hhex]
  simp [hne, encodeURIComponent_hex hhex]

theorem authorizeUpgrade_upgradeTarget (codec : TextCodec) {token : List Char}
    (hhex : ∀ c ∈ token, isHexDigit c = true) :
    authorizeUpgrade codec token
      (("/ws?t=".toList ++ token).map fun c => c.toNat.toUInt8) = true := by
  have hascii : ∀ c ∈ "/ws?t=".toList ++ token, c ≠ Char.ofNat 0 ∧ c.toNat < 128 := by
    intro c hc
    have hfixed : ("/ws?t=".toList.all fun c => c ≠ Char.ofNat 0 ∧ c.toNat < 128) = true := by
      decide
    rcases List.mem_append.mp hc with hpath | htoken
    · exact of_decide_eq_true (List.all_eq_true.mp hfixed c hpath)
    · exact ⟨(isHexDigit_plain (hhex c htoken)).2.1, isHexDigit_ascii (hhex c htoken)⟩
  have hquery : '&' ∉ 't' :: '=' :: token := by
    simp only [List.mem_cons, not_or]
    refine ⟨by decide, by decide, fun hmem => ?_⟩
    exact (isHexDigit_plain (hhex _ hmem)).2.2.1 rfl
  rw [authorizeUpgrade_iff, codec.fromBytes_ascii _ hascii]
  have htail : (("/ws?t=".toList ++ token).dropWhile (· != '?')).tail = 't' :: '=' :: token := rfl
  rw [parameters, htail, List.splitOn_eq_singleton hquery]
  rfl

/-- A client that has not sent the token sees the same bytes whatever is broadcast, which are those
of a static answer at most, and is never enqueued a frame; and a client that takes the token from
the URL the plugin shows is let in. -/
theorem audio_only_for_token (codec : TextCodec) (token : List Char) (resources : List Resource)
    (accept : List UInt8 → List UInt8) (limit : ℕ) :
    let owner := engineOwner resources (authorizeUpgrade codec token) accept limit
    (∀ es es', threads es = threads es' →
      ¬ HoldsToken codec token (received (Tap.run owner es).reads) →
      (Connection.run owner {} es').wire = (Connection.run owner {} es).wire ∧
      Answered owner (received (Tap.run owner es).reads) (Connection.run owner {} es).wire ∧
      ∀ pre post, es = pre ++ post → (Connection.run owner {} pre).upgraded = false ∧
        (Connection.run owner {} pre).sendQueue = {}) ∧
    (∀ {α : Type} (p : Processor α) (port : ℤ), token ≠ [] →
      (∀ c ∈ token, isHexDigit c = true) → (∀ address ∈ p.addresses, Dotted address) →
      p.getListenUrl port token ≠ [] →
      owner.upgradeAuthorizer.all (fun authorize => authorize
        ((upgradeTarget (p.getListenUrl port token)).map fun c => c.toNat.toUInt8)) = true) := by
  intro owner
  refine ⟨fun es es' hthreads hnot => ?_, fun p port hne hhex hdotted hurl => ?_⟩
  · have hparse := Tap.parseRequest_reads owner es
    rw [HoldsToken, hparse, ← HoldsToken, ← admitted_iff codec token resources accept limit] at hnot
    rw [Answered, staticAnswer, hparse]
    exact Connection.unadmitted_run owner hthreads hnot
  · rw [upgradeTarget_getListenUrl p port hne hhex hdotted hurl]
    exact authorizeUpgrade_upgradeTarget codec hhex

def plainText : TextCodec where
  fromBytes bytes := (bytes.takeWhile (· != 0)).map fun b => Char.ofNat b.toNat
  fromBytes_ascii s hs := by
    induction s with
    | nil => rfl
    | cons c rest ih =>
      obtain ⟨hnul, hascii⟩ := hs c List.mem_cons_self
      have hbyte : c.toNat.toUInt8.toNat = c.toNat := by
        rw [Nat.toUInt8, UInt8.toNat_ofNat']
        exact Nat.mod_eq_of_lt (Nat.lt_trans hascii (by decide))
      have hgoes : (c.toNat.toUInt8 != 0) = true := by
        rw [bne_iff_ne]
        intro hzero
        rw [hzero] at hbyte
        exact hnul (by rw [← Char.ofNat_toNat c, ← hbyte]; rfl)
      rw [List.map_cons, List.takeWhile_cons, if_pos hgoes, List.map_cons, hbyte, Char.ofNat_toNat,
        ih fun d hd => hs d (List.mem_cons_of_mem c hd)]

def wrongToken : Answers :=
  { read := ascii "GET /ws?t=0 HTTP/1.1\r\nUpgrade: websocket\r\nConnection: Upgrade\r\n" ++
      ascii "Sec-WebSocket-Key: k\r\n\r\n" }

theorem audio_only_for_token_1f3c :
    let owner := engineOwner [] (authorizeUpgrade plainText "1f3c".toList) id 0
    (Connection.run owner {} [.thread wrongToken, .enqueue { frame := [0] }, .thread {},
        .thread { written := 99 }]).wire =
      (Connection.run owner {} [.thread wrongToken, .thread {}, .thread { written := 99 }]).wire ∧
    owner.upgradeAuthorizer.all (fun authorize => authorize ((upgradeTarget
      (({ engine := { serverRunning := true }, addresses := ["192.168.1.50"] } :
        Processor ℕ).getListenUrl 17520 "1f3c".toList)).map fun c => c.toNat.toUInt8)) = true := by
  intro owner
  have hwrong : ¬ HoldsToken plainText "1f3c".toList (received (Tap.run owner
      [.thread wrongToken, .thread {}, .thread { written := 99 }]).reads) := by
    rintro ⟨request, hparse, -, hlookup⟩
    have htarget : (parseRequest (received (Tap.run owner
        [.thread wrongToken, .thread {}, .thread { written := 99 }]).reads)).toOption.join.map
          (·.target) = some (ascii "/ws?t=0") := by decide +kernel
    rw [hparse] at htarget
    rw [show request.target = _ from Option.some.inj htarget] at hlookup
    revert hlookup
    decide +kernel
  have h := audio_only_for_token plainText "1f3c".toList [] id 0
  exact ⟨(h.1 _ _ rfl hwrong).1, h.2 _ 17520 (by decide) (List.all_eq_true.mp (by decide))
    (by decide) (by decide +kernel)⟩

end Ppm.Plugin

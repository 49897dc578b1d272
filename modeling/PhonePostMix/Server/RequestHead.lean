import PhonePostMix.Server.Connection

/-! Where `handleHttp` stops reading a request head: the terminator is looked for before the
size, once for every read. -/

namespace Ppm.Server
open Http

def Answers.received (a : Answers) : List UInt8 :=
  -- what a look at the socket brings: nothing while the socket is not ready
  if a.ready = 0 then [] else a.read

structure Answers.Open (a : Answers) : Prop where
  stays : a.shouldExit = false
  sound : 0 ≤ a.ready
  read : a.ready ≠ 0 → a.read ≠ []
  size : a.received.length ≤ socketChunkBytes

def received (as : List Answers) : List UInt8 := as.flatMap Answers.received

def EndsAt (as : List Answers) (n : ℕ) : Prop :=
  -- one of the reads ends after this many bytes
  ∃ before, before <+: as ∧ (received before).length = n

def headLength (bytes : List UInt8) : Option ℕ :=
  (find headEndMark bytes).map (· + headEndMark.length)

theorem received_append (as bs : List Answers) : received (as ++ bs) = received as ++ received bs :=
  List.flatMap_append

theorem received_concat (as : List Answers) (a : Answers) :
    received (as ++ [a]) = received as ++ a.received := by
  rw [received_append, received, received, List.flatMap_singleton]

theorem received_mono {as bs : List Answers} (h : as <+: bs) : received as <+: received bs := by
  obtain ⟨rest, rfl⟩ := h
  exact ⟨received rest, (received_append as rest).symm⟩

theorem endsAt_le {as : List Answers} {n : ℕ} (h : EndsAt as n) : n ≤ (received as).length := by
  obtain ⟨before, hpre, rfl⟩ := h
  exact (received_mono hpre).length_le

theorem endsAt_self (as : List Answers) : EndsAt as (received as).length :=
  ⟨as, List.prefix_refl as, rfl⟩

theorem EndsAt.append {as : List Answers} {n : ℕ} (h : EndsAt as n) (bs : List Answers) :
    EndsAt (as ++ bs) n := by
  obtain ⟨before, hpre, hn⟩ := h
  exact ⟨before, hpre.trans (List.prefix_append as bs), hn⟩

theorem endsAt_concat {as : List Answers} {a : Answers} {n : ℕ} (h : EndsAt (as ++ [a]) n) :
    EndsAt as n ∨ n = (received (as ++ [a])).length := by
  obtain ⟨before, hpre, rfl⟩ := h
  rcases List.prefix_concat_iff.mp hpre with rfl | hbefore
  · exact .inr rfl
  · exact .inl ⟨before, hbefore, rfl⟩

theorem exists_endsAt_of_lt {as : List Answers} (hopen : ∀ a ∈ as, a.Open) {n : ℕ}
    (h : n < (received as).length) : ∃ e, EndsAt as e ∧ n < e ∧ e ≤ n + socketChunkBytes := by
  induction as using List.reverseRecOn with
  | nil => exact absurd h (Nat.not_lt_zero n)
  | append_singleton as a ih =>
    by_cases hbefore : n < (received as).length
    · obtain ⟨e, he, hlt, hle⟩ := ih (fun b hb => hopen b (List.mem_append_left [a] hb)) hbefore
      exact ⟨e, he.append [a], hlt, hle⟩
    · refine ⟨_, endsAt_self (as ++ [a]), h, ?_⟩
      have hsize := (hopen a (by simp)).size
      rw [received_concat, List.length_append]
      omega

section HeadLength
variable {bytes more : List UInt8} {n : ℕ}

theorem headLength_eq_some (h : headLength bytes = some n) :
    ∃ headEnd, find headEndMark bytes = some headEnd ∧ n = headEnd + headEndMark.length := by
  obtain ⟨headEnd, hfind, rfl⟩ := Option.map_eq_some_iff.mp h
  exact ⟨headEnd, hfind, rfl⟩

theorem headLength_le (h : headLength bytes = some n) : n ≤ bytes.length := by
  obtain ⟨headEnd, hfind, rfl⟩ := headLength_eq_some h
  exact (find_eq_some hfind).2

theorem headLength_append (h : headLength bytes = some n) (more : List UInt8) :
    headLength (bytes ++ more) = some n := by
  obtain ⟨headEnd, hfind, rfl⟩ := headLength_eq_some h
  rw [headLength, find_append (by decide) hfind more]
  rfl

theorem headLength_of_earlier (h : headLength (bytes ++ more) = some n) (hle : n ≤ bytes.length) :
    headLength bytes = some n := by
  obtain ⟨headEnd, hfind, rfl⟩ := headLength_eq_some h
  rw [headLength, find_prefix (by decide) hfind hle]
  rfl

theorem find_of_headLength (h : headLength bytes = none) :
    find headEndMark bytes = none := Option.map_eq_none_iff.mp h

theorem parseRequest_of_headLength (h : headLength bytes = some n) (more : List UInt8) :
    parseRequest (bytes ++ more) = parseRequest bytes := by
  obtain ⟨headEnd, hfind, -⟩ := headLength_eq_some h
  exact parseRequest_append hfind more

end HeadLength

namespace Connection
variable {owner : Owner} {as : List Answers}

def handleHttp (owner : Owner) (as : List Answers) : Connection :=
  -- `handleHttp` up to its first write, over what the socket answers meanwhile
  Runs.run (fun c a => if c.phase = .readingHead then c.threadStep owner a else c) {} as

theorem handleHttp_concat (owner : Owner) (as : List Answers) (a : Answers) :
    handleHttp owner (as ++ [a]) =
      if (handleHttp owner as).phase = .readingHead then (handleHttp owner as).threadStep owner a
      else handleHttp owner as := by
  rw [handleHttp, Runs.run_append]
  rfl

/-- The request was answered, or at least looked up. -/
def Acted (c : Connection) : Prop := c.phase ≠ .readingHead ∧ c.phase ≠ .finishing

inductive Stand (owner : Owner) (as : List Answers) : Connection → Prop
  | reading (hmark : headLength (received as) = none)
      (hsize : (received as).length ≤ maxRequestHeadBytes) : Stand owner as { head := received as }
  | closed {before : List Answers} (hpre : before <+: as)
      (hmark : headLength (received before) = none)
      (hsize : maxRequestHeadBytes < (received before).length) :
      Stand owner as { head := received before, phase := .finishing }
  | handled {before : List Answers} {n : ℕ} (hpre : before <+: as)
      (hmark : headLength (received before) = some n)
      (hends : ∀ e, EndsAt as e → e < n → e ≤ maxRequestHeadBytes) :
      Stand owner as (handleRequest { head := received before } owner)

theorem acted_handleRequest {head : List UInt8} :
    Acted (handleRequest { head } owner) ↔ parseRequest head ≠ .ok none := by
  rcases parseRequest_cases head with hnone | ⟨request, hsome, -⟩
  · simp [Acted, handleRequest, hnone]
  · have hphase : (handleRequest { head } owner).phase ≠ .finishing := by
      unfold handleRequest serveAsset
      simp only [hsome]
      split
      · simp
      · split_ifs <;> simp [performUpgrade]
      · split <;> simp
    simp only [hsome, Acted, ne_eq, Except.ok.injEq, reduceCtorEq, not_false_eq_true, iff_true]
    exact ⟨handleRequest_ne_readingHead owner _, hphase⟩

theorem stand_readHead {a : Answers} (hopen : a.Open) (hmark : headLength (received as) = none)
    (hsize : (received as).length ≤ maxRequestHeadBytes) :
    Stand owner (as ++ [a]) (readHead owner { head := received as } a) := by
  have hall := received_concat as a
  unfold readHead
  rw [if_neg (by simp [hopen.stays]), if_neg (not_lt.mpr hopen.sound)]
  by_cases hready : a.ready = 0
  · rw [if_pos hready]
    have hsame : received (as ++ [a]) = received as := by
      rw [hall, Answers.received, if_pos hready, List.append_nil]
    rw [← hsame] at hmark hsize ⊢
    exact .reading hmark hsize
  · rw [if_neg hready]
    have hread : a.received = a.read := if_neg hready
    have hchunk : a.read.take socketChunkBytes = a.read :=
      List.take_of_length_le (hread ▸ hopen.size)
    rw [hread] at hall
    rw [hchunk]
    split
    · rename_i hnil
      exact absurd hnil (hopen.read hready)
    · dsimp only
      rw [← hall]
      split_ifs with hfound hlong
      · obtain ⟨headEnd, hfind⟩ := Option.isSome_iff_exists.mp hfound
        have hhead : headLength (received (as ++ [a])) = some (headEnd + headEndMark.length) := by
          rw [headLength, hfind]
          rfl
        refine .handled (List.prefix_refl _) hhead fun e he hlt => ?_
        rcases endsAt_concat he with hearlier | rfl
        · exact (endsAt_le hearlier).trans hsize
        · exact absurd (headLength_le hhead) (Nat.not_le.mpr hlt)
      · exact .closed (List.prefix_refl _) (by simpa [headLength] using hfound) hlong
      · exact .reading (by simpa [headLength] using hfound) (Nat.not_lt.mp hlong)

theorem stand_handleHttp (owner : Owner) (hopen : ∀ a ∈ as, a.Open) :
    Stand owner as (handleHttp owner as) := by
  induction as using List.reverseRecOn with
  | nil => exact .reading (by decide) (Nat.zero_le _)
  | append_singleton as a ih =>
    have hstand := ih fun b hb => hopen b (List.mem_append_left [a] hb)
    rw [handleHttp_concat]
    generalize handleHttp owner as = c at hstand ⊢
    cases hstand with
    | reading hmark hsize =>
      rw [if_pos rfl]
      exact stand_readHead (hopen a (by simp)) hmark hsize
    | closed hpre hmark hsize =>
      rw [if_neg (by simp)]
      exact .closed (hpre.trans (List.prefix_append as [a])) hmark hsize
    | handled hpre hmark hends =>
      rw [if_neg (handleRequest_ne_readingHead owner _)]
      refine .handled (hpre.trans (List.prefix_append as [a])) hmark fun e he hlt => ?_
      rcases endsAt_concat he with hearlier | rfl
      · exact hends e hearlier hlt
      · have hle := (received_mono (hpre.trans (List.prefix_append as [a]))).length_le
        have hn := headLength_le hmark
        omega

theorem acted_handleHttp_iff (owner : Owner) (hopen : ∀ a ∈ as, a.Open) :
    Acted (handleHttp owner as) ↔ ∃ n, headLength (received as) = some n ∧
      (∀ e, EndsAt as e → e < n → e ≤ maxRequestHeadBytes) ∧
      parseRequest (received as) ≠ .ok none := by
  have hstand := stand_handleHttp owner hopen
  generalize handleHttp owner as = c at hstand ⊢
  cases hstand with
  | reading hmark hsize => simp [Acted, hmark]
  | @closed before hpre hmark hsize =>
    refine ⟨fun h => absurd rfl h.2, ?_⟩
    rintro ⟨n, hn, hends, -⟩
    have hshort : ¬ n ≤ (received before).length := by
      intro hle
      obtain ⟨rest, hrest⟩ := received_mono hpre
      rw [headLength_of_earlier (hrest ▸ hn) hle] at hmark
      cases hmark
    have hend := hends _ ⟨before, hpre, rfl⟩ (Nat.not_le.mp hshort)
    omega
  | @handled before n hpre hmark hends =>
    obtain ⟨rest, hrest⟩ := received_mono hpre
    have hn := headLength_append hmark rest
    have hparse := parseRequest_of_headLength hmark rest
    rw [hrest] at hn hparse
    rw [acted_handleRequest, hparse, hn]
    constructor
    · intro hsome
      exact ⟨n, rfl, hends, hsome⟩
    · rintro ⟨-, -, -, hsome⟩
      exact hsome

theorem closed_of_not_acted (owner : Owner) (hopen : ∀ a ∈ as, a.Open)
    (hnot : ¬ Acted (handleHttp owner as))
    (hlong : headLength (received as) ≠ none ∨ maxRequestHeadBytes < (received as).length) :
    (handleHttp owner as).phase = .finishing ∧ (handleHttp owner as).wire = [] := by
  have hstand := stand_handleHttp owner hopen
  generalize handleHttp owner as = c at hstand hnot ⊢
  cases hstand with
  | reading hmark hsize =>
    rcases hlong with hsome | hlong
    · exact absurd hmark hsome
    · omega
  | closed hpre hmark hsize => exact ⟨rfl, rfl⟩
  | @handled before n hpre hmark hends =>
    have hnone := not_not.mp (acted_handleRequest.not.mp hnot)
    unfold handleRequest
    rw [hnone]
    exact ⟨rfl, rfl⟩

/-- The documented cap: nothing longer is acted on, and what is longer is closed in silence. -/
structure Capped (owner : Owner) (as : List Answers) : Prop where
  acted : Acted (handleHttp owner as) →
    ∃ n, headLength (received as) = some n ∧ n ≤ maxRequestHeadBytes
  closed : (∀ n, headLength (received as) = some n → maxRequestHeadBytes < n) →
    maxRequestHeadBytes < (received as).length →
    (handleHttp owner as).phase = .finishing ∧ (handleHttp owner as).wire = []

theorem capped_iff (owner : Owner) (hopen : ∀ a ∈ as, a.Open) :
    Capped owner as ↔ ∀ n, headLength (received as) = some n → n ≤ maxRequestHeadBytes ∨
      (∃ e, EndsAt as e ∧ maxRequestHeadBytes < e ∧ e < n) ∨
      parseRequest (received as) = .ok none := by
  constructor
  · intro h n hn
    by_contra hno
    simp only [not_or, not_exists, not_and, not_le, not_lt] at hno
    obtain ⟨hlong, hends, hparse⟩ := hno
    have hacted : Acted (handleHttp owner as) := by
      refine (acted_handleHttp_iff owner hopen).mpr ⟨n, hn, fun e he hlt => ?_, hparse⟩
      by_contra hover
      exact absurd (hends e he (Nat.not_le.mp hover)) (Nat.not_le.mpr hlt)
    obtain ⟨m, hm, hle⟩ := h.acted hacted
    obtain rfl := Option.some.inj (hn.symm.trans hm)
    omega
  · intro h
    have hshort : Acted (handleHttp owner as) →
        ∃ n, headLength (received as) = some n ∧ n ≤ maxRequestHeadBytes := by
      intro hacted
      obtain ⟨n, hn, hends, hparse⟩ := (acted_handleHttp_iff owner hopen).mp hacted
      rcases h n hn with hle | ⟨e, he, hover, hlt⟩ | hnone
      · exact ⟨n, hn, hle⟩
      · exact absurd (hends e he hlt) (Nat.not_le.mpr hover)
      · exact absurd hnone hparse
    refine ⟨hshort, fun hlong hsize => ?_⟩
    have hnot : ¬ Acted (handleHttp owner as) := by
      intro hacted
      obtain ⟨n, hn, hle⟩ := hshort hacted
      exact absurd hle (Nat.not_le.mpr (hlong n hn))
    exact closed_of_not_acted owner hopen hnot (.inr hsize)

end Connection

section Splits
variable {bytes : List UInt8} {n k : ℕ}

def singleReads (bytes : List UInt8) : List Answers := bytes.map fun b => { read := [b] }

def fullReads (k : ℕ) (bytes : List UInt8) : List Answers :=
  (List.range k).map fun i =>
    { read := (bytes.drop (i * socketChunkBytes)).take socketChunkBytes }

theorem received_singleReads (bytes : List UInt8) : received (singleReads bytes) = bytes := by
  rw [received, singleReads, List.flatMap_map]
  exact List.flatMap_singleton' bytes

theorem open_singleReads (bytes : List UInt8) : ∀ a ∈ singleReads bytes, a.Open := by
  intro a ha
  obtain ⟨b, -, rfl⟩ := List.mem_map.mp ha
  exact ⟨rfl, zero_le_one' ℤ, by simp, by simp [Answers.received, socketChunkBytes]⟩

theorem endsAt_singleReads (h : n ≤ bytes.length) : EndsAt (singleReads bytes) n := by
  refine ⟨singleReads (bytes.take n), (List.take_prefix n bytes).map _, ?_⟩
  rw [received_singleReads, List.length_take_of_le h]

theorem fullReads_succ (k : ℕ) (bytes : List UInt8) : fullReads (k + 1) bytes =
    fullReads k bytes ++
      [{ read := (bytes.drop (k * socketChunkBytes)).take socketChunkBytes }] := by
  rw [fullReads, List.range_succ, List.map_append]
  rfl

theorem received_fullReads (k : ℕ) (bytes : List UInt8) :
    received (fullReads k bytes) = bytes.take (k * socketChunkBytes) := by
  induction k with
  | zero => simp [fullReads, received]
  | succ k ih =>
    rw [fullReads_succ, received_append, ih, Nat.succ_mul, List.take_add]
    congr 1
    exact List.append_nil _

theorem open_fullReads (h : k * socketChunkBytes < bytes.length) :
    ∀ a ∈ fullReads (k + 1) bytes, a.Open := by
  intro a ha
  obtain ⟨i, hi, rfl⟩ := List.mem_map.mp ha
  have hin : i * socketChunkBytes < bytes.length := by
    refine Nat.lt_of_le_of_lt (Nat.mul_le_mul_right _ ?_) h
    exact Nat.lt_succ_iff.mp (List.mem_range.mp hi)
  refine ⟨rfl, zero_le_one' ℤ, fun _ hnil => ?_, ?_⟩
  · have hlength := congrArg List.length hnil
    rw [List.length_take, List.length_drop, List.length_nil] at hlength
    simp only [socketChunkBytes] at hlength hin
    omega
  · exact List.length_take_le _ _

theorem endsAt_fullReads {rest : List Answers} (h : EndsAt (fullReads (k + 1) bytes ++ rest) n) :
    n ≤ k * socketChunkBytes ∨ min ((k + 1) * socketChunkBytes) bytes.length ≤ n := by
  obtain ⟨before, hpre, rfl⟩ := h
  have hlast : (received (fullReads (k + 1) bytes)).length =
      min ((k + 1) * socketChunkBytes) bytes.length := by
    rw [received_fullReads, List.length_take]
  rcases List.prefix_or_prefix_of_prefix hpre (List.prefix_append _ rest) with hin | hpast
  · rw [fullReads_succ] at hin
    rcases List.prefix_concat_iff.mp hin with rfl | hearlier
    · rw [← fullReads_succ]
      exact .inr hlast.ge
    · left
      refine (received_mono hearlier).length_le.trans ?_
      rw [received_fullReads, List.length_take]
      exact Nat.min_le_left _ _
  · right
    rw [← hlast]
    exact (received_mono hpast).length_le

end Splits

namespace Connection

/-- Whether the request is acted on does not depend on how the stream is cut into reads. -/
def SplitsAlike (owner : Owner) (bytes : List UInt8) : Prop :=
  ∀ as as', (∀ a ∈ as, a.Open) → (∀ a ∈ as', a.Open) → received as = bytes →
    received as' = bytes → (Acted (handleHttp owner as) ↔ Acted (handleHttp owner as'))

def leaping (bytes : List UInt8) : List Answers :=
  -- nine full reads take in a head that ends within one chunk of the limit, and whatever follows
  -- it comes byte by byte
  fullReads 9 bytes ++ singleReads (bytes.drop (9 * socketChunkBytes))

section Leaping
variable {bytes : List UInt8} {n : ℕ}

theorem received_leaping (bytes : List UInt8) : received (leaping bytes) = bytes := by
  rw [leaping, received_append, received_fullReads, received_singleReads, List.take_append_drop]

theorem open_leaping (h : maxRequestHeadBytes < bytes.length) : ∀ a ∈ leaping bytes, a.Open := by
  intro a ha
  rcases List.mem_append.mp ha with hfull | hsingle
  · exact open_fullReads h a hfull
  · exact open_singleReads _ a hsingle

theorem acted_leaping (owner : Owner) (hn : headLength bytes = some n)
    (hover : maxRequestHeadBytes < n) (hwithin : n ≤ maxRequestHeadBytes + socketChunkBytes)
    (hparse : parseRequest bytes ≠ .ok none) : Acted (handleHttp owner (leaping bytes)) := by
  have hlong : maxRequestHeadBytes < bytes.length := Nat.lt_of_lt_of_le hover (headLength_le hn)
  rw [acted_handleHttp_iff owner (open_leaping hlong), received_leaping]
  refine ⟨n, hn, fun e he hlt => ?_, hparse⟩
  have hle := headLength_le hn
  rcases endsAt_fullReads he with hbefore | hpast
  · exact hbefore
  · simp only [maxRequestHeadBytes, socketChunkBytes] at hwithin hpast
    omega

theorem not_acted_singleReads (owner : Owner) (hn : headLength bytes = some n)
    (hover : maxRequestHeadBytes + 1 < n) : ¬ Acted (handleHttp owner (singleReads bytes)) := by
  rw [acted_handleHttp_iff owner (open_singleReads bytes), received_singleReads]
  rintro ⟨m, hm, hends, -⟩
  obtain rfl := Option.some.inj (hn.symm.trans hm)
  have hle := headLength_le hn
  have hend := hends (maxRequestHeadBytes + 1) (endsAt_singleReads (by omega)) hover
  omega

end Leaping

theorem splitsAlike_iff (owner : Owner) (bytes : List UInt8) :
    SplitsAlike owner bytes ↔ ∀ n, headLength bytes = some n → n ≤ maxRequestHeadBytes + 1 ∨
      maxRequestHeadBytes + socketChunkBytes < n ∨ parseRequest bytes = .ok none := by
  constructor
  · intro h n hn
    by_contra hno
    simp only [not_or, not_le, not_lt] at hno
    obtain ⟨hover, hwithin, hparse⟩ := hno
    have hle := headLength_le hn
    have hsame := h (leaping bytes) (singleReads bytes) (open_leaping (by omega))
      (open_singleReads bytes) (received_leaping bytes) (received_singleReads bytes)
    exact not_acted_singleReads owner hn hover
      (hsame.mp (acted_leaping owner hn (by omega) hwithin hparse))
  · intro h
    -- each case of the condition decides whether any split is acted on
    have hall : ∀ as, (∀ a ∈ as, a.Open) → received as = bytes → (Acted (handleHttp owner as) ↔
        (∃ n, headLength bytes = some n ∧ n ≤ maxRequestHeadBytes + 1) ∧
          parseRequest bytes ≠ .ok none) := by
      rintro as hopen rfl
      rw [acted_handleHttp_iff owner hopen]
      constructor
      · rintro ⟨n, hn, hends, hparse⟩
        rcases h n hn with hle | hlong | hnone
        · exact ⟨⟨n, hn, hle⟩, hparse⟩
        · have hle := headLength_le hn
          obtain ⟨e, he, hover, hwithin⟩ :=
            exists_endsAt_of_lt hopen (n := maxRequestHeadBytes) (by omega)
          exact absurd (hends e he (by omega)) (Nat.not_le.mpr hover)
        · exact absurd hnone hparse
      · rintro ⟨⟨n, hn, hle⟩, hparse⟩
        exact ⟨n, hn, fun e _ hlt => by omega, hparse⟩
    intro as as' hopen hopen' hbytes hbytes'
    rw [hall as hopen hbytes, hall as' hopen' hbytes']

/-- Where the cap holds: for a split with a read that ends between the limit and the end of a
longer head, for all splits of a stream whose head is not within one chunk beyond the limit. -/
theorem request_head_cap (owner : Owner) (bytes : List UInt8) :
    (∀ as, (∀ a ∈ as, a.Open) → received as = bytes → (Capped owner as ↔
      ∀ n, headLength bytes = some n → n ≤ maxRequestHeadBytes ∨
        (∃ e, EndsAt as e ∧ maxRequestHeadBytes < e ∧ e < n) ∨ parseRequest bytes = .ok none)) ∧
    ((∀ as, (∀ a ∈ as, a.Open) → received as = bytes → Capped owner as) ↔
      ∀ n, headLength bytes = some n → n ≤ maxRequestHeadBytes ∨
        maxRequestHeadBytes + socketChunkBytes < n ∨ parseRequest bytes = .ok none) ∧
    (SplitsAlike owner bytes ↔
      ∀ n, headLength bytes = some n → n ≤ maxRequestHeadBytes + 1 ∨
        maxRequestHeadBytes + socketChunkBytes < n ∨ parseRequest bytes = .ok none) := by
  refine ⟨?_, ⟨?_, ?_⟩, splitsAlike_iff owner bytes⟩
  · rintro as hopen rfl
    exact capped_iff owner hopen
  · intro h n hn
    by_contra hno
    simp only [not_or, not_le, not_lt] at hno
    obtain ⟨hover, hwithin, hparse⟩ := hno
    have hle := headLength_le hn
    have hcapped := h (leaping bytes) (open_leaping (by omega)) (received_leaping bytes)
    obtain ⟨m, hm, hshort⟩ := hcapped.acted (acted_leaping owner hn hover hwithin hparse)
    rw [received_leaping, hn] at hm
    obtain rfl := Option.some.inj hm
    omega
  · rintro h as hopen rfl
    refine (capped_iff owner hopen).mpr fun n hn => ?_
    rcases h n hn with hle | hlong | hnone
    · exact .inl hle
    · have hle := headLength_le hn
      obtain ⟨e, he, hover, hwithin⟩ :=
        exists_endsAt_of_lt hopen (n := maxRequestHeadBytes) (by omega)
      exact .inr (.inl ⟨e, he, hover, by omega⟩)
    · exact .inr (.inr hnone)

def emptyServer : Owner where
  assetProvider := none
  upgradeAuthorizer := none
  makeAcceptKey := id

theorem short_head_capped :
    Capped emptyServer [{ read := ascii "GET / HTTP/1.1\r\n" }, { ready := 0 },
      { read := ascii "\r\n" }] := by
  have hopen : ∀ a ∈ ([{ read := ascii "GET / HTTP/1.1\r\n" }, { ready := 0 },
      { read := ascii "\r\n" }] : List Answers), a.Open := by
    simp only [List.forall_mem_cons]
    exact ⟨⟨rfl, by decide, by decide, by decide⟩, ⟨rfl, by decide, by decide, by decide⟩,
      ⟨rfl, by decide, by decide, by decide⟩, by simp⟩
  refine ((request_head_cap emptyServer _).1 _ hopen rfl).mpr fun n hn => .inl ?_
  have hle := headLength_le hn
  exact hle.trans (by decide)

def longHead : List UInt8 :=
  ascii "GET / HTTP/1.1\r\nX:" ++ 0x20 :: (List.replicate 18409 0x61 ++ headEndMark)

theorem headLength_longHead : headLength longHead = some 18432 := by
  have hrun : ∀ m, find headEndMark (List.replicate m 0x61 ++ headEndMark) = some m := by
    intro m
    induction m with
    | zero => decide
    | succ m ih =>
      have hstep : find headEndMark ([] ++ 0x61 :: (List.replicate m 0x61 ++ headEndMark)) = _ :=
        find_append_cons (by decide) (by decide) (by decide)
      rw [ih] at hstep
      rw [List.replicate_succ, List.cons_append]
      exact hstep
  rw [longHead, headLength, find_append_cons (by decide) (by decide) (by decide), hrun]
  rfl

/-- Nine full reads of a head of 18432 bytes are acted on, the same bytes one by one are not. -/
theorem long_head_acted :
    received (fullReads 9 longHead) = longHead ∧ received (singleReads longHead) = longHead ∧
      headLength longHead = some 18432 ∧ (∀ a ∈ fullReads 9 longHead, a.Open) ∧
      Acted (handleHttp emptyServer (fullReads 9 longHead)) ∧
      ¬ Acted (handleHttp emptyServer (singleReads longHead)) := by
  have hlength : longHead.length = 9 * socketChunkBytes := by
    rw [longHead, List.length_append, List.length_cons, List.length_append, List.length_replicate]
    rfl
  have hall : received (fullReads 9 longHead) = longHead := by
    rw [received_fullReads, List.take_of_length_le hlength.le]
  have hleap : leaping longHead = fullReads 9 longHead := by
    rw [leaping, List.drop_of_length_le hlength.le]
    exact List.append_nil _
  have hparse : parseRequest longHead ≠ .ok none := by
    obtain ⟨headEnd, hfind, hn⟩ := headLength_eq_some headLength_longHead
    have hsplit : longHead = ascii "GET / HTTP/1.1\r" ++ 0x0a ::
        (ascii "X:" ++ 0x20 :: (List.replicate 18409 0x61 ++ headEndMark)) := rfl
    have hlate : 15 ≤ headEnd + 1 := by
      have hmark : headEndMark.length = 4 := rfl
      omega
    rw [hsplit] at hfind ⊢
    obtain ⟨r, hr⟩ := parseRequest_of_requestLine (by decide)
      (by decide : words _ = [ascii "GET", ascii "/", ascii "HTTP/1.1"]) hfind hlate
    rw [hr]
    simp
  refine ⟨hall, received_singleReads _, headLength_longHead, ?_, ?_, ?_⟩
  · rw [← hleap]
    exact open_leaping (by rw [hlength]; decide)
  · rw [← hleap]
    exact acted_leaping _ headLength_longHead (by decide) (by decide) hparse
  · exact not_acted_singleReads _ headLength_longHead (by decide)

end Connection
end Ppm.Server

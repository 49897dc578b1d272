import PhonePostMix.QrCode.Segments

/-! What a scanner reads in the data codewords of a symbol, and that it is the text. -/

namespace Ppm.QrCode
open Radix

/-- The characters of a segment as numbers in groups of bits, behind the bits that announce the
mode and as many for the count of characters as the number of the version says. -/
structure Coding extends Grouping where
  modeBits : ℕ
  countBits : ℕ → ℕ
  char : ℕ → UInt8

namespace Coding

def numeric : Coding where
  base := 10
  group := 3
  bits := 10
  rest n := n * 3 + 1
  modeBits := 0x1
  countBits n := if n ≤ 9 then 10 else if n ≤ 26 then 12 else 14
  char v := (v + 0x30).toUInt8

def alphanumeric : Coding where
  base := 45
  group := 2
  bits := 11
  rest _ := 6
  modeBits := 0x2
  countBits n := if n ≤ 9 then 9 else if n ≤ 26 then 11 else 13
  char v := (ascii "0123456789ABCDEFGHIJKLMNOPQRSTUVWXYZ $%*+-./:").getD v 0

def byte : Coding where
  base := 256
  group := 1
  bits := 8
  rest _ := 0
  modeBits := 0x4
  countBits n := if n ≤ 9 then 8 else 16
  char v := v.toUInt8

def ofModeBits : ℕ → Option Coding
  | 0x1 => some numeric
  | 0x2 => some alphanumeric
  | 0x4 => some byte
  | _ => none

end Coding

def readSegments (ver : Version) : ℕ → List Bool → Option (List UInt8)
  -- the text of the segments, up to the terminator
  | 0, _ => none
  | fuel + 1, bits =>
    if bits.length < 4 ∨ ofBits (bits.take 4) = 0 then some []
    else
      match Coding.ofModeBits (ofBits (bits.take 4)) with
      | none => none
      | some c =>
        let ccbits := c.countBits ver.number
        let count := ofBits ((bits.drop 4).take ccbits)
        let bits := (bits.drop 4).drop ccbits
        if bits.length < c.size count then none
        else (readSegments ver fuel (bits.drop (c.size count))).map
          ((c.unpacked count bits).map c.char ++ ·)

def readData (ver : Version) (codewords : List UInt8) : Option (List UInt8) :=
  let bits := codewords.flatMap fun byte => bitsOf 8 byte.toNat
  readSegments ver (bits.length + 1) bits

section Packing
variable {a : Alphabet} {vs : List ℕ} {s : Packing} {c : UInt8} {v : ℕ}

structure Alphabet.Lawful (a : Alphabet) : Prop where
  grouping : a.toGrouping.Lawful
  bits_le : a.bits ≤ 31
  rest_le : ∀ r < a.group, a.rest r ≤ 31
  value_lt : ∀ c, ∀ v ∈ a.value c, v < a.base

theorem Alphabet.numeric_lawful : Alphabet.numeric.Lawful where
  grouping := ⟨by decide, by decide, by decide⟩
  bits_le := by decide
  rest_le := by decide
  value_lt c v hv := by
    have hc := c.toNat_lt
    simp only [numeric, Option.mem_def] at hv ⊢
    split_ifs at hv with hout
    obtain rfl := Option.some.inj hv
    simp only [not_or, UInt8.not_lt, UInt8.le_iff_toNat_le, UInt8.reduceToNat] at hout
    omega

theorem Alphabet.alphanumeric_lawful : Alphabet.alphanumeric.Lawful where
  grouping := ⟨by decide, by decide, by decide⟩
  bits_le := by decide
  rest_le := by decide
  value_lt c v hv := by
    have hlength : alphanumericCharset.length = 45 := by decide
    simp only [alphanumeric, Option.mem_def] at hv ⊢
    split_ifs at hv with hmem
    obtain rfl := Option.some.inj hv
    exact hlength ▸ List.idxOf_lt_length_iff.mpr hmem

structure Packed (a : Alphabet) (vs : List ℕ) (s : Packing) : Prop where
  bb : s.bb = a.fullBits vs
  accumData : s.accumData = number a.base (a.remaining vs)
  accumCount : s.accumCount = vs.length % a.group
  charCount : s.charCount = vs.length
  small : ∀ v ∈ vs, v < a.base

theorem packed_new (a : Alphabet) : Packed a [] {} where
  bb := by simp [Grouping.fullBits]
  accumData := by simp [Grouping.remaining]
  accumCount := by simp
  charCount := rfl
  small _ hv := absurd hv List.not_mem_nil

theorem Packed.step (ha : a.Lawful) (h : Packed a vs s) (hv : a.value c = some v) :
    ∃ s', packStep a s c = .ok s' ∧ Packed a (vs ++ [v]) s' := by
  have hsmall : ∀ w ∈ vs ++ [v], w < a.base := by
    intro w hw
    rcases List.mem_append.mp hw with hw | hw
    · exact h.small w hw
    · exact List.mem_singleton.mp hw ▸ ha.value_lt c v hv
  have hcount : s.charCount + 1 = (vs ++ [v]).length := by
    rw [h.charCount, List.length_append, List.length_singleton]
  have hlt := Nat.mod_lt vs.length ha.grouping.pos
  by_cases hfull : s.accumCount + 1 = a.group
  · rw [h.accumCount] at hfull
    obtain ⟨hbits, hrest⟩ := Grouping.concat_full ha.grouping.pos hfull v
    have hrem : ∀ w ∈ a.remaining vs ++ [v], w < a.base := by
      intro w hw
      rcases List.mem_append.mp hw with hw | hw
      · exact h.small w (List.mem_of_mem_drop hw)
      · exact hsmall w (List.mem_append_right _ hw)
    have hnumber := number_lt hrem
    rw [number_concat, List.length_append, Grouping.length_remaining, List.length_singleton,
      hfull] at hnumber
    have happend := appendBits_ok ha.bits_le (hnumber.trans_le ha.grouping.full) s.bb
    refine ⟨{ bb := s.bb ++ bitsOf a.bits (number a.base (a.remaining vs) * a.base + v),
              charCount := s.charCount + 1 }, ?_, ?_⟩
    · rw [packStep, hv]
      simp only [h.accumCount, hfull, if_true, h.accumData, happend]
      rfl
    · refine ⟨by rw [h.bb, hbits], by rw [hrest]; rfl, ?_, hcount, hsmall⟩
      have hnone := congrArg List.length hrest
      rw [Grouping.length_remaining] at hnone
      exact hnone.symm
  · have hpart : vs.length % a.group + 1 < a.group := by
      rw [h.accumCount] at hfull
      omega
    obtain ⟨hbits, hrest, hlength⟩ := Grouping.concat_part hpart v
    refine ⟨{ s with accumData := s.accumData * a.base + v, accumCount := s.accumCount + 1,
                     charCount := s.charCount + 1 }, ?_, ?_⟩
    · rw [packStep, hv]
      simp only [if_neg hfull]
      rfl
    · exact ⟨h.bb.trans hbits.symm, by rw [hrest, number_concat, h.accumData],
        by rw [hlength, h.accumCount], hcount, hsmall⟩

theorem Packed.run (ha : a.Lawful) (h : Packed a vs s) {text : List UInt8} {ws : List ℕ}
    (hws : text.map a.value = ws.map some) :
    ∃ s', text.foldlM (packStep a) s = .ok s' ∧ Packed a (vs ++ ws) s' := by
  induction text generalizing vs s ws with
  | nil =>
    obtain rfl : ws = [] := List.map_eq_nil_iff.mp hws.symm
    exact ⟨s, rfl, by rwa [List.append_nil]⟩
  | cons c text ih =>
    obtain ⟨v, ws, rfl, hv, hrest⟩ := List.map_eq_cons_iff.mp hws.symm
    obtain ⟨s', hstep, hs'⟩ := h.step ha hv.symm
    obtain ⟨s'', hrun, hs''⟩ := ih hs' hrest.symm
    refine ⟨s'', ?_, by rwa [List.append_assoc] at hs''⟩
    rw [List.foldlM_cons, hstep]
    exact hrun

theorem Packed.rest (ha : a.Lawful) (h : Packed a vs s) : packRest a s = .ok (a.packed vs) := by
  have hlt := Nat.mod_lt vs.length ha.grouping.pos
  rw [packRest, Grouping.packed, h.accumCount, h.accumData, h.bb]
  by_cases hnone : vs.length % a.group = 0
  · rw [if_neg (by omega), if_pos hnone, List.append_nil]
  · have hsmall : ∀ w ∈ a.remaining vs, w < a.base := fun w hw =>
      h.small w (List.mem_of_mem_drop hw)
    have hnumber := number_lt hsmall
    rw [Grouping.length_remaining] at hnumber
    rw [if_pos (by omega), if_neg hnone,
      appendBits_ok (ha.rest_le _ hlt) (hnumber.trans_le (ha.grouping.part _ hlt))]

theorem pack_ok (ha : a.Lawful) {text : List UInt8} {vs : List ℕ}
    (hvs : text.map a.value = vs.map some) :
    pack a text = .ok ⟨a.mode, vs.length, a.packed vs⟩ ∧ ∀ v ∈ vs, v < a.base := by
  obtain ⟨s, hrun, hs⟩ := (packed_new a).run ha hvs
  rw [List.nil_append] at hs
  refine ⟨?_, hs.small⟩
  rw [pack, hrun]
  simp only [bind, Except.bind, hs.rest ha, hs.charCount]
  rfl

end Packing
section Characters

def coding (text : List UInt8) : Coding :=
  if isNumeric text then .numeric else if isAlphanumeric text then .alphanumeric else .byte

structure Holds (c : Coding) (text : List UInt8) (seg : QrSegment) (vs : List ℕ) : Prop where
  modeBits : seg.mode.modeBits = c.modeBits
  countBits : ∀ ver, seg.mode.numCharCountBits ver = c.countBits ver.number
  numChars : seg.numChars = text.length
  data : seg.data = c.packed vs
  length : vs.length = text.length
  small : ∀ v ∈ vs, v < c.base
  chars : vs.map c.char = text

theorem numeric_countBits : ∀ ver : Version,
    Mode.numeric.numCharCountBits ver = Coding.numeric.countBits ver.number := by decide

theorem alphanumeric_countBits : ∀ ver : Version,
    Mode.alphanumeric.numCharCountBits ver = Coding.alphanumeric.countBits ver.number := by decide

theorem byte_countBits : ∀ ver : Version,
    Mode.byte.numCharCountBits ver = Coding.byte.countBits ver.number := by decide

theorem makeNumeric_holds {text : List UInt8} (h : isNumeric text = true) :
    ∃ seg vs, makeNumeric text = .ok seg ∧ Holds .numeric text seg vs := by
  have hdigit : ∀ c ∈ text, 0x30 ≤ c ∧ c ≤ 0x39 := by simpa [isNumeric] using h
  have hvalues : text.map Alphabet.numeric.value =
      (text.map fun c => c.toNat - 0x30).map some := by
    rw [List.map_map]
    refine List.map_congr_left fun c hc => ?_
    obtain ⟨hlow, hhigh⟩ := hdigit c hc
    exact if_neg (not_or.mpr ⟨UInt8.not_lt.mpr hlow, UInt8.not_lt.mpr hhigh⟩)
  obtain ⟨hpack, hsmall⟩ := pack_ok Alphabet.numeric_lawful hvalues
  refine ⟨_, _, hpack, rfl, numeric_countBits, by simp, rfl, by simp, hsmall, ?_⟩
  rw [List.map_map]
  refine (List.map_congr_left fun c hc => ?_).trans (List.map_id text)
  obtain ⟨hlow, -⟩ := hdigit c hc
  have hle : 0x30 ≤ c.toNat := UInt8.le_iff_toNat_le.mp hlow
  show (c.toNat - 0x30 + 0x30).toUInt8 = c
  rw [Nat.sub_add_cancel hle]
  exact UInt8.ofNat_toNat

theorem makeAlphanumeric_holds {text : List UInt8} (h : isAlphanumeric text = true) :
    ∃ seg vs, makeAlphanumeric text = .ok seg ∧ Holds .alphanumeric text seg vs := by
  have hmem : ∀ c ∈ text, c ∈ alphanumericCharset := by simpa [isAlphanumeric] using h
  have hvalues : text.map Alphabet.alphanumeric.value =
      (text.map fun c => alphanumericCharset.idxOf c).map some := by
    rw [List.map_map]
    exact List.map_congr_left fun c hc => if_pos (hmem c hc)
  obtain ⟨hpack, hsmall⟩ := pack_ok Alphabet.alphanumeric_lawful hvalues
  refine ⟨_, _, hpack, rfl, alphanumeric_countBits, by simp, rfl, by simp, hsmall, ?_⟩
  rw [List.map_map]
  refine (List.map_congr_left fun c hc => ?_).trans (List.map_id text)
  have hin := List.idxOf_lt_length_iff.mpr (hmem c hc)
  show alphanumericCharset.getD (alphanumericCharset.idxOf c) 0 = c
  rw [List.getD_eq_getElem _ _ hin, List.getElem_idxOf]

theorem packed_bytes (vs : List ℕ) : Coding.byte.packed vs = vs.flatMap (bitsOf 8) := by
  have hmod (n : ℕ) : n % Coding.byte.group = 0 := Nat.mod_one n
  have hfull : Coding.byte.fullBits vs = vs.flatMap (bitsOf 8) := by
    induction vs using List.reverseRecOn with
    | nil => rfl
    | append_singleton vs v ih =>
      have hnone : Coding.byte.remaining vs = [] := by
        refine List.length_eq_zero_iff.mp ?_
        rw [Grouping.length_remaining, hmod]
      rw [(Grouping.concat_full (g := Coding.byte.toGrouping) Nat.one_pos
        (by rw [hmod]; rfl) v).1, ih, List.flatMap_append, List.flatMap_singleton, hnone,
        number_nil, Nat.zero_mul, Nat.zero_add]
      rfl
  rw [Grouping.packed, if_pos (hmod _), List.append_nil, hfull]

theorem makeBytes_holds {text : List UInt8} (h : text.length ≤ intMax) :
    ∃ seg vs, makeBytes text = .ok seg ∧ Holds .byte text seg vs := by
  have hloop (bb : List Bool) : text.foldlM (fun bb b => appendBits bb b.toNat 8) bb =
      .ok (bb ++ text.flatMap fun b => bitsOf 8 b.toNat) := by
    clear h
    induction text generalizing bb with
    | nil => simp [pure, Except.pure]
    | cons b text ih =>
      rw [List.foldlM_cons, appendBits_ok (by decide) b.toNat_lt]
      simp only [bind, Except.bind, ih, List.append_assoc, List.flatMap_cons]
  refine ⟨⟨.byte, text.length, Coding.byte.packed (text.map UInt8.toNat)⟩, text.map UInt8.toNat,
    ?_, rfl, byte_countBits, rfl, rfl, by simp, ?_, ?_⟩
  · rw [makeBytes, if_neg (Nat.not_lt.mpr h), hloop, packed_bytes, List.flatMap_map]
    rfl
  · intro v hv
    obtain ⟨b, -, rfl⟩ := List.mem_map.mp hv
    exact b.toNat_lt
  · rw [List.map_map]
    exact (List.map_congr_left fun b _ => UInt8.ofNat_toNat).trans (List.map_id text)

theorem makeSegments_holds {memory text : List UInt8} (htext : cString memory = text)
    (hne : text ≠ []) :
    (∃ seg vs, makeSegments memory = .ok [seg] ∧ Holds (coding text) text seg vs) ∨
      (makeSegments memory = .error (.lengthError "Data too long") ∧ intMax < text.length) := by
  subst htext
  rw [makeSegments, coding]
  simp only [if_neg hne]
  split_ifs with hnumeric halphanumeric
  · obtain ⟨seg, vs, hseg, hholds⟩ := makeNumeric_holds hnumeric
    exact .inl ⟨seg, vs, by rw [hseg]; rfl, hholds⟩
  · obtain ⟨seg, vs, hseg, hholds⟩ := makeAlphanumeric_holds halphanumeric
    exact .inl ⟨seg, vs, by rw [hseg]; rfl, hholds⟩
  · by_cases hlength : intMax < (cString memory).length
    · exact .inr ⟨by rw [makeBytes, if_pos hlength]; rfl, hlength⟩
    · obtain ⟨seg, vs, hseg, hholds⟩ := makeBytes_holds (Nat.le_of_not_lt hlength)
      exact .inl ⟨seg, vs, by rw [hseg]; rfl, hholds⟩

end Characters
section Reading
variable {ver : Version} {c : Coding} {text : List UInt8} {seg : QrSegment} {vs : List ℕ}
  {segs : List QrSegment}

structure Coding.Lawful (c : Coding) : Prop where
  grouping : c.toGrouping.Lawful
  announced : Coding.ofModeBits c.modeBits = some c
  modeBits_pos : 0 < c.modeBits
  modeBits_lt : c.modeBits < 2 ^ 4
  countBits_le : ∀ ver : Version, c.countBits ver.number ≤ 16

theorem coding_lawful (text : List UInt8) : (coding text).Lawful := by
  unfold coding
  split_ifs
  · exact ⟨Alphabet.numeric_lawful.grouping, rfl, by decide, by decide, by decide⟩
  · exact ⟨Alphabet.alphanumeric_lawful.grouping, rfl, by decide, by decide, by decide⟩
  · exact ⟨⟨by decide, by decide, by decide⟩, rfl, by decide, by decide, by decide⟩

def Stops (bits : List Bool) : Prop := bits.length < 4 ∨ ofBits (bits.take 4) = 0

theorem readSegments_stops {bits : List Bool} (h : Stops bits) (fuel : ℕ) :
    readSegments ver (fuel + 1) bits = some [] := if_pos h

def segmentBits (ver : Version) (seg : QrSegment) : List Bool :=
  bitsOf 4 seg.mode.modeBits ++ (bitsOf (seg.mode.numCharCountBits ver) seg.numChars ++ seg.data)

theorem readSegments_segment (hc : c.Lawful) (h : Holds c text seg vs)
    (hfits : text.length < 2 ^ c.countBits ver.number) (rest : List Bool) (fuel : ℕ) :
    readSegments ver (fuel + 1) (segmentBits ver seg ++ rest) =
      (readSegments ver fuel rest).map (text ++ ·) := by
  obtain ⟨hmode, hcountBits, hnumChars, hdata, hlength, hsmall, hchars⟩ := h
  have hbits : segmentBits ver seg ++ rest = bitsOf 4 c.modeBits ++
      (bitsOf (c.countBits ver.number) vs.length ++ (c.packed vs ++ rest)) := by
    rw [segmentBits, hmode, hcountBits, hnumChars, hdata, hlength, List.append_assoc,
      List.append_assoc]
  have hfirst : ofBits (bitsOf 4 c.modeBits) = c.modeBits := ofBits_bitsOf hc.modeBits_lt
  have hcount : ofBits (bitsOf (c.countBits ver.number) vs.length) = vs.length :=
    ofBits_bitsOf (hlength ▸ hfits)
  have hgo : ¬ ((segmentBits ver seg ++ rest).length < 4 ∨
      ofBits ((segmentBits ver seg ++ rest).take 4) = 0) := by
    rw [hbits, List.take_left' (length_bitsOf ..), hfirst, List.length_append, length_bitsOf]
    have hpos := hc.modeBits_pos
    omega
  have hroom : ¬ (c.packed vs ++ rest).length < c.size vs.length := by
    rw [List.length_append, Grouping.length_packed]
    omega
  rw [readSegments, if_neg hgo, hbits, List.take_left' (length_bitsOf ..), hfirst, hc.announced]
  dsimp only
  rw [List.drop_left' (length_bitsOf ..), List.take_left' (length_bitsOf ..), hcount,
    List.drop_left' (length_bitsOf ..), if_neg hroom, Grouping.unpacked_packed hc.grouping hsmall,
    hchars, List.drop_left' (Grouping.length_packed ..)]

def neededBits (ver : Version) (text : List UInt8) : ℕ :=
  if text = [] then 0
  else 4 + (coding text).countBits ver.number + (coding text).size text.length

def Fits (ver : Version) (ecl : Ecc) (text : List UInt8) : Prop :=
  -- a version has room for a text at a level
  text.length < 2 ^ (coding text).countBits ver.number ∧
    neededBits ver text ≤ getNumDataCodewords ver ecl * 8

def Encodes (text : List UInt8) (segs : List QrSegment) : Prop :=
  (text = [] ∧ segs = []) ∨
    (text ≠ [] ∧ ∃ seg vs, segs = [seg] ∧ Holds (coding text) text seg vs)

theorem makeSegments_encodes (memory : List UInt8) :
    (∃ segs, makeSegments memory = .ok segs ∧ Encodes (cString memory) segs) ∨
      (makeSegments memory = .error (.lengthError "Data too long") ∧
        intMax < (cString memory).length) := by
  by_cases hempty : cString memory = []
  · exact .inl ⟨[], if_pos hempty, .inl ⟨hempty, rfl⟩⟩
  · rcases makeSegments_holds rfl hempty with ⟨seg, vs, hseg, hholds⟩ | hlong
    · exact .inl ⟨[seg], hseg, .inr ⟨hempty, seg, vs, rfl, hholds⟩⟩
    · exact .inr hlong

theorem Encodes.total (h : Encodes text segs) (ver : Version) :
    getTotalBits ver 0 segs =
      if text.length < 2 ^ (coding text).countBits ver.number ∧
        neededBits ver text ≤ intMax then some (neededBits ver text) else none := by
  rcases h with ⟨rfl, rfl⟩ | ⟨hne, seg, vs, rfl, hholds⟩
  · simp [getTotalBits, neededBits]
  · have hdata : seg.data.length = (coding text).size text.length := by
      rw [hholds.data, Grouping.length_packed, hholds.length]
    simp only [getTotalBits, neededBits, if_neg hne, hholds.countBits, hholds.numChars, hdata,
      Nat.sub_zero, Nat.zero_add]
    split_ifs <;> first | rfl | omega

theorem Encodes.read (h : Encodes text segs)
    (hfits : text.length < 2 ^ (coding text).countBits ver.number) :
    ∃ bb, concatenate ver segs = .ok bb ∧ bb.length = neededBits ver text ∧
      ∀ rest, Stops rest → ∀ fuel, readSegments ver (fuel + 2) (bb ++ rest) = some text := by
  rcases h with ⟨rfl, rfl⟩ | ⟨hne, seg, vs, rfl, hholds⟩
  · exact ⟨[], rfl, rfl, fun rest hrest fuel => readSegments_stops hrest (fuel + 1)⟩
  · have hc := coding_lawful text
    refine ⟨segmentBits ver seg, ?_, ?_, fun rest hrest fuel => ?_⟩
    · have hccbits := hc.countBits_le ver
      rw [← hholds.countBits] at hfits hccbits
      have hmode := hc.modeBits_lt
      rw [← hholds.modeBits] at hmode
      rw [concatenate, List.foldlM_cons, appendBits_ok (by decide) hmode]
      simp only [bind, Except.bind]
      rw [appendBits_ok (by omega) (hholds.numChars ▸ hfits)]
      simp [segmentBits, pure, Except.pure]
    · rw [segmentBits, List.length_append, List.length_append, length_bitsOf, length_bitsOf,
        hholds.data, Grouping.length_packed, hholds.length, hholds.countBits, neededBits,
        if_neg hne, Nat.add_assoc]
    · rw [readSegments_segment hc hholds hfits, readSegments_stops hrest]
      simp

end Reading
section Padding

theorem padBytes_eq (dataCapacityBits : ℕ) (bb : List Bool) (padByte : UInt8)
    (hle : bb.length ≤ dataCapacityBits) (hbyte : bb.length % 8 = dataCapacityBits % 8) :
    ∃ more, padBytes dataCapacityBits bb padByte = bb ++ more ∧
      (bb ++ more).length = dataCapacityBits := by
  induction bb, padByte using padBytes.induct dataCapacityBits with
  | case1 bb padByte hlt ih =>
    have hlength : (bb ++ bitsOf 8 padByte.toNat).length = bb.length + 8 := by
      rw [List.length_append, length_bitsOf]
    obtain ⟨more, hmore, hall⟩ := ih (by omega) (by omega)
    rw [List.append_assoc] at hmore hall
    refine ⟨_, ?_, hall⟩
    rw [padBytes, if_pos hlt, hmore]
  | case2 bb padByte hge =>
    refine ⟨[], ?_, ?_⟩
    · rw [padBytes, if_neg hge, List.append_nil]
    · rw [List.append_nil]
      omega

theorem bitsOf_packed (b : ℕ → Bool) :
    bitsOf 8 ((List.range 8).foldl
      (fun byte j => byte ||| (if b j then 1 else 0) <<< (7 - j).toUInt8) (0 : UInt8)).toNat =
      (List.range 8).map b := by
  have hall : ∀ b0 b1 b2 b3 b4 b5 b6 b7 : Bool,
      bitsOf 8 ((List.range 8).foldl (fun byte j => byte |||
        (if [b0, b1, b2, b3, b4, b5, b6, b7].getD j false then 1 else 0) <<< (7 - j).toUInt8)
        (0 : UInt8)).toNat = [b0, b1, b2, b3, b4, b5, b6, b7] := by decide
  have hrange : List.range 8 = [0, 1, 2, 3, 4, 5, 6, 7] := by decide
  have height := hall (b 0) (b 1) (b 2) (b 3) (b 4) (b 5) (b 6) (b 7)
  simp only [hrange, List.foldl_cons, List.foldl_nil, List.map_cons, List.map_nil] at height ⊢
  exact height

theorem flatMap_packBits {bb : List Bool} (hbyte : bb.length % 8 = 0) :
    (packBits bb).length = bb.length / 8 ∧
      (packBits bb).flatMap (fun byte => bitsOf 8 byte.toNat) = bb := by
  refine ⟨by rw [packBits, List.length_map, List.length_range], ?_⟩
  have hslice (k : ℕ) (hk : k < bb.length / 8) :
      (List.range 8).map (fun j => bb.getD (8 * k + j) false) = (bb.drop (k * 8)).take 8 := by
    have hlength : ((bb.drop (k * 8)).take 8).length = 8 := by
      rw [List.length_take, List.length_drop]
      omega
    have hread := Placement.map_getD_range ((bb.drop (k * 8)).take 8) false
    rw [hlength] at hread
    rw [← hread]
    refine List.map_congr_left fun j hj => ?_
    have hj := List.mem_range.mp hj
    rw [List.getD_eq_getElem?_getD, List.getD_eq_getElem?_getD, List.getElem?_take_of_lt hj,
      List.getElem?_drop, Nat.mul_comm]
  have hbytes := flatMap_slices bb 8 (bb.length / 8)
  rw [List.take_of_length_le (by omega)] at hbytes
  rw [packBits, List.flatMap_map]
  conv_rhs => rw [← hbytes]
  refine List.flatMap_congr fun k hk => ?_
  rw [← hslice k (List.mem_range.mp hk), bitsOf_packed]

theorem ofBits_zeros (n : ℕ) : ofBits (bitsOf n 0) = 0 :=
  ofBits_bitsOf (Nat.two_pow_pos n)

theorem pad_ok {dataCapacityBits : ℕ} {bb : List Bool} (hle : bb.length ≤ dataCapacityBits)
    (hbyte : dataCapacityBits % 8 = 0) :
    ∃ codewords rest, pad dataCapacityBits bb = .ok codewords ∧
      codewords.length = dataCapacityBits / 8 ∧ Stops rest ∧
      codewords.flatMap (fun byte => bitsOf 8 byte.toNat) = bb ++ rest := by
  have hzero (n : ℕ) (bb : List Bool) (hn : n ≤ 31) : appendBits bb 0 n = .ok (bb ++ bitsOf n 0) :=
    appendBits_ok hn (Nat.two_pow_pos n) bb
  obtain ⟨terminated, hterminated⟩ :
      ∃ l, bb ++ bitsOf (min 4 (dataCapacityBits - bb.length)) 0 = l := ⟨_, rfl⟩
  have hlength : terminated.length = bb.length + min 4 (dataCapacityBits - bb.length) := by
    rw [← hterminated, List.length_append, length_bitsOf]
  obtain ⟨aligned, haligned⟩ : ∃ l, terminated ++ bitsOf ((8 - terminated.length % 8) % 8) 0 = l :=
    ⟨_, rfl⟩
  have hbytes : aligned.length = terminated.length + (8 - terminated.length % 8) % 8 := by
    rw [← haligned, List.length_append, length_bitsOf]
  obtain ⟨more, hmore, hall⟩ := padBytes_eq dataCapacityBits aligned 0xec (by omega) (by omega)
  have hwhole : (aligned ++ more).length % 8 = 0 := by omega
  obtain ⟨hcount, hbits⟩ := flatMap_packBits hwhole
  refine ⟨packBits (aligned ++ more), bitsOf (min 4 (dataCapacityBits - bb.length)) 0 ++
    (bitsOf ((8 - terminated.length % 8) % 8) 0 ++ more), ?_, ?_, ?_, ?_⟩
  · rw [pad, hzero _ _ (by omega), hterminated]
    simp only [bind, Except.bind]
    rw [hzero _ _ (by omega), haligned]
    exact congrArg (fun bb => Except.ok (packBits bb)) hmore
  · rw [hcount, hall]
  · by_cases hroom : 4 ≤ dataCapacityBits - bb.length
    · right
      rw [Nat.min_eq_left hroom, List.take_left' (length_bitsOf ..), ofBits_zeros]
    · left
      have hsame := congrArg List.length haligned
      rw [List.length_append, List.length_append, length_bitsOf, length_bitsOf]
      rw [List.length_append] at hall
      omega
  · rw [hbits, ← haligned, ← hterminated]
    simp only [List.append_assoc]

end Padding

section Versions
variable {segs : List QrSegment} {ecl : Ecc}

def HasRoom (segs : List QrSegment) (ecl : Ecc) (ver : Version) (dataUsedBits : ℕ) : Prop :=
  getTotalBits ver 0 segs = some dataUsedBits ∧ dataUsedBits ≤ getNumDataCodewords ver ecl * 8

theorem findVersion_spec {vers : List Version} (hne : vers ≠ []) :
    (∃ before ver after dataUsedBits, vers = before ++ ver :: after ∧
      findVersion segs ecl vers = .ok (ver, dataUsedBits) ∧ HasRoom segs ecl ver dataUsedBits ∧
      ∀ other ∈ before, ∀ n, ¬ HasRoom segs ecl other n) ∨
    (∃ what, findVersion segs ecl vers = .error (.dataTooLong what) ∧
      ∀ other ∈ vers, ∀ n, ¬ HasRoom segs ecl other n) := by
  induction vers with
  | nil => exact absurd rfl hne
  | cons ver rest ih =>
    by_cases hroom : ∃ n, HasRoom segs ecl ver n
    · obtain ⟨n, htotal, hle⟩ := hroom
      refine .inl ⟨[], ver, rest, n, rfl, ?_, ⟨htotal, hle⟩, fun _ h => absurd h List.not_mem_nil⟩
      rw [findVersion]
      simp only [htotal, if_pos hle]
    · have hnone : ∀ n, ¬ HasRoom segs ecl ver n := not_exists.mp hroom
      rcases hempty : rest with _ | ⟨next, later⟩
      · right
        rw [findVersion]
        cases htotal : getTotalBits ver 0 segs with
        | none => exact ⟨_, rfl, List.forall_mem_singleton.mpr hnone⟩
        | some n =>
          have hmore : ¬ n ≤ getNumDataCodewords ver ecl * 8 := fun hle => hnone n ⟨htotal, hle⟩
          exact ⟨_, (if_neg hmore).trans (if_pos rfl), List.forall_mem_singleton.mpr hnone⟩
      · have hstep : findVersion segs ecl (ver :: rest) = findVersion segs ecl rest := by
          rw [findVersion]
          cases htotal : getTotalBits ver 0 segs with
          | none => simp [hempty]
          | some n =>
            have hmore : ¬ n ≤ getNumDataCodewords ver ecl * 8 := fun hle => hnone n ⟨htotal, hle⟩
            simp [hmore, hempty]
        rw [← hempty]
        rcases ih (by simp [hempty]) with ⟨before, v, after, n, hvers, hfind, hv, hbefore⟩ |
          ⟨what, hfind, hall⟩
        · refine .inl ⟨ver :: before, v, after, n, by rw [hvers]; rfl, hstep.trans hfind, hv, ?_⟩
          exact List.forall_mem_cons.mpr ⟨hnone, hbefore⟩
        · exact .inr ⟨what, hstep.trans hfind, List.forall_mem_cons.mpr ⟨hnone, hall⟩⟩

theorem Encodes.hasRoom {text : List UInt8} (h : Encodes text segs) (ver : Version) (n : ℕ) :
    HasRoom segs ecl ver n ↔ n = neededBits ver text ∧ Fits ver ecl text := by
  have hcapacity : ∀ ver ecl, getNumDataCodewords ver ecl * 8 ≤ intMax := by decide
  have hle := hcapacity ver ecl
  rw [HasRoom, h.total ver, Fits]
  split_ifs with hfits
  · rw [Option.some_inj]
    constructor
    · rintro ⟨rfl, hroom⟩
      exact ⟨rfl, hfits.1, hroom⟩
    · rintro ⟨rfl, -, hroom⟩
      exact ⟨rfl, hroom⟩
  · constructor
    · rintro ⟨hnone, -⟩
      cases hnone
    · rintro ⟨-, hlength, hroom⟩
      exact absurd ⟨hlength, hroom.trans hle⟩ hfits

def Ecc.rank : Ecc → ℕ
  | low => 0
  | medium => 1
  | quartile => 2
  | high => 3

theorem boost_spec {ver : Version} {n : ℕ} (h : n ≤ getNumDataCodewords ver ecl * 8) :
    n ≤ getNumDataCodewords ver (boost ver n true ecl) * 8 ∧
      ∀ other, n ≤ getNumDataCodewords ver other * 8 →
        other.rank ≤ (boost ver n true ecl).rank := by
  simp only [boost, List.foldl_cons, List.foldl_nil, true_and]
  split_ifs with hhigh hquartile hmedium
  · exact ⟨hhigh, fun other _ => by cases other <;> decide⟩
  · refine ⟨hquartile, fun other hother => ?_⟩
    cases other with
    | high => exact absurd hother hhigh
    | low | medium | quartile => decide
  · refine ⟨hmedium, fun other hother => ?_⟩
    cases other with
    | high => exact absurd hother hhigh
    | quartile => exact absurd hother hquartile
    | low | medium => decide
  · refine ⟨h, fun other hother => ?_⟩
    cases other with
    | high => exact absurd hother hhigh
    | quartile => exact absurd hother hquartile
    | medium => exact absurd hother hmedium
    | low => exact Nat.zero_le _

theorem getNumDataCodewords_pos : ∀ ver ecl, 1 ≤ getNumDataCodewords ver ecl := by decide

theorem length_flatMap_bytes (codewords : List UInt8) :
    (codewords.flatMap fun byte => bitsOf 8 byte.toNat).length = codewords.length * 8 := by
  rw [List.length_flatMap]
  simp [length_bitsOf]

def textData (text : List UInt8) (ecl : Ecc) : Except Error (Version × Ecc × List UInt8) := do
  -- `encodeText`, up to the drawing of the symbol
  encodeData (← makeSegments text) ecl 1 40 (-1) true

theorem textData_reads_back (memory : List UInt8) (ecl : Ecc) :
    (∃ ver ecl' codewords, textData memory ecl = .ok (ver, ecl', codewords) ∧
        readData ver codewords = some (cString memory) ∧
        codewords.length = getNumDataCodewords ver ecl' ∧
        Fits ver ecl (cString memory) ∧ (∀ other < ver, ¬ Fits other ecl (cString memory)) ∧
        Fits ver ecl' (cString memory) ∧
        ∀ other, Fits ver other (cString memory) → other.rank ≤ ecl'.rank) ∨
      ((∃ e, textData memory ecl = .error e) ∧ ∀ ver, ¬ Fits ver ecl (cString memory)) := by
  rcases makeSegments_encodes memory with ⟨segs, hsegs, hencodes⟩ | ⟨herror, hlong⟩
  · have hall : ((List.finRange 40).filter fun ver : Version =>
        decide ((1 : ℤ) ≤ ver.number ∧ (ver.number : ℤ) ≤ 40)) = List.finRange 40 := by
      decide
    have hdata : textData memory ecl =
        (findVersion segs ecl (List.finRange 40)).bind fun found =>
          (concatenate found.1 segs).bind fun bb =>
            let level := boost found.1 found.2 true ecl
            (pad (getNumDataCodewords found.1 level * 8) bb).bind fun codewords =>
              .ok (found.1, level, codewords) := by
      rw [textData, hsegs, ← hall]
      rfl
    have hsome : List.finRange 40 ≠ [] := by decide
    rcases findVersion_spec hsome with
      ⟨before, ver, after, n, hvers, hfind, hroom, hbefore⟩ | ⟨what, hfind, hnone⟩
    · left
      obtain ⟨rfl, hfits⟩ := (hencodes.hasRoom ver n).mp hroom
      obtain ⟨hlevel, hhighest⟩ := boost_spec hroom.2
      obtain ⟨ecl', hecl'⟩ :
          ∃ level, boost ver (neededBits ver (cString memory)) true ecl = level := ⟨_, rfl⟩
      rw [hecl'] at hlevel hhighest
      obtain ⟨bb, hbb, hlength, hread⟩ := hencodes.read hfits.1
      obtain ⟨codewords, rest, hpad, hcount, hstops, hbits⟩ :=
        pad_ok (hlength.trans_le hlevel) (Nat.mul_mod_left ..)
      rw [Nat.mul_div_cancel _ (by decide)] at hcount
      have hbefore' : ∀ other < ver, ¬ Fits other ecl (cString memory) := by
        intro other hlt hother
        refine hbefore other ?_ _ ((hencodes.hasRoom other _).mpr ⟨rfl, hother⟩)
        have hsorted : (before ++ ver :: after).Pairwise (· < ·) :=
          hvers ▸ List.pairwise_lt_finRange 40
        have hmem : other ∈ before ++ ver :: after := hvers ▸ List.mem_finRange other
        rcases List.mem_append.mp hmem with hmem | hmem
        · exact hmem
        · rcases List.mem_cons.mp hmem with rfl | hmem
          · exact absurd hlt (lt_irrefl _)
          · have hafter := (List.pairwise_append.mp hsorted).2.1
            exact absurd hlt (lt_asymm (List.rel_of_pairwise_cons hafter hmem))
      have hpos := getNumDataCodewords_pos ver ecl'
      have hall := congrArg List.length hbits
      rw [length_flatMap_bytes, hcount] at hall
      refine ⟨ver, ecl', codewords, ?_, ?_, hcount, hfits, hbefore', ⟨hfits.1, hlevel⟩,
        fun other hother => hhighest other hother.2⟩
      · rw [hdata, hfind]
        simp only [Except.bind, hbb, hecl', hpad]
      · rw [readData, hbits, ← hall]
        obtain ⟨fuel, hfuel⟩ := Nat.exists_eq_add_of_le hpos
        rw [hfuel, show (1 + fuel) * 8 + 1 = 7 + 8 * fuel + 2 by omega]
        exact hread rest hstops _
    · right
      refine ⟨⟨_, by rw [hdata, hfind]; rfl⟩, fun ver hfits => ?_⟩
      exact hnone ver (List.mem_finRange ver) _ ((hencodes.hasRoom ver _).mpr ⟨rfl, hfits⟩)
  · right
    refine ⟨⟨_, by rw [textData, herror]; rfl⟩, fun ver hfits => ?_⟩
    have hccbits := (coding_lawful (cString memory)).countBits_le ver
    have hpow : 2 ^ (coding (cString memory)).countBits ver.number ≤ 2 ^ 16 :=
      Nat.pow_le_pow_right (by decide) hccbits
    have hlt := hfits.1
    unfold intMax at hlong
    omega

end Versions
end Ppm.QrCode

import Mathlib.Data.List.Basic
import PhonePostMix.Library.ByteOrder

/-! RIFF files as a reader takes them: a form of tagged chunks with little-endian sizes, and the
WAVE form with its format and its samples. -/

namespace Riff
open ByteOrder

structure Chunk where
  tag : List UInt8
  data : List UInt8
  deriving DecidableEq, Repr

def readChunk (bytes : List UInt8) : Option (Chunk × List UInt8) :=
  -- the chunk at the front. One of odd size is followed by a byte of padding, which readers do
  -- not miss at the end of a file
  if bytes.length < 8 then none
  else
    let size := littleEndian ((bytes.drop 4).take 4)
    let body := bytes.drop 8
    if body.length < size then none
    else some (⟨bytes.take 4, body.take size⟩, body.drop (size + size % 2))

theorem readChunk_shorter {bytes rest : List UInt8} {c : Chunk}
    (h : readChunk bytes = some (c, rest)) : rest.length < bytes.length := by
  unfold readChunk at h
  dsimp only at h
  split_ifs at h
  obtain ⟨-, rfl⟩ := Prod.mk.inj (Option.some.inj h)
  rw [List.length_drop, List.length_drop]
  omega

def readChunks (bytes : List UInt8) : Option (List Chunk) :=
  if bytes = [] then some []
  else
    match _h : readChunk bytes with
    | none => none
    | some (c, rest) => (readChunks rest).map (c :: ·)
termination_by bytes.length
decreasing_by exact readChunk_shorter ‹_›

def riffTag : List UInt8 := [0x52, 0x49, 0x46, 0x46]
def waveTag : List UInt8 := [0x57, 0x41, 0x56, 0x45]
def formatTag : List UInt8 := [0x66, 0x6d, 0x74, 0x20]
def dataTag : List UInt8 := [0x64, 0x61, 0x74, 0x61]

def readForm (bytes : List UInt8) : Option (List UInt8 × List Chunk) :=
  -- the kind of form and its chunks. The size in front covers all that follows it
  if bytes.take 4 = riffTag ∧ 12 ≤ bytes.length ∧
      littleEndian ((bytes.drop 4).take 4) + 8 = bytes.length then
    (readChunks (bytes.drop 12)).map fun chunks => ((bytes.drop 8).take 4, chunks)
  else none

structure Wave where
  encoding : ℕ
  channels : ℕ
  sampleRate : ℕ
  byteRate : ℕ
  blockAlign : ℕ
  bitsPerSample : ℕ
  data : List UInt8
  deriving DecidableEq, Repr

structure Wave.Consistent (w : Wave) : Prop where
  blockAlign : w.blockAlign * 8 = w.channels * w.bitsPerSample
  byteRate : w.byteRate = w.sampleRate * w.blockAlign
  whole : w.blockAlign ∣ w.data.length

def chunkOf (tag : List UInt8) (chunks : List Chunk) : Option (List UInt8) :=
  (chunks.find? fun c => c.tag = tag).map (·.data)

def field (format : List UInt8) (offset width : ℕ) : ℕ :=
  littleEndian ((format.drop offset).take width)

def readWave (bytes : List UInt8) : Option Wave := do
  let (kind, chunks) ← readForm bytes
  if kind ≠ waveTag then failure
  let format ← chunkOf formatTag chunks
  if format.length < 16 then failure
  let data ← chunkOf dataTag chunks
  return {
    encoding := field format 0 2
    channels := field format 2 2
    sampleRate := field format 4 4
    byteRate := field format 8 4
    blockAlign := field format 12 2
    bitsPerSample := field format 14 2
    data := data }

section Layout
variable {tag data rest : List UInt8}

def chunkBytes (tag data : List UInt8) : List UInt8 :=
  tag ++ littleEndianBytes 4 data.length ++ data

theorem readChunk_chunkBytes (htag : tag.length = 4) (hdata : data.length < 256 ^ 4)
    (rest : List UInt8) : readChunk (chunkBytes tag data ++ rest) =
      some (⟨tag, data⟩, rest.drop (data.length % 2)) := by
  have hsplit : chunkBytes tag data ++ rest =
      tag ++ (littleEndianBytes 4 data.length ++ (data ++ rest)) := by
    simp only [chunkBytes, List.append_assoc]
  have hdrop4 : (chunkBytes tag data ++ rest).drop 4 =
      littleEndianBytes 4 data.length ++ (data ++ rest) := by
    rw [hsplit, List.drop_left' htag]
  have hsize : littleEndian (((chunkBytes tag data ++ rest).drop 4).take 4) = data.length := by
    rw [hdrop4, List.take_left' (length_littleEndianBytes 4 _), littleEndian_littleEndianBytes,
      Nat.mod_eq_of_lt hdata]
  have hdrop8 : (chunkBytes tag data ++ rest).drop 8 = data ++ rest := by
    have hfirst := List.drop_drop (i := 4) (j := 4) (l := chunkBytes tag data ++ rest)
    rw [← hfirst, hdrop4, List.drop_left' (length_littleEndianBytes 4 _)]
  have hlong : ¬ (chunkBytes tag data ++ rest).length < 8 := by
    simp only [chunkBytes, List.length_append, length_littleEndianBytes, htag]
    omega
  unfold readChunk
  simp only [hsize, hdrop8]
  rw [if_neg hlong, if_neg (by rw [List.length_append]; omega), List.take_left, hsplit,
    List.take_left' htag, ← List.drop_drop, List.drop_left]

theorem readChunks_cons (htag : tag.length = 4) (hdata : data.length < 256 ^ 4)
    (rest : List UInt8) : readChunks (chunkBytes tag data ++ rest) =
      (readChunks (rest.drop (data.length % 2))).map (⟨tag, data⟩ :: ·) := by
  have hread := readChunk_chunkBytes htag hdata rest
  have hne : chunkBytes tag data ++ rest ≠ [] := by
    intro hnil
    rw [hnil] at hread
    cases hread
  rw [readChunks, if_neg hne]
  split
  · rename_i hnone
    rw [hread] at hnone
    cases hnone
  · rename_i c rest' hsome
    rw [hread] at hsome
    obtain ⟨rfl, rfl⟩ := Prod.mk.inj (Option.some.inj hsome)
    rfl

end Layout

def formatBytes (w : Wave) : List UInt8 :=
  littleEndianBytes 2 w.encoding ++ littleEndianBytes 2 w.channels ++
    littleEndianBytes 4 w.sampleRate ++ littleEndianBytes 4 w.byteRate ++
    littleEndianBytes 2 w.blockAlign ++ littleEndianBytes 2 w.bitsPerSample

def waveBytes (w : Wave) : List UInt8 :=
  riffTag ++ littleEndianBytes 4 (36 + w.data.length) ++ waveTag ++
    chunkBytes formatTag (formatBytes w) ++ chunkBytes dataTag w.data

structure Wave.Fits (w : Wave) : Prop where
  encoding : w.encoding < 256 ^ 2
  channels : w.channels < 256 ^ 2
  sampleRate : w.sampleRate < 256 ^ 4
  byteRate : w.byteRate < 256 ^ 4
  blockAlign : w.blockAlign < 256 ^ 2
  bitsPerSample : w.bitsPerSample < 256 ^ 2
  data : 36 + w.data.length < 256 ^ 4

theorem readChunks_wave {w : Wave} (h : w.Fits) :
    readChunks (chunkBytes formatTag (formatBytes w) ++ chunkBytes dataTag w.data) =
      some [⟨formatTag, formatBytes w⟩, ⟨dataTag, w.data⟩] := by
  have hformat : (formatBytes w).length = 16 := rfl
  have hdata : w.data.length < 256 ^ 4 := lt_of_le_of_lt (Nat.le_add_left _ 36) h.data
  have hlast : readChunks (chunkBytes dataTag w.data ++ []) = _ := readChunks_cons rfl hdata []
  rw [List.append_nil, List.drop_nil] at hlast
  have hnil : readChunks [] = some [] := by rw [readChunks, if_pos rfl]
  rw [readChunks_cons rfl (hformat ▸ (by decide)), hformat]
  show (readChunks (chunkBytes dataTag w.data)).map _ = _
  rw [hlast, hnil]
  rfl

theorem field_of_slice {format : List UInt8} {offset width n : ℕ}
    (h : (format.drop offset).take width = littleEndianBytes width n) (hn : n < 256 ^ width) :
    field format offset width = n := by
  rw [field, h, littleEndian_littleEndianBytes, Nat.mod_eq_of_lt hn]

theorem readWave_waveBytes {w : Wave} (h : w.Fits) : readWave (waveBytes w) = some w := by
  have hlength : (waveBytes w).length = 44 + w.data.length := by
    simp only [waveBytes, chunkBytes, List.length_append, length_littleEndianBytes]
    simp [riffTag, waveTag, formatTag, dataTag, formatBytes]
    omega
  have hslice : ((waveBytes w).drop 4).take 4 = littleEndianBytes 4 (36 + w.data.length) := rfl
  have hsize : littleEndian (((waveBytes w).drop 4).take 4) = 36 + w.data.length := by
    rw [hslice, littleEndian_littleEndianBytes, Nat.mod_eq_of_lt h.data]
  have hkind : ((waveBytes w).drop 8).take 4 = waveTag := rfl
  have hchunks : (waveBytes w).drop 12 =
      chunkBytes formatTag (formatBytes w) ++ chunkBytes dataTag w.data := rfl
  have hform : readForm (waveBytes w) =
      some (waveTag, [⟨formatTag, formatBytes w⟩, ⟨dataTag, w.data⟩]) := by
    unfold readForm
    rw [hsize, if_pos ⟨rfl, by omega, by omega⟩, hkind, hchunks, readChunks_wave h]
    rfl
  have hformat : chunkOf formatTag [⟨formatTag, formatBytes w⟩, ⟨dataTag, w.data⟩] =
      some (formatBytes w) := rfl
  have hdata : chunkOf dataTag [⟨formatTag, formatBytes w⟩, ⟨dataTag, w.data⟩] = some w.data := rfl
  have hlong : ¬ (formatBytes w).length < 16 := Nat.not_lt.mpr (Nat.le_refl 16)
  unfold readWave
  simp only [hform, bind, Option.bind, ne_eq, not_true_eq_false, if_false, hformat, hdata, hlong]
  rw [field_of_slice rfl h.encoding, field_of_slice rfl h.channels, field_of_slice rfl h.sampleRate,
    field_of_slice rfl h.byteRate, field_of_slice rfl h.blockAlign,
    field_of_slice rfl h.bitsPerSample]
  rfl

end Riff

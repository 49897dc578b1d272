import PhonePostMix.Library.CircularMemory

/-! The single-producer single-consumer ring buffer between the audio thread and the
streaming thread. -/

namespace Ppm.Engine
open CircularMemory

/-- `juce::AbstractFifo` as documented: one slot always stays free, and a block of slots
is handed out as at most two contiguous regions. -/
structure AbstractFifo where
  totalSize : ℕ
  start : ℕ
  numReady : ℕ
  start_lt : start < totalSize
  numReady_lt : numReady < totalSize

namespace AbstractFifo

def setTotalSize (newSize : ℕ) (h : 0 < newSize) : AbstractFifo := ⟨newSize, 0, 0, h, h⟩

def getFreeSpace (f : AbstractFifo) : ℕ := f.totalSize - f.numReady - 1

structure Scope where
  startIndex1 : ℕ
  blockSize1 : ℕ
  startIndex2 : ℕ
  blockSize2 : ℕ

def scope (f : AbstractFifo) (first n : ℕ) : Scope where
  startIndex1 := first
  blockSize1 := min n (f.totalSize - first)
  startIndex2 := 0
  blockSize2 := n - min n (f.totalSize - first)

def writeScope (f : AbstractFifo) (n : ℕ) : Scope :=
  f.scope (slot f.totalSize f.start f.numReady) n

def readScope (f : AbstractFifo) (n : ℕ) : Scope := f.scope f.start n

def finishedWrite (f : AbstractFifo) (n : ℕ) (h : n ≤ f.getFreeSpace) : AbstractFifo where
  totalSize := f.totalSize
  start := f.start
  numReady := f.numReady + n
  start_lt := f.start_lt
  numReady_lt := by
    have hlt := f.numReady_lt
    unfold getFreeSpace at h
    omega

def finishedRead (f : AbstractFifo) (n : ℕ) : AbstractFifo where
  totalSize := f.totalSize
  start := slot f.totalSize f.start n
  numReady := f.numReady - n
  start_lt := slot_lt (Nat.zero_lt_of_lt f.start_lt) _ _
  numReady_lt := Nat.lt_of_le_of_lt (Nat.sub_le _ _) f.numReady_lt

theorem room (f : AbstractFifo) {n : ℕ} (h : n ≤ f.getFreeSpace) : f.numReady + n < f.totalSize :=
  (f.finishedWrite n h).numReady_lt

end AbstractFifo

structure AudioBuffer (α : Type) where
  numChannels : ℕ
  numSamples : ℕ
  sample : ℕ → ℕ → α
  numChannels_pos : 0 < numChannels

structure AudioRingBuffer (α : Type) where
  fifo : AbstractFifo := .setTotalSize 1 Nat.one_pos
  storage : List α := []
  channels : ℕ := 0
  overruns : BitVec 32 := 0
  length_storage : storage.length = channels * fifo.totalSize

namespace AudioRingBuffer
variable {α : Type}

def released (overruns : BitVec 32) : AudioRingBuffer α where
  overruns := overruns
  length_storage := rfl

def prepare (silence : α) (numChannels numFrames : ℕ) (h : 0 < numFrames) : AudioRingBuffer α where
  fifo := .setTotalSize numFrames h
  storage := List.replicate (numChannels * numFrames) silence
  channels := numChannels
  length_storage := List.length_replicate

def release (r : AudioRingBuffer α) : AudioRingBuffer α := released r.overruns

def getNumReady (r : AudioRingBuffer α) : ℕ := r.fifo.numReady

def copyIn (channels : ℕ) (source : AudioBuffer α) (startIndex blockSize sourceOffset : ℕ)
    (storage : List α) : List α :=
  ((List.range channels).flatMap fun ch => (List.range blockSize).map fun i => (ch, i)).foldl
    (fun dest (p : ℕ × ℕ) => dest.set (startIndex * channels + (p.2 * channels + p.1))
      (source.sample (min p.1 (source.numChannels - 1)) (sourceOffset + p.2)))
    storage

theorem length_copyIn (channels : ℕ) (source : AudioBuffer α) (startIndex blockSize offset : ℕ)
    (storage : List α) :
    (copyIn channels source startIndex blockSize offset storage).length = storage.length :=
  length_foldl_set _ _ _ _

def storeBlock (r : AudioRingBuffer α) (source : AudioBuffer α) : List α :=
  let scope := r.fifo.writeScope source.numSamples
  copyIn r.channels source scope.startIndex2 scope.blockSize2 scope.blockSize1
    (copyIn r.channels source scope.startIndex1 scope.blockSize1 0 r.storage)

def write (r : AudioRingBuffer α) (source : AudioBuffer α) : Bool × AudioRingBuffer α :=
  if source.numSamples = 0 then (true, r)
  else if h : r.channels = 0 ∨ r.fifo.getFreeSpace < source.numSamples then
    (false, { r with overruns := r.overruns + 1 })
  else
    (true,
      { fifo := r.fifo.finishedWrite source.numSamples (by omega)
        storage := r.storeBlock source
        channels := r.channels
        overruns := r.overruns
        length_storage := by
          simp only [storeBlock, length_copyIn, r.length_storage, AbstractFifo.finishedWrite] })

def copyOut (r : AudioRingBuffer α) (startIndex blockSize : ℕ) : List α :=
  (r.storage.drop (startIndex * r.channels)).take (blockSize * r.channels)

def read (r : AudioRingBuffer α) (maxFrames : ℕ) : ℕ × List α × AudioRingBuffer α :=
  -- the number of frames read, the floats written to the destination and the ring after
  if r.channels = 0 then (0, [], r)
  else
    let numFrames := min maxFrames r.fifo.numReady
    if numFrames = 0 then (0, [], r)
    else
      let scope := r.fifo.readScope numFrames
      (numFrames,
        r.copyOut scope.startIndex1 scope.blockSize1 ++ r.copyOut scope.startIndex2 scope.blockSize2,
        { r with fifo := r.fifo.finishedRead numFrames, length_storage := r.length_storage })

def frameAt (channels : ℕ) (storage : List α) (s : ℕ) : List α :=
  (storage.drop (s * channels)).take channels

def frames (r : AudioRingBuffer α) : List (List α) :=
  contents (frameAt r.channels r.storage) r.fifo.totalSize r.fifo.start r.fifo.numReady

end AudioRingBuffer

def AudioBuffer.frame {α : Type} (source : AudioBuffer α) (channels i : ℕ) : List α :=
  -- frame `i` of a planar buffer for a ring of `channels`, the last channel duplicated
  (List.range channels).map fun ch => source.sample (min ch (source.numChannels - 1)) i

namespace AudioRingBuffer
variable {α : Type}

@[simp] theorem length_frames (r : AudioRingBuffer α) : r.frames.length = r.fifo.numReady :=
  length_contents ..

theorem index_div {channels ch : ℕ} (hch : ch < channels) (s : ℕ) :
    (s * channels + ch) / channels = s := by
  rw [Nat.add_comm, Nat.add_mul_div_right _ _ (Nat.zero_lt_of_lt hch), Nat.div_eq_of_lt hch,
    Nat.zero_add]

theorem index_mod {channels ch : ℕ} (hch : ch < channels) (s : ℕ) :
    (s * channels + ch) % channels = ch := by
  rw [Nat.add_comm, Nat.add_mul_mod_self_right, Nat.mod_eq_of_lt hch]

theorem mem_copyIn_indices {channels startIndex blockSize k : ℕ} (hc : 0 < channels) :
    (k ∈ ((List.range channels).flatMap fun ch => (List.range blockSize).map fun i => (ch, i)).map
      fun p : ℕ × ℕ => startIndex * channels + (p.2 * channels + p.1)) ↔
      startIndex ≤ k / channels ∧ k / channels < startIndex + blockSize := by
  simp only [List.mem_map, List.mem_flatMap, List.mem_range, Prod.exists, Prod.mk.injEq]
  constructor
  · rintro ⟨ch, i, ⟨ch', hch, i', hi, rfl, rfl⟩, rfl⟩
    rw [← Nat.add_assoc, ← Nat.add_mul, index_div hch]
    omega
  · rintro ⟨hlow, hhigh⟩
    refine ⟨k % channels, k / channels - startIndex, ⟨k % channels, Nat.mod_lt k hc,
      k / channels - startIndex, by omega, rfl, rfl⟩, ?_⟩
    have hsplit := Nat.div_add_mod k channels
    rw [← Nat.add_assoc, ← Nat.add_mul, Nat.add_sub_cancel' hlow, Nat.mul_comm]
    exact hsplit

theorem getElem?_copyIn {channels : ℕ} (hc : 0 < channels) (source : AudioBuffer α)
    (startIndex blockSize offset : ℕ) (storage : List α) (k : ℕ) :
    (copyIn channels source startIndex blockSize offset storage)[k]? =
      if startIndex ≤ k / channels ∧ k / channels < startIndex + blockSize then
        storage[k]?.map fun _ => source.sample (min (k % channels) (source.numChannels - 1))
          (offset + (k / channels - startIndex))
      else storage[k]? := by
  unfold copyIn
  rw [getElem?_foldl_set _ _ (fun k => source.sample (min (k % channels) (source.numChannels - 1))
    (offset + (k / channels - startIndex)))]
  · simp only [mem_copyIn_indices hc]
  · intro p hp
    obtain ⟨ch, hch, i, hi, rfl⟩ : ∃ ch < channels, ∃ i < blockSize, (ch, i) = p := by
      simpa using hp
    simp only [← Nat.add_assoc, ← Nat.add_mul, index_div hch, index_mod hch,
      Nat.add_sub_cancel_left]

theorem frameAt_copyIn {channels total s : ℕ} (hc : 0 < channels) (source : AudioBuffer α)
    (startIndex blockSize offset : ℕ) {storage : List α}
    (hlen : storage.length = channels * total) (hs : s < total) :
    frameAt channels (copyIn channels source startIndex blockSize offset storage) s =
      if startIndex ≤ s ∧ s < startIndex + blockSize then
        source.frame channels (offset + (s - startIndex))
      else frameAt channels storage s := by
  apply List.ext_getElem?
  intro j
  rcases Nat.lt_or_ge j channels with hj | hj
  · have hroom : s * channels + j < storage.length := by
      have hnext : (s + 1) * channels ≤ total * channels := Nat.mul_le_mul_right _ hs
      rw [hlen, Nat.mul_comm channels total]
      rw [Nat.add_mul] at hnext
      omega
    simp only [frameAt, List.getElem?_take_of_lt hj, List.getElem?_drop, getElem?_copyIn hc,
      index_div hj, index_mod hj]
    split_ifs
    · simp [AudioBuffer.frame, hj, List.getElem?_eq_getElem hroom]
    · rw [List.getElem?_take_of_lt hj, List.getElem?_drop]
  · have hnone : ∀ l : List α, (l.take channels)[j]? = none := fun l =>
      List.getElem?_eq_none (Nat.le_trans (List.length_take_le _ _) hj)
    split_ifs
    · rw [frameAt, hnone, AudioBuffer.frame]
      simp [hj]
    · rw [frameAt, frameAt, hnone, hnone]

theorem frameAt_storeBlock {r : AudioRingBuffer α} (hc : 0 < r.channels) (source : AudioBuffer α)
    (hfit : source.numSamples ≤ r.fifo.getFreeSpace) :
    (∀ i < source.numSamples,
      frameAt r.channels (r.storeBlock source)
        (slot r.fifo.totalSize r.fifo.start (r.fifo.numReady + i)) = source.frame r.channels i) ∧
    ∀ s < r.fifo.totalSize,
      (∀ i < source.numSamples, s ≠ slot r.fifo.totalSize r.fifo.start (r.fifo.numReady + i)) →
        frameAt r.channels (r.storeBlock source) s = frameAt r.channels r.storage s := by
  set total := r.fifo.totalSize with htotal
  set n := source.numSamples with hn
  set first := slot total r.fifo.start r.fifo.numReady with hfirst
  have hpos : 0 < total := Nat.zero_lt_of_lt r.fifo.start_lt
  have hlt : first < total := slot_lt hpos _ _
  have hroom : r.fifo.numReady + n < total := r.fifo.room hfit
  have hlen := r.length_storage
  have hframe : ∀ s < total, frameAt r.channels (r.storeBlock source) s =
      if s < n - min n (total - first) then source.frame r.channels (min n (total - first) + s)
      else if first ≤ s ∧ s < first + min n (total - first) then source.frame r.channels (s - first)
      else frameAt r.channels r.storage s := by
    intro s hs
    simp only [storeBlock, AbstractFifo.writeScope, AbstractFifo.scope]
    rw [frameAt_copyIn hc source _ _ _ (by rw [length_copyIn, hlen]) hs,
      frameAt_copyIn hc source _ _ _ hlen hs]
    simp only [Nat.zero_le, true_and, Nat.zero_add, Nat.sub_zero, ← htotal, ← hn, ← hfirst]
  -- the slots of the block wrap where its second region begins
  have hslot : ∀ i < n, slot total r.fifo.start (r.fifo.numReady + i) =
      if i < total - first then first + i else i - (total - first) := by
    intro i hi
    rw [← slot_slot, ← hfirst]
    exact slot_cases hlt (by omega)
  constructor
  · intro i hi
    rw [hframe _ (slot_lt hpos _ _), hslot i hi]
    split_ifs <;> first | omega | (congr 1; omega)
  · intro s hs hnot
    rw [hframe s hs]
    split_ifs with hwrapped hdirect
    · refine absurd ?_ (hnot (min n (total - first) + s) (by omega))
      rw [hslot _ (by omega)]
      split_ifs <;> omega
    · refine absurd ?_ (hnot (s - first) (by omega))
      rw [hslot _ (by omega)]
      split_ifs <;> omega
    · rfl

theorem write_channels (r : AudioRingBuffer α) (source : AudioBuffer α) :
    (r.write source).2.channels = r.channels := by
  unfold write
  split_ifs <;> rfl

theorem write_fits {r : AudioRingBuffer α} (source : AudioBuffer α)
    (hn : source.numSamples ≠ 0) (hc : r.channels ≠ 0)
    (hfit : source.numSamples ≤ r.fifo.getFreeSpace) :
    (r.write source).1 = true ∧ (r.write source).2.channels = r.channels ∧
      (r.write source).2.fifo.totalSize = r.fifo.totalSize ∧
      (r.write source).2.frames =
        r.frames ++ (List.range source.numSamples).map (source.frame r.channels) := by
  have hblock : ¬ (r.channels = 0 ∨ r.fifo.getFreeSpace < source.numSamples) := by omega
  obtain ⟨hnew, hold⟩ := frameAt_storeBlock (Nat.pos_of_ne_zero hc) source hfit
  rw [write, if_neg hn, dif_neg hblock]
  exact ⟨rfl, rfl, rfl, contents_write (r.fifo.room hfit).le hnew hold⟩

theorem write_refused (r : AudioRingBuffer α) (source : AudioBuffer α)
    (h : source.numSamples = 0 ∨ r.channels = 0 ∨ r.fifo.getFreeSpace < source.numSamples) :
    (r.write source).2.channels = r.channels ∧ (r.write source).2.fifo = r.fifo ∧
      (r.write source).2.frames = r.frames := by
  unfold write
  split_ifs with hn hblock
  · exact ⟨rfl, rfl, rfl⟩
  · exact ⟨rfl, rfl, rfl⟩
  · exact absurd (h.resolve_left hn) hblock

theorem write_discarded {r : AudioRingBuffer α} (source : AudioBuffer α)
    (hn : source.numSamples ≠ 0) (hblock : r.channels = 0 ∨ r.fifo.getFreeSpace < source.numSamples) :
    r.write source = (false, { r with overruns := r.overruns + 1 }) := by
  rw [write, if_neg hn, dif_pos hblock]

theorem copyOut_eq (r : AudioRingBuffer α) (startIndex blockSize : ℕ) :
    r.copyOut startIndex blockSize =
      ((List.range blockSize).map fun i =>
        frameAt r.channels r.storage (startIndex + i)).flatten := by
  induction blockSize with
  | zero => simp [copyOut]
  | succ b ih =>
    rw [List.range_succ, List.map_append, List.flatten_append, ← ih]
    simp only [copyOut, frameAt, List.map_cons, List.map_nil, List.flatten_cons, List.flatten_nil,
      List.append_nil, Nat.add_mul, Nat.one_mul, List.take_add, List.drop_drop]

theorem copyOut_readScope (r : AudioRingBuffer α) {n : ℕ} (hn : n ≤ r.fifo.numReady) :
    r.copyOut (r.fifo.readScope n).startIndex1 (r.fifo.readScope n).blockSize1 ++
      r.copyOut (r.fifo.readScope n).startIndex2 (r.fifo.readScope n).blockSize2 =
      (r.frames.take n).flatten := by
  have hready := r.fifo.numReady_lt
  have hstart := r.fifo.start_lt
  have hsplit : n = min n (r.fifo.totalSize - r.fifo.start) +
      (n - min n (r.fifo.totalSize - r.fifo.start)) := by omega
  rw [frames, ← (contents_read _ hn).1, copyOut_eq, copyOut_eq, ← List.flatten_append]
  congr 1
  conv_rhs => rw [hsplit]
  simp only [contents, AbstractFifo.readScope, AbstractFifo.scope, List.range_add, List.map_append,
    List.map_map]
  congr 1
  · apply List.map_congr_left
    intro i hi
    have hi' := List.mem_range.mp hi
    rw [slot_cases hstart (by omega), if_pos (by omega)]
  · apply List.map_congr_left
    intro i hi
    have hi' := List.mem_range.mp hi
    rw [Function.comp, slot_cases hstart (by omega), if_neg (by omega)]
    congr 1
    omega

theorem read_spec (r : AudioRingBuffer α) (maxFrames : ℕ) :
    let n := if r.channels = 0 then 0 else min maxFrames r.fifo.numReady
    (r.read maxFrames).1 = n ∧ (r.read maxFrames).2.1 = (r.frames.take n).flatten ∧
      (r.read maxFrames).2.2.channels = r.channels ∧
      (r.read maxFrames).2.2.fifo.totalSize = r.fifo.totalSize ∧
      (r.read maxFrames).2.2.frames = r.frames.drop n := by
  unfold read
  split_ifs with hc
  · exact ⟨rfl, by simp, rfl, rfl, by simp⟩
  · dsimp only
    split_ifs with hzero
    · rw [hzero]
      exact ⟨rfl, by simp, rfl, rfl, by simp⟩
    · have hn : min maxFrames r.fifo.numReady ≤ r.fifo.numReady := Nat.min_le_right _ _
      exact ⟨rfl, copyOut_readScope r hn, rfl, rfl, (contents_read _ hn).2⟩

theorem length_of_mem_frames {r : AudioRingBuffer α} {frame : List α} (h : frame ∈ r.frames) :
    frame.length = r.channels := by
  obtain ⟨k, hk, rfl⟩ := List.mem_map.mp h
  have hpos : 0 < r.fifo.totalSize := Nat.zero_lt_of_lt r.fifo.start_lt
  have hslot := slot_lt hpos r.fifo.start k
  have hroom : (slot r.fifo.totalSize r.fifo.start k + 1) * r.channels ≤
      r.fifo.totalSize * r.channels := Nat.mul_le_mul_right _ hslot
  rw [frameAt, List.length_take, List.length_drop, r.length_storage, Nat.mul_comm r.channels]
  rw [Nat.add_mul] at hroom
  omega

theorem length_read (r : AudioRingBuffer α) (maxFrames : ℕ) :
    (r.read maxFrames).2.1.length = (r.read maxFrames).1 * r.channels := by
  obtain ⟨hn, hfloats, -, -, -⟩ := read_spec r maxFrames
  rw [hn, hfloats]
  have hle : (if r.channels = 0 then 0 else min maxFrames r.fifo.numReady) ≤ r.frames.length := by
    rw [length_frames]
    split_ifs <;> omega
  generalize (if r.channels = 0 then 0 else min maxFrames r.fifo.numReady) = n at hle
  have huniform : ∀ frame ∈ r.frames.take n, frame.length = r.channels := fun frame hframe =>
    length_of_mem_frames (List.mem_of_mem_take hframe)
  rw [List.length_flatten, List.map_eq_replicate_iff.mpr huniform, List.sum_replicate_nat,
    List.length_take, Nat.min_eq_left hle]

end AudioRingBuffer
end Ppm.Engine

import PhonePostMix.Engine.AudioRingBuffer
import PhonePostMix.Library.Runs

/-! One thread writes the ring while another reads it, a sample at a time. -/

namespace Ppm.Engine
open CircularMemory

/-- The indices of `juce::AbstractFifo`: the producer moves `validEnd`, the consumer
`validStart`. -/
structure FifoIndices where
  bufferSize : ℕ
  validStart : ℕ
  validEnd : ℕ
  start_lt : validStart < bufferSize
  end_lt : validEnd < bufferSize

namespace FifoIndices

def getNumReady (f : FifoIndices) : ℕ :=
  if f.validStart ≤ f.validEnd then f.validEnd - f.validStart
  else f.bufferSize - (f.validStart - f.validEnd)

def getFreeSpace (f : FifoIndices) : ℕ := f.bufferSize - f.getNumReady - 1

def finishedWrite (f : FifoIndices) (n : ℕ) : FifoIndices where
  bufferSize := f.bufferSize
  validStart := f.validStart
  validEnd := slot f.bufferSize f.validEnd n
  start_lt := f.start_lt
  end_lt := slot_lt (Nat.zero_lt_of_lt f.start_lt) _ _

def finishedRead (f : FifoIndices) (n : ℕ) : FifoIndices where
  bufferSize := f.bufferSize
  validStart := slot f.bufferSize f.validStart n
  validEnd := f.validEnd
  start_lt := slot_lt (Nat.zero_lt_of_lt f.start_lt) _ _
  end_lt := f.end_lt

theorem getNumReady_lt (f : FifoIndices) : f.getNumReady < f.bufferSize := by
  have hstart := f.start_lt
  have hend := f.end_lt
  unfold getNumReady
  split_ifs <;> omega

def view (f : FifoIndices) : AbstractFifo :=
  ⟨f.bufferSize, f.validStart, f.getNumReady, f.start_lt, f.getNumReady_lt⟩

theorem slot_getNumReady (f : FifoIndices) :
    slot f.bufferSize f.validStart f.getNumReady = f.validEnd := by
  have hstart := f.start_lt
  have hend := f.end_lt
  rw [slot_cases f.start_lt f.getNumReady_lt]
  unfold getNumReady
  split_ifs <;> omega

theorem getNumReady_eq {f : FifoIndices} {k : ℕ} (hk : k < f.bufferSize)
    (h : slot f.bufferSize f.validStart k = f.validEnd) : f.getNumReady = k :=
  slot_inj f.getNumReady_lt hk (f.slot_getNumReady.trans h.symm)

theorem getNumReady_finishedWrite {f : FifoIndices} {n : ℕ} (h : n ≤ f.getFreeSpace) :
    (f.finishedWrite n).getNumReady = f.getNumReady + n := by
  have hready := f.getNumReady_lt
  unfold getFreeSpace at h
  apply getNumReady_eq
  · show f.getNumReady + n < f.bufferSize
    omega
  · show slot f.bufferSize f.validStart (f.getNumReady + n) = slot f.bufferSize f.validEnd n
    rw [← slot_slot, slot_getNumReady]

theorem getNumReady_finishedRead {f : FifoIndices} {n : ℕ} (h : n ≤ f.getNumReady) :
    (f.finishedRead n).getNumReady = f.getNumReady - n := by
  have hready := f.getNumReady_lt
  apply getNumReady_eq
  · show f.getNumReady - n < f.bufferSize
    omega
  · show slot f.bufferSize (slot f.bufferSize f.validStart n) (f.getNumReady - n) = f.validEnd
    rw [slot_slot, Nat.add_sub_cancel' h, slot_getNumReady]

end FifoIndices

structure Writing (α : Type) where
  source : AudioBuffer α
  stores : List (ℕ × α)

structure Reading (α : Type) where
  numFrames : ℕ
  loads : List ℕ
  copied : List α := []

structure SharedRing (α : Type) where
  fifo : FifoIndices
  storage : List α
  channels : ℕ
  overruns : BitVec 32 := 0
  length_storage : storage.length = channels * fifo.bufferSize
  producer : Option (Writing α) := none
  consumer : Option (Reading α) := none
  -- the frames committed by writes, and the floats delivered by reads
  committed : List (List α) := []
  delivered : List α := []

inductive RingStep (α : Type)
  | write (source : AudioBuffer α)
  | produce
  | read (maxFrames : ℕ)
  | consume

namespace SharedRing
open AudioRingBuffer (mem_copyIn_indices)
variable {α : Type}

def prepared (silence : α) (numChannels numFrames : ℕ) (h : 0 < numFrames) : SharedRing α where
  fifo := ⟨numFrames, 0, 0, h, h⟩
  storage := List.replicate (numChannels * numFrames) silence
  channels := numChannels
  length_storage := (AudioRingBuffer.prepare silence numChannels numFrames h).length_storage

def ring (s : SharedRing α) : AudioRingBuffer α where
  fifo := s.fifo.view
  storage := s.storage
  channels := s.channels
  overruns := s.overruns
  length_storage := s.length_storage

def regionStores (channels : ℕ) (source : AudioBuffer α)
    (startIndex blockSize sourceOffset : ℕ) : List (ℕ × α) :=
  ((List.range channels).flatMap fun ch => (List.range blockSize).map fun i => (ch, i)).map
    fun p => (startIndex * channels + (p.2 * channels + p.1),
      source.sample (min p.1 (source.numChannels - 1)) (sourceOffset + p.2))

def blockStores (s : SharedRing α) (source : AudioBuffer α) : List (ℕ × α) :=
  let scope := s.fifo.view.scope s.fifo.validEnd source.numSamples
  regionStores s.channels source scope.startIndex1 scope.blockSize1 0 ++
    regionStores s.channels source scope.startIndex2 scope.blockSize2 scope.blockSize1

def regionLoads (channels startIndex blockSize : ℕ) : List ℕ :=
  (List.range (blockSize * channels)).map fun j => startIndex * channels + j

def blockLoads (s : SharedRing α) (numFrames : ℕ) : List ℕ :=
  let scope := s.fifo.view.scope s.fifo.validStart numFrames
  regionLoads s.channels scope.startIndex1 scope.blockSize1 ++
    regionLoads s.channels scope.startIndex2 scope.blockSize2

def beginWrite (source : AudioBuffer α) (s : SharedRing α) : SharedRing α :=
  if source.numSamples = 0 then s
  else if s.channels = 0 ∨ s.fifo.getFreeSpace < source.numSamples then
    { s with overruns := s.overruns + 1 }
  else { s with producer := some ⟨source, s.blockStores source⟩ }

def produce (w : Writing α) (s : SharedRing α) : SharedRing α :=
  -- one store of the producer, or its commit when there is none left
  match w.stores with
  | (k, value) :: stores =>
    { s with
      storage := s.storage.set k value
      length_storage := by rw [List.length_set, s.length_storage]
      producer := some { w with stores } }
  | [] =>
    { s with
      fifo := s.fifo.finishedWrite w.source.numSamples
      length_storage := s.length_storage
      producer := none
      committed := s.committed ++ (List.range w.source.numSamples).map (w.source.frame s.channels) }

def beginRead (maxFrames : ℕ) (s : SharedRing α) : SharedRing α :=
  let numFrames := min maxFrames s.fifo.getNumReady
  if s.channels = 0 ∨ numFrames = 0 then s
  else { s with consumer := some { numFrames, loads := s.blockLoads numFrames } }

def consume (r : Reading α) (s : SharedRing α) : SharedRing α :=
  -- one load of the consumer, or its commit when there is none left
  match r.loads with
  | k :: loads =>
    { s with consumer := some { r with loads, copied := r.copied ++ s.storage[k]?.toList } }
  | [] =>
    { s with
      fifo := s.fifo.finishedRead r.numFrames
      length_storage := s.length_storage
      consumer := none
      delivered := s.delivered ++ r.copied }

def step (s : SharedRing α) : RingStep α → SharedRing α
  -- a thread begins a call only when its last one has returned
  | .write source => if s.producer.isSome then s else s.beginWrite source
  | .produce =>
    match s.producer with
    | none => s
    | some w => s.produce w
  | .read maxFrames => if s.consumer.isSome then s else s.beginRead maxFrames
  | .consume =>
    match s.consumer with
    | none => s
    | some r => s.consume r

section Slots
variable {s : SharedRing α}

theorem scope_slot {f : FifoIndices} {first n slot' : ℕ} (hfirst : first < f.bufferSize)
    (hn : n ≤ f.bufferSize)
    (h : (first ≤ slot' ∧ slot' < first + min n (f.bufferSize - first)) ∨
      (0 ≤ slot' ∧ slot' < 0 + (n - min n (f.bufferSize - first)))) :
    ∃ i < n, slot' = slot f.bufferSize first i := by
  rcases h with ⟨hlow, hhigh⟩ | ⟨-, hhigh⟩
  · refine ⟨slot' - first, by omega, ?_⟩
    rw [slot_cases hfirst (by omega), if_pos (by omega)]
    omega
  · refine ⟨f.bufferSize - first + slot', by omega, ?_⟩
    rw [slot_cases hfirst (by omega), if_neg (by omega)]
    omega

theorem slot_of_mem_blockStores {source : AudioBuffer α} (hc : 0 < s.channels)
    (hn : source.numSamples ≤ s.fifo.bufferSize) {k : ℕ}
    (hk : k ∈ (s.blockStores source).map Prod.fst) :
    ∃ i < source.numSamples, k / s.channels = slot s.fifo.bufferSize s.fifo.validEnd i := by
  apply scope_slot s.fifo.end_lt hn
  rw [blockStores, List.map_append, List.mem_append] at hk
  refine hk.imp (fun h => ?_) fun h => ?_
  · rw [regionStores, List.map_map] at h
    exact (mem_copyIn_indices hc).mp h
  · rw [regionStores, List.map_map] at h
    exact (mem_copyIn_indices hc).mp h

theorem mem_regionLoads {channels startIndex blockSize k : ℕ} (hc : 0 < channels)
    (hk : k ∈ regionLoads channels startIndex blockSize) :
    startIndex ≤ k / channels ∧ k / channels < startIndex + blockSize := by
  obtain ⟨j, hj, rfl⟩ := List.mem_map.mp hk
  have hdiv : j / channels < blockSize := Nat.div_lt_of_lt_mul (by
    rw [Nat.mul_comm]
    exact List.mem_range.mp hj)
  have hframe : (startIndex * channels + j) / channels = startIndex + j / channels := by
    rw [Nat.add_comm, Nat.add_mul_div_right _ _ hc, Nat.add_comm]
  rw [hframe]
  exact ⟨Nat.le_add_right _ _, Nat.add_lt_add_left hdiv _⟩

theorem slot_of_mem_blockLoads {n : ℕ} (hc : 0 < s.channels) (hn : n ≤ s.fifo.bufferSize) {k : ℕ}
    (hk : k ∈ s.blockLoads n) :
    ∃ i < n, k / s.channels = slot s.fifo.bufferSize s.fifo.validStart i := by
  apply scope_slot s.fifo.start_lt hn
  rw [blockLoads, List.mem_append] at hk
  exact hk.imp (mem_regionLoads hc) (mem_regionLoads hc)

theorem ready_ne_free {f : FifoIndices} {i j : ℕ} (hi : i < f.getNumReady)
    (hj : j < f.getFreeSpace) :
    slot f.bufferSize f.validStart i ≠ slot f.bufferSize f.validEnd j := by
  have hready := f.getNumReady_lt
  unfold FifoIndices.getFreeSpace at hj
  intro heq
  rw [← f.slot_getNumReady, slot_slot] at heq
  have hsame := slot_inj (by omega) (by omega) heq
  omega

theorem frameAt_set {channels k slot' : ℕ} (hk : k / channels ≠ slot')
    (storage : List α) (value : α) :
    AudioRingBuffer.frameAt channels (storage.set k value) slot' =
      AudioRingBuffer.frameAt channels storage slot' := by
  apply List.ext_getElem?
  intro j
  rcases Nat.lt_or_ge j channels with hj | hj
  · have hne : k ≠ slot' * channels + j := by
      rintro rfl
      exact hk (AudioRingBuffer.index_div hj slot')
    simp only [AudioRingBuffer.frameAt, List.getElem?_take_of_lt hj, List.getElem?_drop,
      List.getElem?_set_ne hne]
  · simp only [AudioRingBuffer.frameAt, List.getElem?_take_eq_none hj]

end Slots

def afterStores (storage : List α) (stores : List (ℕ × α)) : List α :=
  stores.foldl (fun memory p => memory.set p.1 p.2) storage

def loaded (storage : List α) (loads : List ℕ) : List α :=
  loads.flatMap fun k => storage[k]?.toList

/-- A write in progress: its stores stay in the free slots, and finishing them leaves its frames
there. -/
structure WritingSafe (s : SharedRing α) (w : Writing α) : Prop where
  channels_pos : 0 < s.channels
  fits : w.source.numSamples ≤ s.fifo.getFreeSpace
  stores : w.stores <:+ s.blockStores w.source
  finish : ∀ i < w.source.numSamples,
    AudioRingBuffer.frameAt s.channels (afterStores s.storage w.stores)
      (slot s.fifo.bufferSize s.fifo.validEnd i) = w.source.frame s.channels i

structure ReadingSafe (s : SharedRing α) (r : Reading α) : Prop where
  channels_pos : 0 < s.channels
  ready : r.numFrames ≤ s.fifo.getNumReady
  loads : r.loads <:+ s.blockLoads r.numFrames
  finish : r.copied ++ loaded s.storage r.loads = (s.ring.frames.take r.numFrames).flatten

structure Safe (s : SharedRing α) : Prop where
  queue : ∃ done, s.committed = done ++ s.ring.frames ∧ s.delivered = done.flatten
  writing : ∀ w, s.producer = some w → s.WritingSafe w
  reading : ∀ r, s.consumer = some r → s.ReadingSafe r

section Frames
variable {s : SharedRing α}

theorem WritingSafe.fits_buffer {w : Writing α} (h : s.WritingSafe w) :
    w.source.numSamples ≤ s.fifo.bufferSize := by
  have hfits := h.fits
  unfold FifoIndices.getFreeSpace at hfits
  omega

theorem ReadingSafe.ready_buffer {r : Reading α} (h : s.ReadingSafe r) :
    r.numFrames ≤ s.fifo.bufferSize := h.ready.trans s.fifo.getNumReady_lt.le

theorem WritingSafe.slot_free {w : Writing α} (h : s.WritingSafe w) {k : ℕ}
    (hk : k ∈ (s.blockStores w.source).map Prod.fst) :
    ∃ j < s.fifo.getFreeSpace, k / s.channels = slot s.fifo.bufferSize s.fifo.validEnd j := by
  obtain ⟨j, hj, heq⟩ := slot_of_mem_blockStores h.channels_pos h.fits_buffer hk
  exact ⟨j, hj.trans_le h.fits, heq⟩

theorem ReadingSafe.slot_ready {r : Reading α} (h : s.ReadingSafe r) {k : ℕ}
    (hk : k ∈ s.blockLoads r.numFrames) :
    ∃ i < s.fifo.getNumReady, k / s.channels = slot s.fifo.bufferSize s.fifo.validStart i := by
  obtain ⟨i, hi, heq⟩ := slot_of_mem_blockLoads h.channels_pos h.ready_buffer hk
  exact ⟨i, hi.trans_le h.ready, heq⟩

theorem loads_not_covered {w : Writing α} {r : Reading α} (hw : s.WritingSafe w)
    (hr : s.ReadingSafe r) {k : ℕ} (hk : k ∈ s.blockLoads r.numFrames) :
    k ∉ (s.blockStores w.source).map Prod.fst := by
  intro hcovered
  obtain ⟨j, hj, hfree⟩ := hw.slot_free hcovered
  obtain ⟨i, hi, hready⟩ := hr.slot_ready hk
  exact ready_ne_free hi hj (hready.symm.trans hfree)

theorem frames_set {k : ℕ} {value : α}
    (hk : ∃ j < s.fifo.getFreeSpace, k / s.channels = slot s.fifo.bufferSize s.fifo.validEnd j) :
    contents (AudioRingBuffer.frameAt s.channels (s.storage.set k value)) s.fifo.bufferSize
      s.fifo.validStart s.fifo.getNumReady = s.ring.frames := by
  obtain ⟨j, hj, heq⟩ := hk
  apply contents_congr
  intro i hi
  exact frameAt_set (fun hsame => ready_ne_free hi hj (hsame.symm.trans heq)) _ _

theorem loaded_set {loads : List ℕ} {k : ℕ} (hk : k ∉ loads) (value : α) (storage : List α) :
    loaded (storage.set k value) loads = loaded storage loads := by
  unfold loaded
  induction loads with
  | nil => rfl
  | cons l loads ih =>
    obtain ⟨hne, hrest⟩ := List.ne_and_not_mem_of_not_mem_cons hk
    rw [List.flatMap_cons, List.flatMap_cons, List.getElem?_set_ne hne, ih hrest]

theorem scope_validEnd (s : SharedRing α) (n : ℕ) :
    s.ring.fifo.writeScope n = s.fifo.view.scope s.fifo.validEnd n := by
  show s.fifo.view.scope (slot s.fifo.bufferSize s.fifo.validStart s.fifo.getNumReady) n = _
  rw [s.fifo.slot_getNumReady]

theorem afterStores_blockStores (s : SharedRing α) (source : AudioBuffer α) :
    afterStores s.storage (s.blockStores source) = s.ring.storeBlock source := by
  rw [AudioRingBuffer.storeBlock, scope_validEnd, afterStores, blockStores, List.foldl_append,
    regionStores, regionStores, List.foldl_map, List.foldl_map]
  rfl

theorem loaded_regionLoads (s : SharedRing α) (startIndex blockSize : ℕ) :
    loaded s.storage (regionLoads s.channels startIndex blockSize) =
      s.ring.copyOut startIndex blockSize := by
  have htake (l : List α) (n : ℕ) : ((List.range n).flatMap fun j => l[j]?.toList) = l.take n := by
    induction n with
    | zero => simp
    | succ n ih => rw [List.range_succ, List.flatMap_append, ih, List.take_add_one]; simp
  rw [loaded, regionLoads, List.flatMap_map, AudioRingBuffer.copyOut, ← htake]
  simp only [List.getElem?_drop]
  rfl

theorem loaded_blockLoads {n : ℕ} (hn : n ≤ s.fifo.getNumReady) :
    loaded s.storage (s.blockLoads n) = (s.ring.frames.take n).flatten := by
  rw [← AudioRingBuffer.copyOut_readScope s.ring hn, blockLoads, loaded, List.flatMap_append]
  exact congrArg₂ _ (loaded_regionLoads s _ _) (loaded_regionLoads s _ _)

end Frames

section Steps
variable {s : SharedRing α}

theorem safe_prepared (silence : α) (numChannels numFrames : ℕ) (h : 0 < numFrames) :
    (prepared silence numChannels numFrames h).Safe :=
  ⟨⟨[], rfl, rfl⟩, nofun, nofun⟩

theorem safe_beginWrite (h : s.Safe) (hidle : s.producer = none) (source : AudioBuffer α) :
    (s.beginWrite source).Safe := by
  unfold beginWrite
  split_ifs with hn hblock
  · exact h
  · exact ⟨h.queue, fun w hw => absurd (hidle.symm.trans hw) nofun, fun r hr =>
      have hr' := h.reading r hr
      ⟨hr'.channels_pos, hr'.ready, hr'.loads, hr'.finish⟩⟩
  · have hc : 0 < s.channels := by omega
    have hfit : source.numSamples ≤ s.ring.fifo.getFreeSpace := by
      show source.numSamples ≤ s.fifo.getFreeSpace
      omega
    refine ⟨h.queue, ?_, fun r hr =>
      have hr' := h.reading r hr
      ⟨hr'.channels_pos, hr'.ready, hr'.loads, hr'.finish⟩⟩
    rintro w ⟨⟩
    refine ⟨hc, hfit, List.suffix_rfl, fun i hi => ?_⟩
    have hframe := (AudioRingBuffer.frameAt_storeBlock (r := s.ring) hc source hfit).1 i hi
    rw [← afterStores_blockStores] at hframe
    refine Eq.trans ?_ hframe
    congr 1
    show slot s.fifo.bufferSize s.fifo.validEnd i =
      slot s.fifo.bufferSize s.fifo.validStart (s.fifo.getNumReady + i)
    rw [← slot_slot, s.fifo.slot_getNumReady]

theorem safe_beginRead (h : s.Safe) (maxFrames : ℕ) : (s.beginRead maxFrames).Safe := by
  unfold beginRead
  dsimp only
  split_ifs with hnone
  · exact h
  · refine ⟨h.queue, fun w hw =>
      have hw' := h.writing w hw
      ⟨hw'.channels_pos, hw'.fits, hw'.stores, hw'.finish⟩, ?_⟩
    rintro r ⟨⟩
    have hready : min maxFrames s.fifo.getNumReady ≤ s.fifo.getNumReady := Nat.min_le_right _ _
    have hc : 0 < s.channels := Nat.pos_of_ne_zero fun hzero => hnone (.inl hzero)
    exact ⟨hc, hready, List.suffix_rfl, loaded_blockLoads hready⟩

def storedFrames (s : SharedRing α) (k : ℕ) (value : α) : List (List α) :=
  contents (AudioRingBuffer.frameAt s.channels (s.storage.set k value)) s.fifo.bufferSize
    s.fifo.validStart s.fifo.getNumReady

theorem safe_store (h : s.Safe) {source : AudioBuffer α} {k : ℕ} {value : α}
    {stores : List (ℕ × α)} (hw : s.producer = some ⟨source, (k, value) :: stores⟩) :
    (s.produce ⟨source, (k, value) :: stores⟩).Safe := by
  have hsafe := h.writing _ hw
  have hmem : k ∈ (s.blockStores source).map Prod.fst :=
    List.mem_map_of_mem (hsafe.stores.subset List.mem_cons_self)
  have hframes : s.storedFrames k value = s.ring.frames := frames_set (hsafe.slot_free hmem)
  constructor
  · show ∃ done, s.committed = done ++ s.storedFrames k value ∧ s.delivered = done.flatten
    rw [hframes]
    exact h.queue
  · rintro _ ⟨⟩
    exact ⟨hsafe.channels_pos, hsafe.fits, (List.suffix_cons _ _).trans hsafe.stores,
      hsafe.finish⟩
  · intro r hr
    have hr' := h.reading r hr
    have hnot : k ∉ r.loads := fun hload =>
      loads_not_covered hsafe hr' (hr'.loads.subset hload) hmem
    refine ⟨hr'.channels_pos, hr'.ready, hr'.loads, ?_⟩
    show r.copied ++ loaded (s.storage.set k value) r.loads =
      ((s.storedFrames k value).take r.numFrames).flatten
    rw [loaded_set hnot, hframes]
    exact hr'.finish

theorem frames_commit (h : s.Safe) {source : AudioBuffer α} (hw : s.producer = some ⟨source, []⟩) :
    (s.produce ⟨source, []⟩).ring.frames =
      s.ring.frames ++ (List.range source.numSamples).map (source.frame s.channels) := by
  have hsafe := h.writing _ hw
  have hready := FifoIndices.getNumReady_finishedWrite hsafe.fits
  have hroom : s.fifo.getNumReady + source.numSamples ≤ s.fifo.bufferSize := by
    have hlt := s.fifo.getNumReady_lt
    have hfits : source.numSamples ≤ s.fifo.getFreeSpace := hsafe.fits
    unfold FifoIndices.getFreeSpace at hfits
    omega
  show contents (AudioRingBuffer.frameAt s.channels s.storage) s.fifo.bufferSize s.fifo.validStart
    (s.fifo.finishedWrite source.numSamples).getNumReady = _
  rw [hready]
  refine contents_write hroom (fun i hi => ?_) fun _ _ _ => rfl
  rw [← slot_slot, s.fifo.slot_getNumReady]
  exact hsafe.finish i hi

theorem safe_commit_write (h : s.Safe) {source : AudioBuffer α}
    (hw : s.producer = some ⟨source, []⟩) : (s.produce ⟨source, []⟩).Safe := by
  have hframes := frames_commit h hw
  have hready := FifoIndices.getNumReady_finishedWrite (h.writing _ hw).fits
  refine ⟨?_, nofun, fun r hr => ?_⟩
  · obtain ⟨done, hcommitted, hdelivered⟩ := h.queue
    refine ⟨done, ?_, hdelivered⟩
    rw [hframes, ← List.append_assoc, ← hcommitted]
    rfl
  · have hr' := h.reading r hr
    refine ⟨hr'.channels_pos, ?_, hr'.loads, ?_⟩
    · show r.numFrames ≤ (s.fifo.finishedWrite source.numSamples).getNumReady
      rw [hready]
      exact hr'.ready.trans (Nat.le_add_right _ _)
    · have hlength : r.numFrames ≤ s.ring.frames.length := by
        rw [AudioRingBuffer.length_frames]
        exact hr'.ready
      rw [hframes, List.take_append_of_le_length hlength]
      exact hr'.finish

theorem safe_load (h : s.Safe) {n k : ℕ} {loads : List ℕ} {copied : List α}
    (hr : s.consumer = some ⟨n, k :: loads, copied⟩) :
    (s.consume ⟨n, k :: loads, copied⟩).Safe := by
  have hsafe := h.reading _ hr
  refine ⟨h.queue, fun w hw => ?_, ?_⟩
  · have hw' := h.writing w hw
    exact ⟨hw'.channels_pos, hw'.fits, hw'.stores, hw'.finish⟩
  · rintro _ ⟨⟩
    refine ⟨hsafe.channels_pos, hsafe.ready, (List.suffix_cons _ _).trans hsafe.loads, ?_⟩
    have hfinish := hsafe.finish
    rw [loaded, List.flatMap_cons, ← List.append_assoc] at hfinish
    exact hfinish

theorem safe_commit_read (h : s.Safe) {n : ℕ} {copied : List α}
    (hr : s.consumer = some ⟨n, [], copied⟩) : (s.consume ⟨n, [], copied⟩).Safe := by
  have hsafe := h.reading _ hr
  have hready := FifoIndices.getNumReady_finishedRead hsafe.ready
  have hcopied : copied = (s.ring.frames.take n).flatten := by
    have hfinish := hsafe.finish
    rwa [loaded, List.flatMap_nil, List.append_nil] at hfinish
  have hframes : (s.consume ⟨n, [], copied⟩).ring.frames = s.ring.frames.drop n := by
    show contents (AudioRingBuffer.frameAt s.channels s.storage) s.fifo.bufferSize
      (slot s.fifo.bufferSize s.fifo.validStart n) (s.fifo.finishedRead n).getNumReady = _
    rw [hready]
    exact (contents_read _ hsafe.ready).2
  refine ⟨?_, fun w hw => ?_, nofun⟩
  · obtain ⟨done, hcommitted, hdelivered⟩ := h.queue
    refine ⟨done ++ s.ring.frames.take n, ?_, ?_⟩
    · rw [hframes, List.append_assoc, List.take_append_drop, ← hcommitted]
      rfl
    · rw [List.flatten_append, ← hdelivered, ← hcopied]
      rfl
  · have hw' := h.writing w hw
    refine ⟨hw'.channels_pos, ?_, hw'.stores, hw'.finish⟩
    show w.source.numSamples ≤ s.fifo.bufferSize - (s.fifo.finishedRead n).getNumReady - 1
    have hfits := hw'.fits
    unfold FifoIndices.getFreeSpace at hfits
    rw [hready]
    omega

theorem safe_produce (h : s.Safe) {w : Writing α} (hw : s.producer = some w) :
    (s.produce w).Safe := by
  obtain ⟨source, _ | ⟨⟨k, value⟩, stores⟩⟩ := w
  · exact safe_commit_write h hw
  · exact safe_store h hw

theorem safe_consume (h : s.Safe) {r : Reading α} (hr : s.consumer = some r) :
    (s.consume r).Safe := by
  obtain ⟨n, _ | ⟨k, loads⟩, copied⟩ := r
  · exact safe_commit_read h hr
  · exact safe_load h hr

theorem safe_step (h : s.Safe) (e : RingStep α) : (s.step e).Safe := by
  cases e with
  | write source =>
    rcases hidle : s.producer with _ | w
    · simpa [step, hidle] using safe_beginWrite h hidle source
    · simpa [step, hidle] using h
  | produce =>
    rcases hw : s.producer with _ | w
    · simpa only [step, hw] using h
    · simpa only [step, hw] using safe_produce h hw
  | read maxFrames =>
    rcases hidle : s.consumer with _ | r
    · simpa [step, hidle] using safe_beginRead h maxFrames
    · simpa [step, hidle] using h
  | consume =>
    rcases hr : s.consumer with _ | r
    · simpa only [step, hr] using h
    · simpa only [step, hr] using safe_consume h hr

/-- Whatever the interleaving, the loads of a read in progress lie outside the write in progress,
and the frames delivered are the committed ones, in order, up to those still in the ring. -/
theorem interleaving_safe (silence : α) (numChannels : ℕ) {numFrames : ℕ} (h : 0 < numFrames)
    (steps : List (RingStep α)) :
    let s := Runs.run step (prepared silence numChannels numFrames h) steps
    (∀ w r, s.producer = some w → s.consumer = some r →
      ∀ k ∈ r.loads, k ∉ (s.blockStores w.source).map Prod.fst) ∧
    (∃ done, s.committed = done ++ s.ring.frames ∧ s.delivered = done.flatten) ∧
    ∀ r, s.consumer = some r → s.delivered ++ r.copied <+: s.committed.flatten := by
  intro s
  have hsafe : s.Safe :=
    Runs.invariant (I := Safe) (fun _ e hs => safe_step hs e) (safe_prepared ..) steps
  refine ⟨fun w r hw hr k hk => ?_, hsafe.queue, fun r hr => ?_⟩
  · have hreading := hsafe.reading r hr
    exact loads_not_covered (hsafe.writing w hw) hreading (hreading.loads.subset hk)
  · obtain ⟨done, hcommitted, hdelivered⟩ := hsafe.queue
    refine ⟨loaded s.storage r.loads ++ (s.ring.frames.drop r.numFrames).flatten, ?_⟩
    rw [hcommitted, hdelivered, List.flatten_append, List.append_assoc,
      ← List.append_assoc r.copied, (hsafe.reading r hr).finish, ← List.flatten_append, List.take_append_drop]

theorem interleaving_safe_two :
    let frame (x : ℕ) : AudioBuffer ℕ := ⟨1, 1, fun _ _ => x, Nat.one_pos⟩
    let before : List (RingStep ℕ) :=
      [.write (frame 7), .produce, .produce, .read 1, .write (frame 8), .produce]
    let during := Runs.run step (prepared 0 1 3 (Nat.succ_pos 2)) before
    let after := before ++ [.consume, .produce, .consume]
    let s := Runs.run step (prepared 0 1 3 (Nat.succ_pos 2)) after
    (during.producer.map (fun w => (during.blockStores w.source).map Prod.fst) = some [1] ∧
      during.consumer.map (·.loads) = some [0] ∧ ∀ w r, during.producer = some w → during.consumer = some r →
        ∀ k ∈ r.loads, k ∉ (during.blockStores w.source).map Prod.fst) ∧
    s.committed = [[7], [8]] ∧ s.delivered = [7] ∧
      ∃ done, s.committed = done ++ s.ring.frames ∧ s.delivered = done.flatten := by
  intro frame before during after s
  refine ⟨⟨by decide +kernel, by decide +kernel, ?_⟩, by decide +kernel, by decide +kernel, ?_⟩
  · exact (interleaving_safe 0 1 (Nat.succ_pos 2) before).1
  · exact (interleaving_safe 0 1 (Nat.succ_pos 2) after).2.1

end Steps

section Alone
variable {s : SharedRing α}

theorem view_finishedWrite {f : FifoIndices} {n : ℕ} (h : n ≤ f.getFreeSpace) :
    (f.finishedWrite n).view = f.view.finishedWrite n h := by
  simp only [FifoIndices.view, AbstractFifo.finishedWrite, FifoIndices.getNumReady_finishedWrite h]
  rfl

theorem view_finishedRead {f : FifoIndices} {n : ℕ} (h : n ≤ f.getNumReady) :
    (f.finishedRead n).view = f.view.finishedRead n := by
  simp only [FifoIndices.view, AbstractFifo.finishedRead, FifoIndices.getNumReady_finishedRead h]
  rfl

theorem ring_ext {r r' : AudioRingBuffer α} (hfifo : r.fifo = r'.fifo)
    (hstorage : r.storage = r'.storage) (hchannels : r.channels = r'.channels)
    (hoverruns : r.overruns = r'.overruns) : r = r' := by
  cases r
  cases r'
  cases hfifo
  cases hstorage
  cases hchannels
  cases hoverruns
  rfl

theorem run_stores (source : AudioBuffer α) (stores : List (ℕ × α))
    (hw : s.producer = some ⟨source, stores⟩) :
    let t := Runs.run step s (List.replicate stores.length .produce)
    t.producer = some ⟨source, []⟩ ∧ t.storage = afterStores s.storage stores ∧ t.fifo = s.fifo ∧
      t.channels = s.channels ∧ t.overruns = s.overruns := by
  induction stores generalizing s with
  | nil => exact ⟨hw, rfl, rfl, rfl, rfl⟩
  | cons p stores ih =>
    have hstep : s.step .produce = s.produce ⟨source, p :: stores⟩ := by simp only [step, hw]
    rw [List.length_cons, List.replicate_succ, Runs.run_cons, hstep]
    exact ih rfl

theorem write_alone (hidle : s.producer = none) (source : AudioBuffer α) :
    ∃ n, (Runs.run step s (.write source :: List.replicate n .produce)).ring =
      (s.ring.write source).2 := by
  have hbegin : s.step (.write source) = s.beginWrite source := by simp [step, hidle]
  by_cases hn : source.numSamples = 0
  · refine ⟨0, ?_⟩
    rw [Runs.run_cons, hbegin, beginWrite, if_pos hn, AudioRingBuffer.write, if_pos hn]
    rfl
  by_cases hblock : s.channels = 0 ∨ s.fifo.getFreeSpace < source.numSamples
  · refine ⟨0, ?_⟩
    have hblock' : s.ring.channels = 0 ∨ s.ring.fifo.getFreeSpace < source.numSamples := hblock
    rw [Runs.run_cons, hbegin, beginWrite, if_neg hn, if_pos hblock, AudioRingBuffer.write,
      if_neg hn, dif_pos hblock']
    rfl
  · have hblock' : ¬ (s.ring.channels = 0 ∨ s.ring.fifo.getFreeSpace < source.numSamples) := hblock
    have hfit : source.numSamples ≤ s.fifo.getFreeSpace := by omega
    refine ⟨(s.blockStores source).length + 1, ?_⟩
    obtain ⟨hdone, hstorage, hfifo, hchannels, hoverruns⟩ := run_stores
      (s := { s with producer := some ⟨source, s.blockStores source⟩ }) source _ rfl
    rw [Runs.run_cons, hbegin, beginWrite, if_neg hn, if_neg hblock, List.replicate_succ',
      Runs.run_append, AudioRingBuffer.write, if_neg hn, dif_neg hblock']
    generalize Runs.run step { s with producer := some ⟨source, s.blockStores source⟩ }
      (List.replicate (s.blockStores source).length .produce) = t at *
    have hcommit : t.step .produce = t.produce ⟨source, []⟩ := by simp only [step, hdone]
    rw [Runs.run_cons, Runs.run_nil, hcommit]
    apply ring_ext
    · show (t.fifo.finishedWrite source.numSamples).view = s.fifo.view.finishedWrite _ hfit
      rw [hfifo]
      exact view_finishedWrite hfit
    · exact hstorage.trans (afterStores_blockStores s source)
    · exact hchannels
    · exact hoverruns

theorem run_loads (n : ℕ) (loads : List ℕ) (copied : List α)
    (hr : s.consumer = some ⟨n, loads, copied⟩) :
    let t := Runs.run step s (List.replicate loads.length .consume)
    t.consumer = some ⟨n, [], copied ++ loaded s.storage loads⟩ ∧ t.storage = s.storage ∧
      t.fifo = s.fifo ∧ t.channels = s.channels ∧ t.overruns = s.overruns ∧
      t.delivered = s.delivered := by
  induction loads generalizing s copied with
  | nil =>
    refine ⟨?_, rfl, rfl, rfl, rfl, rfl⟩
    rw [loaded, List.flatMap_nil, List.append_nil]
    exact hr
  | cons k loads ih =>
    have hstep : s.step .consume = s.consume ⟨n, k :: loads, copied⟩ := by simp only [step, hr]
    rw [List.length_cons, List.replicate_succ, Runs.run_cons, hstep, loaded, List.flatMap_cons,
      ← List.append_assoc]
    exact ih _ rfl

theorem read_of_ready {r : AudioRingBuffer α} {maxFrames : ℕ} (hc : r.channels ≠ 0)
    (hn : min maxFrames r.fifo.numReady ≠ 0) :
    r.read maxFrames =
      (min maxFrames r.fifo.numReady, (r.frames.take (min maxFrames r.fifo.numReady)).flatten,
        { r with
          fifo := r.fifo.finishedRead (min maxFrames r.fifo.numReady)
          length_storage := r.length_storage }) := by
  have hcopy := AudioRingBuffer.copyOut_readScope r (Nat.min_le_right maxFrames r.fifo.numReady)
  rw [AudioRingBuffer.read, if_neg hc]
  dsimp only
  rw [if_neg hn, hcopy]

theorem read_alone (hidle : s.consumer = none) (maxFrames : ℕ) :
    ∃ n, let t := Runs.run step s (.read maxFrames :: List.replicate n .consume)
      t.ring = (s.ring.read maxFrames).2.2 ∧
        t.delivered = s.delivered ++ (s.ring.read maxFrames).2.1 := by
  have hbegin : s.step (.read maxFrames) = s.beginRead maxFrames := by simp [step, hidle]
  have hready : s.ring.fifo.numReady = s.fifo.getNumReady := rfl
  by_cases hnone : s.channels = 0 ∨ min maxFrames s.fifo.getNumReady = 0
  · have hread : s.ring.read maxFrames = (0, [], s.ring) := by
      unfold AudioRingBuffer.read
      split_ifs with hc
      · rfl
      · exact if_pos (hnone.resolve_left hc)
    refine ⟨0, ?_⟩
    rw [Runs.run_cons, hbegin, beginRead, if_pos hnone, hread]
    exact ⟨rfl, (List.append_nil _).symm⟩
  · obtain ⟨hc, hn⟩ := not_or.mp hnone
    generalize hm : min maxFrames s.fifo.getNumReady = m at hn
    have hle : m ≤ s.fifo.getNumReady := hm ▸ Nat.min_le_right _ _
    refine ⟨(s.blockLoads m).length + 1, ?_⟩
    obtain ⟨hdone, hstorage, hfifo, hchannels, hoverruns, hdelivered⟩ := run_loads
      (s := { s with consumer := some { numFrames := m, loads := s.blockLoads m } }) m _ [] rfl
    have hstart : s.beginRead maxFrames =
        { s with consumer := some { numFrames := m, loads := s.blockLoads m } } := by
      rw [beginRead, hm]
      exact if_neg (not_or.mpr ⟨hc, hn⟩)
    have hread : s.ring.read maxFrames = (m, (s.ring.frames.take m).flatten,
        { s.ring with
          fifo := s.ring.fifo.finishedRead m
          length_storage := s.length_storage }) := by
      subst hm
      exact read_of_ready (r := s.ring) hc hn
    rw [Runs.run_cons, hbegin, hstart, List.replicate_succ', Runs.run_append, hread]
    generalize Runs.run step
      { s with consumer := some { numFrames := m, loads := s.blockLoads m } }
      (List.replicate (s.blockLoads m).length .consume) = t at *
    have hcommit : t.step .consume = t.consume
        ⟨m, [], [] ++ loaded s.storage (s.blockLoads m)⟩ := by simp only [step, hdone]
    rw [Runs.run_cons, Runs.run_nil, hcommit]
    constructor
    · apply ring_ext
      · show (t.fifo.finishedRead m).view = s.fifo.view.finishedRead m
        rw [hfifo]
        exact view_finishedRead hle
      · exact hstorage
      · exact hchannels
      · exact hoverruns
    · show t.delivered ++ ([] ++ loaded s.storage (s.blockLoads m)) = _
      rw [hdelivered, List.nil_append, loaded_blockLoads hle]

end Alone

end SharedRing
end Ppm.Engine

import PhonePostMix.Engine.AudioRingBuffer
import PhonePostMix.Library.Queues
import PhonePostMix.Library.Runs

/-! The ring buffer is a bounded queue of frames. -/

namespace Ppm.Engine

inductive RingCall (α : Type)
  | prepare (numChannels numFrames : ℕ) (hchannels : 0 < numChannels) (hframes : 0 < numFrames)
  | write (source : AudioBuffer α)
  | read (maxFrames : ℕ)

inductive RingReply (α : Type)
  | prepared
  | wrote (accepted : Bool)
  | got (numFrames : ℕ) (destination : List α)

namespace AudioRingBuffer
variable {α : Type}

def getFreeSpace (r : AudioRingBuffer α) : ℕ := r.fifo.getFreeSpace
def getCapacity (r : AudioRingBuffer α) : ℕ := r.fifo.totalSize
def getOverrunCount (r : AudioRingBuffer α) : ℤ := r.overruns.toInt

def call (silence : α) (r : AudioRingBuffer α) : RingCall α → RingReply α × AudioRingBuffer α
  | .prepare numChannels numFrames _ hframes =>
    (.prepared, .prepare silence numChannels numFrames hframes)
  | .write source =>
    let result := r.write source
    (.wrote result.1, result.2)
  | .read maxFrames =>
    let result := r.read maxFrames
    (.got result.1 result.2.1, result.2.2)

end AudioRingBuffer

/-- What the ring is for: a bounded queue of frames, and a count of the blocks that did not fit. -/
structure FrameQueue (α : Type) where
  channels : ℕ := 0
  queue : BoundedFifo (List α) := .empty 0
  overruns : ℕ := 0

namespace FrameQueue
variable {α : Type}

def block (channels : ℕ) (source : AudioBuffer α) : List (List α) :=
  -- frame `i` of a block has its channel `ch` from channel `min ch (sourceChannels - 1)`
  (List.range source.numSamples).map fun i =>
    (List.range channels).map fun ch => source.sample (min ch (source.numChannels - 1)) i

def call (q : FrameQueue α) : RingCall α → RingReply α × FrameQueue α
  | .prepare numChannels numFrames _ _ =>
    (.prepared, { channels := numChannels, queue := .empty (numFrames - 1) })
  | .write source =>
    if (q.queue.enqueue (block q.channels source)).1 then
      (.wrote true, { q with queue := (q.queue.enqueue (block q.channels source)).2 })
    else (.wrote false, { q with overruns := q.overruns + 1 })
  | .read maxFrames =>
    let frames := (q.queue.dequeue maxFrames).1
    (.got frames.length frames.flatten, { q with queue := (q.queue.dequeue maxFrames).2 })

end FrameQueue

namespace AudioRingBuffer
variable {α : Type}

/-- The ring holds the queue; the overrun counter is an `int`. -/
structure Refines (r : AudioRingBuffer α) (q : FrameQueue α) : Prop where
  channels : r.channels = q.channels
  capacity : r.getCapacity = q.queue.bound + 1
  frames : r.frames = q.queue.items
  overruns : r.overruns = BitVec.ofNat 32 q.overruns
  -- a ring without channels was never prepared
  unprepared : r.channels = 0 → r.getCapacity = 1

theorem refines_released : Refines (released 0 : AudioRingBuffer α) {} :=
  ⟨rfl, rfl, rfl, rfl, fun _ => rfl⟩

variable {r : AudioRingBuffer α} {q : FrameQueue α}

theorem Refines.getNumReady_eq (h : r.Refines q) : r.getNumReady = q.queue.items.length := by
  rw [← h.frames, length_frames, getNumReady]

theorem Refines.getFreeSpace_eq (h : r.Refines q) : r.getFreeSpace = q.queue.room := by
  have hready : r.fifo.numReady = q.queue.items.length := h.getNumReady_eq
  have hcapacity : r.fifo.totalSize = q.queue.bound + 1 := h.capacity
  rw [getFreeSpace, AbstractFifo.getFreeSpace, hready, hcapacity, BoundedFifo.room]
  omega

theorem write_accepted (source : AudioBuffer α) (hfit : source.numSamples = 0 ∨
      (r.channels ≠ 0 ∧ source.numSamples ≤ r.fifo.getFreeSpace)) :
    (r.write source).1 = true ∧ (r.write source).2.overruns = r.overruns := by
  unfold write
  split_ifs with hn hblock
  · exact ⟨rfl, rfl⟩
  · omega
  · exact ⟨rfl, rfl⟩

theorem Refines.fits_iff (h : r.Refines q) (source : AudioBuffer α) :
    source.numSamples ≤ q.queue.room ↔ source.numSamples = 0 ∨
      (r.channels ≠ 0 ∧ source.numSamples ≤ r.fifo.getFreeSpace) := by
  have hfree : r.fifo.getFreeSpace = q.queue.room := h.getFreeSpace_eq
  have hroom := q.queue.length_add_room
  have hcapacity := h.capacity
  have hunprepared := h.unprepared
  rw [hfree]
  omega

theorem Refines.write (h : r.Refines q) (source : AudioBuffer α) (silence : α) :
    (r.call silence (.write source)).1 = (q.call (.write source)).1 ∧
      (r.call silence (.write source)).2.Refines (q.call (.write source)).2 := by
  have hlength : (FrameQueue.block q.channels source).length = source.numSamples := by
    simp [FrameQueue.block]
  by_cases hfit : source.numSamples ≤ q.queue.room
  · obtain ⟨hok, hbound, hitems⟩ := BoundedFifo.enqueue_of_le (hlength.trans_le hfit)
    obtain ⟨haccepted, hcount⟩ := write_accepted source ((h.fits_iff source).mp hfit)
    rw [call, FrameQueue.call, if_pos hok]
    dsimp only
    rw [haccepted]
    refine ⟨rfl, ?_⟩
    by_cases hn : source.numSamples = 0
    · have hsame : (r.write source).2 = r := by rw [AudioRingBuffer.write, if_pos hn]
      have hempty : FrameQueue.block q.channels source = [] :=
        List.length_eq_zero_iff.mp (hlength.trans hn)
      rw [hsame]
      refine ⟨h.channels, h.capacity.trans (by rw [hbound]), ?_, h.overruns, h.unprepared⟩
      rw [hitems, hempty, List.append_nil]
      exact h.frames
    · obtain ⟨hc, hfree⟩ := ((h.fits_iff source).mp hfit).resolve_left hn
      obtain ⟨-, hchannels, htotal, hframes⟩ := write_fits source hn hc hfree
      refine ⟨hchannels.trans h.channels, ?_, ?_, hcount.trans h.overruns, ?_⟩
      · rw [hbound, ← h.capacity]
        exact htotal
      · rw [hframes, hitems, h.frames, h.channels]
        rfl
      · intro hzero
        exact absurd (hchannels.symm.trans hzero) hc
  · have hdiscard := mt (h.fits_iff source).mpr hfit
    have hroom : q.queue.room < (FrameQueue.block q.channels source).length := by omega
    have hrefuse := BoundedFifo.enqueue_of_lt hroom
    rw [call, FrameQueue.call, hrefuse, write_discarded source (by omega) (by omega)]
    refine ⟨rfl, h.channels, h.capacity, h.frames, ?_, h.unprepared⟩
    show r.overruns + 1 = BitVec.ofNat 32 (q.overruns + 1)
    rw [h.overruns, BitVec.ofNat_add]
    rfl

theorem overruns_read (r : AudioRingBuffer α) (maxFrames : ℕ) :
    (r.read maxFrames).2.2.overruns = r.overruns := by
  unfold read
  dsimp only
  split_ifs <;> rfl

theorem Refines.read (h : r.Refines q) (maxFrames : ℕ) (silence : α) :
    (r.call silence (.read maxFrames)).1 = (q.call (.read maxFrames)).1 ∧
      (r.call silence (.read maxFrames)).2.Refines (q.call (.read maxFrames)).2 := by
  obtain ⟨hn, hfloats, hchannels, htotal, hframes⟩ := r.read_spec maxFrames
  have hready : r.fifo.numReady = q.queue.items.length := h.getNumReady_eq
  have hroom := q.queue.length_add_room
  have hcapacity : r.fifo.totalSize = q.queue.bound + 1 := h.capacity
  -- a ring without channels holds no frames either
  have hcount : (if r.channels = 0 then 0 else min maxFrames r.fifo.numReady) =
      min maxFrames q.queue.items.length := by
    split_ifs with hc
    · have hone : r.fifo.totalSize = 1 := h.unprepared hc
      omega
    · rw [hready]
  rw [hcount] at hn hfloats hframes
  rw [h.frames, ← List.take_eq_take_min] at hfloats
  rw [h.frames, ← List.drop_eq_drop_min] at hframes
  constructor
  · show RingReply.got (r.read maxFrames).1 (r.read maxFrames).2.1 =
      .got (q.queue.items.take maxFrames).length (q.queue.items.take maxFrames).flatten
    rw [hn, hfloats, List.length_take]
  · exact ⟨hchannels.trans h.channels, htotal.trans h.capacity, hframes,
      (overruns_read r maxFrames).trans h.overruns, fun hzero =>
        htotal.trans (h.unprepared (hchannels.symm.trans hzero))⟩

theorem Refines.call (h : r.Refines q) (silence : α) (c : RingCall α) :
    (r.call silence c).1 = (q.call c).1 ∧ (r.call silence c).2.Refines (q.call c).2 := by
  cases c with
  | prepare numChannels numFrames hchannels hframes =>
    refine ⟨rfl, rfl, ?_, rfl, rfl, fun hzero => absurd hzero hchannels.ne'⟩
    exact (Nat.sub_add_cancel hframes).symm
  | write source => exact h.write source silence
  | read maxFrames => exact h.read maxFrames silence

/-- Whatever is called, the ring answers as the queue does and holds the queue's frames. -/
theorem ring_refines_fifo (silence : α) (calls : List (RingCall α)) :
    let ring := Runs.replies (AudioRingBuffer.call silence) (released 0) calls
    let fifo := Runs.replies FrameQueue.call {} calls
    ring.1 = fifo.1 ∧ ring.2.frames = fifo.2.queue.items ∧
      ring.2.getNumReady = fifo.2.queue.items.length ∧
      ring.2.getNumReady + ring.2.getFreeSpace = ring.2.getCapacity - 1 ∧
      ring.2.getCapacity - 1 = fifo.2.queue.bound ∧
      ring.2.getOverrunCount = (BitVec.ofNat 32 fifo.2.overruns).toInt ∧
      (fifo.2.overruns < 2 ^ 31 → ring.2.getOverrunCount = fifo.2.overruns) := by
  obtain ⟨hreplies, hend⟩ := Runs.replies_of_simulation
    (fun r q c (h : Refines r q) => h.call silence c) refines_released calls
  have hcapacity := hend.capacity
  have hcount : (Runs.replies (AudioRingBuffer.call silence) (released 0) calls).2.getOverrunCount =
      (BitVec.ofNat 32 (Runs.replies FrameQueue.call {} calls).2.overruns).toInt := by
    rw [getOverrunCount, hend.overruns]
  refine ⟨hreplies, hend.frames, hend.getNumReady_eq, ?_, by omega, hcount, fun hsmall => ?_⟩
  · rw [hend.getNumReady_eq, hend.getFreeSpace_eq, BoundedFifo.length_add_room, hcapacity,
      Nat.add_sub_cancel]
  · rw [hcount, BitVec.toInt_eq_toNat_cond, BitVec.toNat_ofNat, Nat.mod_eq_of_lt (by omega),
      if_pos (by omega)]

theorem overruns_discarded (source : AudioBuffer α) (hn : source.numSamples ≠ 0)
    (hblock : r.channels = 0 ∨ r.fifo.getFreeSpace < source.numSamples) (silence : α) (n : ℕ) :
    (Runs.replies (AudioRingBuffer.call silence) r (List.replicate n (.write source))).2 =
      { r with overruns := r.overruns + BitVec.ofNat 32 n } := by
  induction n with
  | zero =>
    have hzero : r.overruns + BitVec.ofNat 32 0 = r.overruns := BitVec.add_zero _
    rw [hzero]
    rfl
  | succ n ih =>
    rw [List.replicate_succ', Runs.replies_append, ih]
    have hdiscard := write_discarded (r := { r with overruns := r.overruns + BitVec.ofNat 32 n })
      source hn hblock
    show (AudioRingBuffer.write _ source).2 = _
    rw [hdiscard, BitVec.ofNat_add, ← BitVec.add_assoc]
    rfl

def tooLong : AudioBuffer ℕ := ⟨2, 512, fun _ _ => 0, Nat.two_pos⟩

def overrun (n : ℕ) : AudioRingBuffer ℕ :=
  (Runs.replies (AudioRingBuffer.call 0) (released 0)
    (.prepare 2 256 Nat.two_pos (by decide) :: List.replicate n (.write tooLong))).2

theorem overrun_eq (n : ℕ) : overrun n =
    { prepare 0 2 256 (by decide) with overruns := BitVec.ofNat 32 n } := by
  have hdiscarded := overruns_discarded (r := prepare 0 2 256 (by decide)) tooLong (by decide)
    (.inr (by decide)) 0 n
  refine hdiscarded.trans ?_
  have hsum : (prepare 0 2 256 (by decide) : AudioRingBuffer ℕ).overruns + BitVec.ofNat 32 n =
      BitVec.ofNat 32 n := BitVec.zero_add _
  simp only [hsum]

theorem overrun_write (n : ℕ) : ((overrun n).write tooLong).1 = false ∧
    ((overrun n).write tooLong).2.overruns = BitVec.ofNat 32 n + 1 := by
  have hshort : (prepare 0 2 256 (by decide) : AudioRingBuffer ℕ).fifo.getFreeSpace <
      tooLong.numSamples := by decide
  have hdiscard := write_discarded (r := { prepare 0 2 256 (by decide) with
    overruns := BitVec.ofNat 32 n }) tooLong (by decide) (.inr hshort)
  rw [overrun_eq, hdiscard]
  exact ⟨rfl, rfl⟩

theorem overrun_count_wraps : ((overrun (2 ^ 31 - 1)).write tooLong).1 = false ∧
    ((overrun (2 ^ 31 - 1)).write tooLong).2.getOverrunCount ≠
      (overrun (2 ^ 31 - 1)).getOverrunCount + 1 := by
  obtain ⟨hrefused, hcount⟩ := overrun_write (2 ^ 31 - 1)
  refine ⟨hrefused, ?_⟩
  rw [getOverrunCount, getOverrunCount, hcount, overrun_eq]
  decide

end AudioRingBuffer
end Ppm.Engine

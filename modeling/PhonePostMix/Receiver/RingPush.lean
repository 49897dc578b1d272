import PhonePostMix.Receiver.Player

/-! The frames the page has buffered, and what a push makes of them. -/

namespace Ppm.Receiver
namespace Ring

structure Indexed (g : Ring) : Prop where
  write_nonneg : 0 ≤ g.write
  write_lt : g.write < ringFrames
  read_nonneg : 0 ≤ g.read
  read_lt : g.read < ringFrames

def frame (g : Ring) (i : ℕ) : Sample × Sample :=
  (g.l ((g.read + i) % ringFrames), g.r ((g.read + i) % ringFrames))

def frames (g : Ring) : List (Sample × Sample) := (List.range g.fill.toNat).map g.frame

variable {g : Ring}

theorem Indexed.valid (hg : g.Indexed) : g.Valid := by
  refine ⟨hg.write_nonneg, hg.write_lt, ?_, hg.read_lt⟩
  have hread := hg.read_nonneg
  unfold ringFrames
  omega

theorem length_frames (g : Ring) : g.frames.length = g.fill.toNat := by
  rw [frames, List.length_map, List.length_range]

theorem frames_of_zero (hwrite : g.write = 0) (hread : g.read = 0) : g.frames = [] := by
  rw [frames, fill_of_zero hwrite hread]
  rfl

section Next

theorem read_next (hg : g.Indexed) : g.next.read = (g.read + 1) % ringFrames :=
  Int.tmod_eq_emod_of_nonneg (by have hread := hg.read_nonneg; omega)

theorem indexed_next (hg : g.Indexed) : g.next.Indexed := by
  refine ⟨hg.write_nonneg, hg.write_lt, ?_, ?_⟩ <;> rw [read_next hg] <;> unfold ringFrames <;>
    omega

theorem frames_next (hg : g.Indexed) (h : 1 ≤ g.fill) :
    g.frames = (g.l g.read, g.r g.read) :: g.next.frames := by
  have hfill : g.fill.toNat = g.next.fill.toNat + 1 := by
    rw [fill_next hg.valid h]
    omega
  have hslot (i : ℕ) : (g.read + (i + 1 : ℕ)) % ringFrames = (g.next.read + i) % ringFrames := by
    rw [read_next hg, Int.emod_add_emod]
    push_cast
    rw [add_assoc, add_comm (1 : ℤ)]
  have hread : (g.read + (0 : ℕ)) % ringFrames = g.read := by
    rw [Nat.cast_zero, add_zero]
    exact Int.emod_eq_of_lt hg.read_nonneg hg.read_lt
  rw [frames, hfill, List.range_succ_eq_map, List.map_cons, List.map_map, frame, hread, frames]
  congr 1
  apply List.map_congr_left
  intro i _
  show (g.l _, g.r _) = (g.l _, g.r _)
  rw [hslot]

end Next

section Put

theorem write_put (hg : g.Valid) (left right : Sample) :
    (g.put left right).write = (g.write + 1) % ringFrames :=
  Int.tmod_eq_emod_of_nonneg (by have hpos := hg.write_nonneg; omega)

theorem indexed_put (hg : g.Indexed) (left right : Sample) : (g.put left right).Indexed :=
  have hvalid := valid_put hg.valid left right
  ⟨hvalid.write_nonneg, hvalid.write_lt, hg.read_nonneg, hg.read_lt⟩

theorem frame_put_of_lt (hg : g.Indexed) (left right : Sample) {i : ℕ} (hi : (i : ℤ) < g.fill) :
    (g.put left right).frame i = g.frame i := by
  have hne : (g.read + i) % ringFrames ≠ g.write := by
    rw [fill_eq hg.valid] at hi
    obtain ⟨hwrite, hwrite', hread, hread'⟩ := hg
    unfold ringFrames at *
    omega
  have hread : (g.put left right).read = g.read := rfl
  show (Function.update g.l g.write left _, Function.update g.r g.write right _) = _
  rw [hread, Function.update_of_ne hne, Function.update_of_ne hne, frame]

theorem frame_put_fill (hg : g.Indexed) (left right : Sample) :
    (g.put left right).frame g.fill.toNat = (left, right) := by
  have hslot : (g.read + (g.fill.toNat : ℤ)) % ringFrames = g.write := by
    rw [Int.toNat_of_nonneg (fill_nonneg hg.valid), fill_eq hg.valid]
    obtain ⟨hwrite, hwrite', hread, hread'⟩ := hg
    unfold ringFrames at *
    omega
  have hread : (g.put left right).read = g.read := rfl
  show (Function.update g.l g.write left _, Function.update g.r g.write right _) = _
  rw [hread, hslot, Function.update_self, Function.update_self]

theorem frames_put (hg : g.Indexed) (left right : Sample) (h : g.fill + 1 < ringFrames) :
    (g.put left right).frames = g.frames ++ [(left, right)] := by
  have hnonneg := fill_nonneg hg.valid
  have hfill : (g.fill + 1).toNat = g.fill.toNat + 1 := by omega
  rw [frames, fill_put hg.valid left right h, hfill, List.range_succ, List.map_append,
    List.map_singleton, frame_put_fill hg, frames]
  congr 1
  apply List.map_congr_left
  intro i hi
  have hlt := List.mem_range.mp hi
  exact frame_put_of_lt hg left right (by omega)

end Put

section Push
variable (left right : ℕ → Sample)

theorem indexed_push (hg : g.Indexed) (count : ℕ) : (g.push left right count).Indexed := by
  induction count with
  | zero => exact hg
  | succ n ih =>
    rw [push_succ]
    exact indexed_put ih _ _

theorem read_push (count : ℕ) : (g.push left right count).read = g.read := by
  induction count with
  | zero => rfl
  | succ n ih =>
    rw [push_succ]
    exact ih

theorem write_push (hg : g.Valid) (count : ℕ) :
    (g.push left right count).write = (g.write + count) % ringFrames := by
  induction count with
  | zero =>
    have hzero : g.write % ringFrames = g.write := Int.emod_eq_of_lt hg.write_nonneg hg.write_lt
    simp [push, hzero]
  | succ n ih =>
    rw [push_succ, write_put (valid_push hg left right n), ih, Int.emod_add_emod]
    push_cast
    rw [add_assoc]

theorem fill_push_mod (hg : g.Valid) (count : ℕ) :
    (g.push left right count).fill = (g.fill + count) % ringFrames := by
  rw [fill_eq (valid_push hg left right count), write_push left right hg, read_push, fill_eq hg,
    Int.emod_sub_emod, Int.emod_add_emod]
  congr 1
  ring

def pushed (count : ℕ) : List (Sample × Sample) := (List.range count).map fun i => (left i, right i)

theorem frames_push (hg : g.Indexed) (count : ℕ) (h : g.fill + count < ringFrames) :
    (g.push left right count).frames = g.frames ++ pushed left right count := by
  induction count with
  | zero => simp [push, pushed]
  | succ n ih =>
    push_cast at h
    have hfill := fill_push hg.valid left right n (by omega)
    rw [push_succ, frames_put (indexed_push left right hg n) _ _ (by omega), ih (by omega),
      List.append_assoc, pushed, pushed, List.range_succ, List.map_append, List.map_singleton]

end Push

section DiscardTo
variable (wanted : ℚ)

theorem read_discardTo_mod :
    (g.discardTo wanted).read % ringFrames = (g.write - ⌊wanted⌋) % ringFrames := by
  have hself (a : ℤ) : a.tmod ringFrames % ringFrames = a % ringFrames := by
    rw [Int.tmod_def, Int.sub_mul_emod_self_left]
  rw [discardTo, hself, add_sub_right_comm, Int.add_emod_right]

theorem fill_discardTo (hg : g.Valid) : (g.discardTo wanted).fill = ⌊wanted⌋ % ringFrames := by
  rw [fill_eq (valid_discardTo hg wanted), Int.sub_emod, read_discardTo_mod, ← Int.sub_emod]
  congr 1
  show g.write - (g.write - ⌊wanted⌋) = _
  ring

theorem tmod_of_neg {a : ℤ} (h : a < 0) : a.tmod ringFrames = -(-a % ringFrames) := by
  rw [← Int.tmod_eq_emod_of_nonneg (by omega : 0 ≤ -a), Int.neg_tmod, neg_neg]

theorem indexed_discardTo_iff (hg : g.Indexed) : (g.discardTo wanted).Indexed ↔
    ⌊wanted⌋ ≤ g.write + ringFrames ∨ ⌊wanted⌋ % ringFrames = g.write := by
  obtain ⟨hwrite, hwrite', -, -⟩ := hg
  have hread : (g.discardTo wanted).read = (g.write + ringFrames - ⌊wanted⌋).tmod ringFrames := rfl
  constructor
  · rintro ⟨-, -, hnonneg, -⟩
    by_cases hreach : ⌊wanted⌋ ≤ g.write + ringFrames
    · exact .inl hreach
    · rw [hread, tmod_of_neg (by omega)] at hnonneg
      right
      unfold ringFrames at *
      omega
  · intro h
    refine ⟨hwrite, hwrite', ?_, Int.tmod_lt_of_pos _ (by decide)⟩
    rw [hread]
    by_cases hreach : ⌊wanted⌋ ≤ g.write + ringFrames
    · exact Int.tmod_nonneg _ (by omega)
    · rw [tmod_of_neg (by omega)]
      have hslot := h.resolve_left hreach
      unfold ringFrames at *
      omega

theorem slot_discardTo (hg : g.Indexed) (hcut : ⌊wanted⌋ % ringFrames ≤ g.fill) (i : ℕ) :
    ((g.discardTo wanted).read + i) % ringFrames =
      (g.read + ((g.fill - ⌊wanted⌋ % ringFrames).toNat + i : ℕ)) % ringFrames := by
  rw [Int.add_emod, read_discardTo_mod, ← Int.add_emod]
  push_cast
  rw [Int.toNat_of_nonneg (by omega), fill_eq hg.valid]
  unfold ringFrames
  omega

theorem frames_discardTo (hg : g.Indexed) (hcut : ⌊wanted⌋ % ringFrames ≤ g.fill) :
    (g.discardTo wanted).frames =
      g.frames.drop (g.fill - ⌊wanted⌋ % ringFrames).toNat := by
  have hfill := fill_discardTo wanted hg.valid
  have hkept : 0 ≤ ⌊wanted⌋ % ringFrames := Int.emod_nonneg _ (by decide)
  apply List.ext_getElem
  · rw [List.length_drop, length_frames, length_frames, hfill]
    omega
  · intro i hi hi'
    rw [length_frames, hfill] at hi
    rw [List.getElem_drop]
    simp only [frames, List.getElem_map, List.getElem_range, frame, slot_discardTo wanted hg hcut]
    rfl

end DiscardTo
end Ring

namespace Player
variable {p : Player} {T : TargetFrames} {left right : ℕ → Sample} {count : ℕ}

/-- What a push at the target `T` has to respect. -/
structure Disciplined (T : TargetFrames) (before after : Player) (left right : ℕ → Sample)
    (count : ℕ) : Prop where
  indexed : after.ring.Indexed
  suffix : after.ring.frames <:+ before.ring.frames ++ Ring.pushed left right count
  fill_le : after.ring.fill ≤ max (min (ringFrames - 2) ⌊T.thrice⌋) (⌊T.frames⌋ + count)
  -- the fill is the frames kept and the frames pushed
  unread : ∃ kept : ℕ, kept ≤ before.ring.fill ∧ after.ring.fill = kept + count

/-- No cut, or a cut to a target that is no further back than the oldest buffered frame and
leaves room for the packet. -/
def SafePush (p : Player) (T : TargetFrames) (count : ℕ) : Prop :=
  p.ring.fill + count ≤ T.limit ∨
    0 ≤ ⌊T.frames⌋ ∧
    (⌊T.frames⌋ ≤ p.ring.write + ringFrames ∨ ⌊T.frames⌋ % ringFrames = p.ring.write) ∧
    ⌊T.frames⌋ % ringFrames ≤ p.ring.fill ∧
    ⌊T.frames⌋ % ringFrames + count < ringFrames

instance (p : Player) (T : TargetFrames) (count : ℕ) : Decidable (p.SafePush T count) :=
  inferInstanceAs (Decidable (_ ∨ _))

section Frame

@[simp] theorem resampler_ringPush : (p.ringPush T left right count).resampler = p.resampler := by
  unfold ringPush
  dsimp only
  split_ifs <;> rfl

@[simp] theorem conceal_ringPush : (p.ringPush T left right count).conceal = p.conceal := by
  unfold ringPush
  dsimp only
  split_ifs <;> rfl

@[simp] theorem drift_ringPush : (p.ringPush T left right count).drift = p.drift := by
  unfold ringPush
  dsimp only
  split_ifs <;> rfl

@[simp] theorem target_ringPush : (p.ringPush T left right count).target = p.target := by
  unfold ringPush
  dsimp only
  split_ifs <;> rfl

@[simp] theorem targetFrames_ringPush :
    (p.ringPush T left right count).targetFrames = p.targetFrames := by
  unfold ringPush
  dsimp only
  split_ifs <;> rfl

end Frame

theorem ringPush_of_le (h : p.ring.fill + count ≤ T.limit) (left right : ℕ → Sample) :
    (p.ringPush T left right count).ring = p.ring.push left right count := by
  show (if T.limit < p.ring.fill + count then _ else p).ring.push left right count = _
  rw [if_neg (not_lt.mpr h)]

theorem ringPush_of_lt (h : T.limit < p.ring.fill + count) (left right : ℕ → Sample) :
    (p.ringPush T left right count).ring = (p.ring.discardTo T.frames).push left right count := by
  show (if T.limit < p.ring.fill + count then _ else p).ring.push left right count = _
  rw [if_pos h]

theorem fill_ringPush_of_lt (hring : p.ring.Valid) (h : T.limit < p.ring.fill + count)
    (left right : ℕ → Sample) : (p.ringPush T left right count).ring.fill =
      (⌊T.frames⌋ % ringFrames + count) % ringFrames := by
  rw [ringPush_of_lt h, Ring.fill_push_mod left right (Ring.valid_discardTo hring _),
    Ring.fill_discardTo _ hring]

theorem disciplined_of_le (hring : p.ring.Indexed) (h : p.ring.fill + count ≤ T.limit)
    (left right : ℕ → Sample) : Disciplined T p (p.ringPush T left right count) left right count := by
  have hlt : p.ring.fill + count < ringFrames := by
    have hmin : T.limit ≤ ringFrames - 2 := min_le_left _ _
    omega
  have hfill := Ring.fill_push hring.valid left right count hlt
  have hnonneg := Ring.fill_nonneg hring.valid
  have hpush := ringPush_of_le h left right
  constructor
  · rw [hpush]
    exact Ring.indexed_push left right hring count
  · have hframes := Ring.frames_push left right hring count hlt
    rw [hpush]
    exact ⟨[], hframes⟩
  · rw [hpush, hfill]
    exact le_max_of_le_left h
  · refine ⟨p.ring.fill.toNat, by omega, ?_⟩
    rw [hpush, hfill, Int.toNat_of_nonneg hnonneg]

theorem disciplined_of_cut (hring : p.ring.Indexed) (h : T.limit < p.ring.fill + count)
    (hsafe : p.SafePush T count) (left right : ℕ → Sample) :
    Disciplined T p (p.ringPush T left right count) left right count := by
  obtain hle | ⟨htarget, hreach, hkept, hroom⟩ := hsafe
  · omega
  have hcut := (Ring.indexed_discardTo_iff T.frames hring).mpr hreach
  have hfill := Ring.fill_discardTo T.frames hring.valid
  have hpush := ringPush_of_lt h left right
  have hnonneg : 0 ≤ ⌊T.frames⌋ % ringFrames := Int.emod_nonneg _ (by decide)
  have hfillPush := Ring.fill_push hcut.valid left right count (by omega)
  constructor
  · rw [hpush]
    exact Ring.indexed_push left right hcut count
  · rw [hpush, Ring.frames_push left right hcut count (by omega),
      Ring.frames_discardTo _ hring hkept]
    obtain ⟨dropped, hdropped⟩ :=
      List.drop_suffix (p.ring.fill - ⌊T.frames⌋ % ringFrames).toNat p.ring.frames
    refine ⟨dropped, ?_⟩
    rw [← List.append_assoc, hdropped]
  · rw [hpush, hfillPush, hfill]
    apply le_max_of_le_right
    unfold ringFrames at *
    omega
  · refine ⟨(⌊T.frames⌋ % ringFrames).toNat, by omega, ?_⟩
    rw [hpush, hfillPush, hfill, Int.toNat_of_nonneg hnonneg]

theorem SafePush.disciplined (hring : p.ring.Indexed) (hsafe : p.SafePush T count)
    (left right : ℕ → Sample) :
    Disciplined T p (p.ringPush T left right count) left right count := by
  rcases le_or_gt (p.ring.fill + count) T.limit with hle | hlt
  · exact disciplined_of_le hring hle left right
  · exact disciplined_of_cut hring hlt hsafe left right

def Roomy (p : Player) (count : ℕ) : Prop :=
  (count : ℚ) ≤ 2 * p.targetFrames ∧ p.targetFrames + count < ringFrames - 2

theorem Roomy.safePush (hring : p.ring.Indexed) (hroomy : p.Roomy count)
    (htarget : 0 ≤ p.targetFrames) : p.SafePush p.exactTarget count := by
  obtain ⟨htwice, hroom⟩ := hroomy
  rcases le_or_gt (p.ring.fill + count) p.exactTarget.limit with hle | hlt
  · exact .inl hle
  have hfloor : 0 ≤ ⌊p.targetFrames⌋ := Int.floor_nonneg.mpr htarget
  have hbelow : (⌊p.targetFrames⌋ : ℚ) ≤ p.targetFrames := Int.floor_le _
  have hfits : ⌊p.targetFrames⌋ + count < ringFrames - 2 := by
    have hcast : (⌊p.targetFrames⌋ : ℚ) + count < ringFrames - 2 := by linarith
    exact_mod_cast hcast
  have hbuffered : ⌊p.targetFrames⌋ ≤ p.ring.fill := by
    rcases min_lt_iff.mp hlt with hfull | hthree
    · omega
    · have hcast : p.targetFrames * 3 < p.ring.fill + count := by
        exact_mod_cast Int.floor_lt.mp hthree
      have hmore : (⌊p.targetFrames⌋ : ℚ) ≤ p.ring.fill := by linarith
      exact_mod_cast hmore
  have hself : ⌊p.targetFrames⌋ % ringFrames = ⌊p.targetFrames⌋ :=
    Int.emod_eq_of_lt hfloor (by omega)
  have hframes : p.exactTarget.frames = p.targetFrames := rfl
  rw [SafePush, hframes, hself]
  refine .inr ⟨hfloor, .inl ?_, hbuffered, by omega⟩
  have hwrite := hring.write_nonneg
  omega

theorem safePush_of_disciplined (hring : p.ring.Indexed) (h : T.limit < p.ring.fill + count)
    (hcount : count ≤ 65535)
    (hdisciplined : Disciplined T p (p.ringPush T left right count) left right count) :
    p.SafePush T count := by
  obtain ⟨hindexed, -, hbound, kept, hkept, hunread⟩ := hdisciplined
  have hmod : 0 ≤ ⌊T.frames⌋ % ringFrames := Int.emod_nonneg _ (by decide)
  have hmod' : ⌊T.frames⌋ % ringFrames < ringFrames := Int.emod_lt_of_pos _ (by decide)
  have hfill := fill_ringPush_of_lt hring.valid h left right
  have hcut : (p.ring.discardTo T.frames).Indexed := by
    rw [ringPush_of_lt h] at hindexed
    have hread := Ring.read_push left right (g := p.ring.discardTo T.frames) count
    exact ⟨hring.write_nonneg, hring.write_lt, hread ▸ hindexed.read_nonneg,
      hread ▸ hindexed.read_lt⟩
  -- a sum of target and packet over the size of the ring would show fewer frames than pushed
  have hroom : ⌊T.frames⌋ % ringFrames + count < ringFrames := by
    unfold ringFrames at *
    omega
  rw [Int.emod_eq_of_lt (by omega) hroom] at hfill
  refine .inr ⟨?_, (Ring.indexed_discardTo_iff _ hring).mp hcut, by omega, hroom⟩
  by_contra hnegative
  have htarget : T.frames < 0 := Int.floor_lt.mp (not_le.mp hnegative)
  have hlimit : ⌊T.thrice⌋ < 0 := Int.floor_lt.mpr (by exact_mod_cast T.thrice_neg htarget)
  omega

theorem ringPush_disciplined_iff (hring : p.ring.Indexed) (hcount : count ≤ 65535)
    (left right : ℕ → Sample) :
    Disciplined T p (p.ringPush T left right count) left right count ↔ p.SafePush T count := by
  refine ⟨fun hdisciplined => ?_, fun hsafe => hsafe.disciplined hring left right⟩
  rcases le_or_gt (p.ring.fill + count) T.limit with hle | hlt
  · exact .inl hle
  · exact safePush_of_disciplined hring hlt hcount hdisciplined

def belowTarget : TargetFrames where
  -- 290 ms at 48 kHz: the page rounds the products to just below 13920 and 41760
  frames := 13920 - 1 / 2 ^ 39
  thrice := 41760 - 1 / 2 ^ 37
  thrice_neg h := by norm_num at h

theorem floor_belowTarget : ⌊belowTarget.frames⌋ = 13919 ∧ belowTarget.limit = 41759 := by
  have hthrice : ⌊belowTarget.thrice⌋ = 41759 := by
    rw [Int.floor_eq_iff]
    norm_num [belowTarget]
  refine ⟨?_, ?_⟩
  · rw [Int.floor_eq_iff]
    norm_num [belowTarget]
  · rw [TargetFrames.limit, hthrice]
    decide

def buffering : Player := { ring := { write := 20000 } }

theorem ringPush_disciplined_cut :
    Disciplined belowTarget buffering
      (buffering.ringPush belowTarget (fun i => .number i) (fun i => .number (-i)) 21760)
      (fun i => .number i) (fun i => .number (-i)) 21760 := by
  obtain ⟨hfloor, hlimit⟩ := floor_belowTarget
  refine (ringPush_disciplined_iff (by constructor <;> decide) (by decide) _ _).mpr ?_
  rw [SafePush, hfloor, hlimit]
  exact .inr (by decide)

def slow : Player :=
  -- a slow stream with nothing buffered, as its first packet arrives
  { stream := { sampleRate := 8000 } }

theorem targetFrames_slow : slow.targetFrames = 1920 := by
  have htarget : slow.effectiveTargetMs = 240 := by
    show max (240 : ℚ) ((0 : ℤ) : ℚ) = 240
    norm_num
  rw [targetFrames, htarget]
  norm_num [slow]

theorem limit_slow : slow.exactTarget.limit = 5760 := by
  have hthree : ⌊slow.targetFrames * 3⌋ = 5760 := by
    rw [targetFrames_slow]
    norm_num
  show min (ringFrames - 2) ⌊slow.targetFrames * 3⌋ = _
  rw [hthree]
  decide

/-- The cut leaves 1920 frames that were never written in front of the packet. -/
theorem ringPush_undisciplined :
    slow.ring.Indexed ∧ ¬ Disciplined slow.exactTarget slow
      (slow.ringPush slow.exactTarget (fun _ => .number 0) (fun _ => .number 0) 16384)
      (fun _ => .number 0) (fun _ => .number 0) 16384 := by
  have hindexed : slow.ring.Indexed := by constructor <;> decide
  refine ⟨hindexed, fun h => ?_⟩
  obtain ⟨kept, hkept, hunread⟩ := h.unread
  have hfill : slow.ring.fill = 0 := Ring.fill_of_zero rfl rfl
  have hcut : slow.exactTarget.limit < slow.ring.fill + (16384 : ℕ) := by
    rw [limit_slow, hfill]
    decide
  have htarget : ⌊slow.exactTarget.frames⌋ = 1920 := by
    show ⌊slow.targetFrames⌋ = _
    rw [targetFrames_slow]
    norm_num
  rw [fill_ringPush_of_lt hindexed.valid hcut, htarget] at hunread
  rw [hfill] at hkept
  unfold ringFrames at hunread
  omega

end Player
end Ppm.Receiver

import PhonePostMix.Library.Runs
import PhonePostMix.Receiver.RingPush
import PhonePostMix.Receiver.Validation

/-! Control messages between packets, and the configurations of the buffered frames. -/

namespace Ppm.Receiver

inductive Json
  | undefined
  | null
  | bool (b : Bool)
  | number (q : ℚ)
  | string (s : String)
  | object
  deriving DecidableEq, Repr

inductive MessageType
  | hello
  | config
  | state
  | bye
  | unknown
  deriving DecidableEq, Repr

structure Message where
  type : MessageType
  protocol : Json := .undefined
  sampleRate : Json := .undefined
  channels : Json := .undefined
  deriving DecidableEq, Repr

namespace Player

def assignNumber (value : Json) (old : ℚ) : ℚ :=
  -- `if (typeof value === 'number')` before an assignment
  match value with
  | .number q => q
  | _ => old

def handleControl (message : Message) (p : Player) : Player :=
  match message.type with
  | .hello | .config =>
    if message.protocol ≠ .number version then p
    else
      let p :=
        { p with
          stream :=
            { p.stream with
              sampleRate := assignNumber message.sampleRate p.stream.sampleRate
              channels := assignNumber message.channels p.stream.channels } }
      if message.type = .config then p.ringReset else p
  -- these touch `hostPlaying` and the status line only
  | .state | .bye | .unknown => p

theorem handleControl_spec (message : Message) (p : Player) :
    (p.handleControl message).stream.configEpoch = p.stream.configEpoch ∧
      (p.handleControl message).stream.format = p.stream.format ∧
      ((p.handleControl message).ring = p.ring ∨
        (p.handleControl message).ring = p.ringReset.ring) := by
  by_cases hconfigures : message.type = .hello ∨ message.type = .config
  · by_cases hprotocol : message.protocol ≠ .number version
    · rcases hconfigures with h | h <;> simp [handleControl, h, hprotocol]
    · rcases hconfigures with h | h <;> simp [handleControl, h, hprotocol, ringReset]
  · obtain ⟨hhello, hconfig⟩ := not_or.mp hconfigures
    have hkept : p.handleControl message = p := by
      unfold handleControl
      split <;> first | rfl | contradiction
    simp [hkept]

end Player

structure Configuration where
  configEpoch : ℕ
  sampleRate : ℕ
  channels : ℕ
  format : ℕ
  deriving DecidableEq, Repr

def PacketHeader.configuration (h : PacketHeader) : Configuration where
  configEpoch := h.epoch
  sampleRate := h.sampleRate
  channels := h.channels
  format := h.format

namespace Ring
variable {g : Ring}

def slots (g : Ring) : List ℤ := (List.range g.fill.toNat).map fun i : ℕ => (g.read + i) % ringFrames

def ahead (g : Ring) (count : ℕ) : List ℤ :=
  (List.range count).map fun i : ℕ => (g.write + i) % ringFrames

def Reset (g : Ring) : Prop := g.read = 0 ∧ g.write = 0

instance (g : Ring) : Decidable g.Reset := inferInstanceAs (Decidable (_ ∧ _))

theorem slots_of_reset (h : g.Reset) : g.slots = [] := by
  rw [slots, fill_of_zero h.2 h.1]
  rfl

theorem indexed_of_reset (h : g.Reset) : g.Indexed := by
  obtain ⟨hread, hwrite⟩ := h
  constructor <;> simp [hread, hwrite, ringFrames]

theorem mem_slots_push (hg : g.Indexed) (left right : ℕ → Sample) {count : ℕ}
    (h : g.fill + count < ringFrames) {s : ℤ} (hs : s ∈ (g.push left right count).slots) :
    s ∈ g.slots ∨ s ∈ g.ahead count := by
  obtain ⟨i, hi, rfl⟩ := List.mem_map.mp hs
  rw [fill_push hg.valid left right count h, List.mem_range] at hi
  rw [read_push]
  by_cases hold : (i : ℤ) < g.fill
  · exact .inl (List.mem_map.mpr ⟨i, List.mem_range.mpr (by omega), rfl⟩)
  · right
    have hnonneg := fill_nonneg hg.valid
    refine List.mem_map.mpr ⟨i - g.fill.toNat, List.mem_range.mpr (by omega), ?_⟩
    rw [Nat.cast_sub (by omega), Int.toNat_of_nonneg hnonneg, fill_eq hg.valid]
    unfold ringFrames
    omega

theorem written_push (hg : g.Valid) (left right : ℕ → Sample) {count : ℕ} (h : count < ringFrames)
    (s : ℤ) : ((g.push left right count).l s, (g.push left right count).r s) =
      if s ∈ g.ahead count then
        (left ((s - g.write) % ringFrames).toNat, right ((s - g.write) % ringFrames).toNat)
      else (g.l s, g.r s) := by
  induction count with
  | zero => rfl
  | succ n ih =>
    push_cast at h
    have hbefore := ih (by omega)
    have hwrite := write_push left right hg n
    have hahead : s ∈ g.ahead (n + 1) ↔ s ∈ g.ahead n ∨ s = (g.write + n) % ringFrames := by
      simp [ahead, List.range_succ]
    rw [push_succ]
    by_cases hs : s = (g.write + n) % ringFrames
    · have hplace : ((s - g.write) % ringFrames).toNat = n := by
        rw [hs, Int.emod_sub_emod, add_sub_cancel_left, Int.emod_eq_of_lt (by omega) (by omega)]
        exact Int.toNat_natCast n
      rw [if_pos (hahead.mpr (.inr hs)), hplace]
      simp only [put, hwrite, hs, Function.update_self]
    · rw [if_congr (hahead.trans (or_iff_left hs)) rfl rfl, ← hbefore]
      simp only [put, hwrite, Function.update_of_ne hs]

theorem mem_slots_discardTo (hg : g.Indexed) {wanted : ℚ}
    (hcut : ⌊wanted⌋ % ringFrames ≤ g.fill) {s : ℤ} (hs : s ∈ (g.discardTo wanted).slots) :
    s ∈ g.slots := by
  obtain ⟨i, hi, rfl⟩ := List.mem_map.mp hs
  rw [fill_discardTo wanted hg.valid, List.mem_range] at hi
  have hkept : 0 ≤ ⌊wanted⌋ % ringFrames := Int.emod_nonneg _ (by decide)
  refine List.mem_map.mpr ⟨(g.fill - ⌊wanted⌋ % ringFrames).toNat + i, ?_, ?_⟩
  · exact List.mem_range.mpr (by omega)
  · rw [slot_discardTo wanted hg hcut]

end Ring

inductive Received
  | packet (buffer : List UInt8) (wellFormed : WellFormed buffer)
  | control (message : Message)

structure Frame where
  configuration : Configuration
  left : Sample
  right : Sample
  deriving DecidableEq, Repr

/-- The page, with the frame each slot was last written from and the configuration of the last
packet. -/
structure Traced where
  player : Player := {}
  origin : ℤ → Option Frame := fun _ => none
  last : Option Configuration := none

namespace Traced

def written (buffer : List UInt8) (p : Player) (s : ℤ) : Frame where
  -- frame `i` of the packet goes `i` slots behind `write`
  configuration := (readHeader buffer).configuration
  left := (p.decoding buffer).2.l ((s - (p.atDecode buffer).ring.write) % ringFrames).toNat
  right := (p.decoding buffer).2.r ((s - (p.atDecode buffer).ring.write) % ringFrames).toNat

def step (T : Player → TargetFrames) (t : Traced) : Received → Traced
  | .packet buffer _ =>
    let h := readHeader buffer
    { player := t.player.handlePacket T buffer
      origin := fun s =>
        if s ∈ (t.player.atDecode buffer).ring.ahead h.frames then some (written buffer t.player s)
        else t.origin s
      last := some h.configuration }
  | .control message => { t with player := t.player.handleControl message }

def Holds (t : Traced) (c : Configuration) (s : ℤ) : Prop :=
  t.origin s = some ⟨c, t.player.ring.l s, t.player.ring.r s⟩

/-- All buffered frames come from packets of one configuration. -/
def Unmixed (t : Traced) : Prop := ∃ c, ∀ s ∈ t.player.ring.slots, t.Holds c s

/-- A packet of another configuration than the last one is decoded with the ring reset. -/
def ResetFirst (t : Traced) : Received → Prop
  | .packet buffer _ => ∀ c ∈ t.last, (readHeader buffer).configuration ≠ c →
      (t.player.atDecode buffer).ring.Reset
  | .control _ => True

def Unchanged (h : PacketHeader) (p : Player) : Prop :=
  (h.epoch : ℤ) = p.stream.configEpoch ∧ (h.sampleRate : ℚ) = p.stream.sampleRate ∧
    (h.channels : ℚ) = p.stream.channels ∧ h.format = p.stream.format

def Declared (t : Traced) : Prop :=
  ∀ c ∈ t.last, t.player.stream.sampleRate = c.sampleRate ∧ t.player.stream.channels = c.channels

/-- A packet that does not reset the ring finds it reset already or meets the record of the last
packet, and its push cuts nothing or cuts back to buffered frames only. -/
def Continues (T : Player → TargetFrames) (t : Traced) : Received → Prop
  | .packet buffer _ =>
    (Unchanged (readHeader buffer) t.player → (readHeader buffer).flags &&& 1 = 0 →
      ¬ t.player.ring.Reset → t.Declared) ∧
    (t.player.atPush buffer).SafePush (T (t.player.atPush buffer)) (readHeader buffer).frames
  | .control _ => True

instance (h : PacketHeader) (p : Player) : Decidable (Unchanged h p) :=
  inferInstanceAs (Decidable (_ ∧ _))

instance (t : Traced) : Decidable t.Declared := inferInstanceAs (Decidable (∀ c ∈ t.last, _))

instance (T : Player → TargetFrames) (t : Traced) : DecidablePred (t.Continues T) := fun e => by
  cases e <;> (unfold Continues; infer_instance)

structure Sound (t : Traced) : Prop where
  indexed : t.player.ring.Indexed
  empty : t.last = none → t.player.ring.Reset
  record : ∀ c ∈ t.last, t.player.stream.configEpoch = c.configEpoch ∧
    t.player.stream.format = c.format
  holds : ∀ c ∈ t.last, ∀ s ∈ t.player.ring.slots, t.Holds c s

theorem Sound.unmixed {t : Traced} (h : t.Sound) : t.Unmixed := by
  rcases hlast : t.last with _ | c
  · refine ⟨⟨0, 0, 0, 0⟩, ?_⟩
    rw [Ring.slots_of_reset (h.empty hlast)]
    simp
  · exact ⟨c, h.holds c hlast⟩

theorem sound_new : Sound {} := by
  refine ⟨by constructor <;> decide, fun _ => ⟨rfl, rfl⟩, ?_, ?_⟩ <;> intro c h <;> cases h

section Packet
variable {buffer : List UInt8} (p : Player)

theorem configure_of_unchanged {h : PacketHeader} (hsame : Unchanged h p) : p.configure h = p := by
  obtain ⟨hepoch, hrate, hchannels, hformat⟩ := hsame
  rw [Player.configure, if_neg]
  simp [hepoch, hrate, hchannels, hformat]

theorem configure_changed {h : PacketHeader} (hchanged : ¬ Unchanged h p) :
    p.configure h =
      { p with
        stream :=
          { configEpoch := h.epoch
            sampleRate := h.sampleRate
            channels := h.channels
            format := h.format
            framesPerPacket := h.frames } }.ringReset := by
  rw [Player.configure, if_pos]
  by_contra hsame
  simp only [not_or, not_not] at hsame
  exact hchanged hsame

theorem unchanged_configure (h : PacketHeader) : Unchanged h (p.configure h) := by
  by_cases hsame : Unchanged h p
  · rwa [configure_of_unchanged p hsame]
  · rw [configure_changed p hsame]
    exact ⟨rfl, rfl, rfl, rfl⟩

theorem unchanged_atDecode (buffer : List UInt8) :
    Unchanged (readHeader buffer) (p.atDecode buffer) := by
  have hconfigure := unchanged_configure p (readHeader buffer)
  unfold Player.atDecode
  dsimp only
  split_ifs <;> exact hconfigure

theorem ring_atDecode (buffer : List UInt8) : (p.atDecode buffer).ring.Reset ∨
    (Unchanged (readHeader buffer) p ∧ (readHeader buffer).flags &&& 1 = 0 ∧
      (p.atDecode buffer).ring = p.ring) := by
  unfold Player.atDecode
  dsimp only
  by_cases hflag : (readHeader buffer).flags &&& 1 ≠ 0
  · left
    rw [if_pos hflag]
    exact ⟨rfl, rfl⟩
  rw [if_neg hflag]
  by_cases hsame : Unchanged (readHeader buffer) p
  · right
    refine ⟨hsame, not_not.mp hflag, ?_⟩
    rw [configure_of_unchanged p hsame]
    rfl
  · left
    rw [configure_changed p hsame]
    exact ⟨rfl, rfl⟩

theorem handlePacket_wellFormed (T : Player → TargetFrames) (h : WellFormed buffer) :
    p.handlePacket T buffer = (p.atPush buffer).ringPush (T (p.atPush buffer))
      (p.decoding buffer).2.l (p.decoding buffer).2.r (readHeader buffer).frames := by
  rw [Player.handlePacket_of_passes h.passes]
  exact if_pos (decode_wellFormed h _)

end Packet

theorem declared_configuration {t : Traced} {h : PacketHeader} (hrecord : ∀ c ∈ t.last,
      t.player.stream.configEpoch = c.configEpoch ∧ t.player.stream.format = c.format)
    (hsame : Unchanged h t.player) (hdeclared : t.Declared) {c : Configuration}
    (hlast : c ∈ t.last) : h.configuration = c := by
  obtain ⟨hepoch, hrate, hchannels, hformat⟩ := hsame
  obtain ⟨hepoch', hformat'⟩ := hrecord c hlast
  obtain ⟨hrate', hchannels'⟩ := hdeclared c hlast
  obtain ⟨configEpoch, sampleRate, channels, format⟩ := c
  rw [hepoch', Nat.cast_inj] at hepoch
  rw [hrate', Nat.cast_inj] at hrate
  rw [hchannels', Nat.cast_inj] at hchannels
  rw [PacketHeader.configuration, hepoch, hrate, hchannels, hformat, hformat']

theorem origin_atDecode {T : Player → TargetFrames} {t : Traced} (ht : t.Sound)
    {buffer : List UInt8} {wellFormed : WellFormed buffer}
    (hcontinues : t.Continues T (.packet buffer wellFormed)) :
    (t.player.atDecode buffer).ring.Indexed ∧
      (∀ s ∈ (t.player.atDecode buffer).ring.slots,
        t.origin s = some ⟨(readHeader buffer).configuration,
          (t.player.atDecode buffer).ring.l s, (t.player.atDecode buffer).ring.r s⟩) ∧
      t.ResetFirst (.packet buffer wellFormed) := by
  by_cases hreset : (t.player.atDecode buffer).ring.Reset
  · refine ⟨Ring.indexed_of_reset hreset, fun s hs => ?_, fun _ _ _ => hreset⟩
    rw [Ring.slots_of_reset hreset] at hs
    cases hs
  · obtain ⟨hsame, hflag, hring⟩ := (ring_atDecode t.player buffer).resolve_left hreset
    rw [hring] at hreset ⊢
    have hdeclared := hcontinues.1 hsame hflag hreset
    rcases hlast : t.last with _ | c
    · exact absurd (ht.empty hlast) hreset
    have hc := declared_configuration ht.record hsame hdeclared hlast
    refine ⟨ht.indexed, fun s hs => ?_, fun d hd hne => ?_⟩
    · rw [hc]
      exact ht.holds c hlast s hs
    · rw [hlast, Option.mem_some_iff] at hd
      exact absurd (hc.trans hd) hne

section RingPush
variable {p : Player} {T : TargetFrames} {count : ℕ}

theorem mem_slots_ringPush (hring : p.ring.Indexed) (hsafe : p.SafePush T count)
    (left right : ℕ → Sample) :
    (p.ringPush T left right count).ring.Indexed ∧
      ∀ s ∈ (p.ringPush T left right count).ring.slots,
        s ∈ p.ring.slots ∨ s ∈ p.ring.ahead count := by
  rcases le_or_gt (p.ring.fill + count) T.limit with hle | hlt
  · have hlimit : T.limit ≤ ringFrames - 2 := min_le_left _ _
    rw [Player.ringPush_of_le hle]
    exact ⟨Ring.indexed_push left right hring count,
      fun s hs => Ring.mem_slots_push hring left right (by omega) hs⟩
  · obtain ⟨-, hreach, hkept, hroom⟩ := hsafe.resolve_left (not_le.mpr hlt)
    have hcut := (Ring.indexed_discardTo_iff T.frames hring).mpr hreach
    have hfill := Ring.fill_discardTo T.frames hring.valid
    rw [Player.ringPush_of_lt hlt]
    refine ⟨Ring.indexed_push left right hcut count, fun s hs => ?_⟩
    exact (Ring.mem_slots_push hcut left right (by omega) hs).imp_left
      (Ring.mem_slots_discardTo hring hkept)

theorem written_ringPush (hring : p.ring.Valid) (left right : ℕ → Sample)
    (hcount : count < ringFrames) (s : ℤ) :
    ((p.ringPush T left right count).ring.l s, (p.ringPush T left right count).ring.r s) =
      if s ∈ p.ring.ahead count then
        (left ((s - p.ring.write) % ringFrames).toNat,
          right ((s - p.ring.write) % ringFrames).toNat)
      else (p.ring.l s, p.ring.r s) := by
  rcases le_or_gt (p.ring.fill + count) T.limit with hle | hlt
  · rw [Player.ringPush_of_le hle]
    exact Ring.written_push hring left right hcount s
  · rw [Player.ringPush_of_lt hlt]
    exact Ring.written_push (Ring.valid_discardTo hring _) left right hcount s

@[simp] theorem stream_ringPush (left right : ℕ → Sample) :
    (p.ringPush T left right count).stream = p.stream := by
  unfold Player.ringPush
  dsimp only
  split_ifs <;> rfl

end RingPush

theorem frames_lt (buffer : List UInt8) : ((readHeader buffer).frames : ℤ) < ringFrames := by
  have hbytes : (readHeader buffer).frames < 256 ^ 2 := by
    refine (Nat.ofDigits_lt_base_pow_length (by decide) ?_).trans_le
      (Nat.pow_le_pow_right (by decide) ?_)
    · simp only [List.mem_map, forall_exists_index, and_imp, forall_apply_eq_imp_iff₂]
      exact fun byte _ => byte.toNat_lt
    · rw [List.length_map]
      exact List.length_take_le _ _
  unfold ringFrames
  omega

/-- Behind a packet every slot it was written to holds a frame of it, and so do the others that
are still buffered. -/
theorem holds_packet {T : Player → TargetFrames} {t : Traced} (ht : t.Sound)
    {buffer : List UInt8} {wellFormed : WellFormed buffer}
    (hcontinues : t.Continues T (.packet buffer wellFormed)) {s : ℤ}
    (hs : s ∈ (t.player.handlePacket T buffer).ring.slots) :
    (t.step T (.packet buffer wellFormed)).Holds (readHeader buffer).configuration s := by
  obtain ⟨hdecoding, horigin, -⟩ := origin_atDecode ht hcontinues
  have hindexed : (t.player.atPush buffer).ring.Indexed := hdecoding
  have hpush := handlePacket_wellFormed t.player T wellFormed
  rw [hpush] at hs
  have hwritten := written_ringPush (T := T (t.player.atPush buffer)) hindexed.valid
    (t.player.decoding buffer).2.l (t.player.decoding buffer).2.r (frames_lt buffer) s
  rw [← hpush] at hwritten
  show (if s ∈ (t.player.atDecode buffer).ring.ahead (readHeader buffer).frames then
    some (written buffer t.player s) else t.origin s) = some ⟨_,
      (t.player.handlePacket T buffer).ring.l s, (t.player.handlePacket T buffer).ring.r s⟩
  by_cases hnew : s ∈ (t.player.atDecode buffer).ring.ahead (readHeader buffer).frames
  · rw [if_pos hnew]
    obtain ⟨hl, hr⟩ := Prod.mk.inj (hwritten.trans (if_pos hnew))
    rw [hl, hr]
    rfl
  · rw [if_neg hnew]
    obtain ⟨hl, hr⟩ := Prod.mk.inj (hwritten.trans (if_neg hnew))
    rw [hl, hr]
    exact horigin s (((mem_slots_ringPush hindexed hcontinues.2 _ _).2 s hs).resolve_right hnew)

theorem sound_step (T : Player → TargetFrames) (t : Traced) (e : Received) (ht : t.Sound)
    (hcontinues : t.Continues T e) : (t.step T e).Sound ∧ t.ResetFirst e := by
  cases e with
  | packet buffer wellFormed =>
    obtain ⟨hdecoding, -, hreset⟩ := origin_atDecode ht hcontinues
    have hindexed : (t.player.atPush buffer).ring.Indexed := hdecoding
    have hpush := handlePacket_wellFormed t.player T wellFormed
    refine ⟨⟨?_, nofun, ?_, ?_⟩, hreset⟩
    · show (t.player.handlePacket T buffer).ring.Indexed
      rw [hpush]
      exact (mem_slots_ringPush hindexed hcontinues.2 _ _).1
    · rintro c ⟨⟩
      obtain ⟨hepoch, -, -, hformat⟩ := unchanged_atDecode t.player buffer
      show (t.player.handlePacket T buffer).stream.configEpoch = _ ∧
        (t.player.handlePacket T buffer).stream.format = _
      rw [hpush, stream_ringPush]
      exact ⟨hepoch.symm, hformat.symm⟩
    · rintro c ⟨⟩ s hs
      exact holds_packet ht hcontinues hs
  | control message =>
    obtain ⟨hepoch, hformat, hring⟩ := t.player.handleControl_spec message
    have hrecord : ∀ c ∈ t.last,
        (t.player.handleControl message).stream.configEpoch = c.configEpoch ∧
          (t.player.handleControl message).stream.format = c.format := by
      rw [hepoch, hformat]
      exact ht.record
    refine ⟨?_, trivial⟩
    rcases hring with hkept | hreset
    · refine ⟨hkept ▸ ht.indexed, hkept ▸ ht.empty, hrecord, fun c hc s hs => ?_⟩
      have hs' : s ∈ (t.player.handleControl message).ring.slots := hs
      show t.origin s = some ⟨c, (t.player.handleControl message).ring.l s,
        (t.player.handleControl message).ring.r s⟩
      rw [hkept] at hs' ⊢
      exact ht.holds c hc s hs'
    · have hzero : (t.player.handleControl message).ring.Reset := by
        rw [hreset]
        exact ⟨rfl, rfl⟩
      refine ⟨Ring.indexed_of_reset hzero, fun _ => hzero, hrecord, fun c hc s hs => ?_⟩
      have hs' : s ∈ (t.player.handleControl message).ring.slots := hs
      rw [Ring.slots_of_reset hzero] at hs'
      cases hs'

/-- In a run whose packets all continue what is buffered or reset it, the buffered frames agree
about their configuration at every moment, whatever the page computes for its target. -/
theorem unmixed_run (T : Player → TargetFrames) (es : List Received)
    (h : Runs.Along (step T) (Continues T) {} es) :
    Unmixed (Runs.run (step T) {} es) ∧ Runs.Along (step T) ResetFirst {} es :=
  ⟨(Runs.invariant_along (fun t e ht hc => (sound_step T t e ht hc).1) sound_new h).unmixed,
    Runs.along_of_invariant (sound_step T) sound_new h⟩

def oneFrame (low high sample : UInt8) : List UInt8 :=
  [0x50, 0x50, 0x4d, 0x58, 1, 0, 1, 0, 0, 0, 0, 0, low, high, 0, 0, 1, 0, 1, 0,
    0, 0, 0, 0, 0, 0, 0, 0, 0, 0, 0, 0, sample, 0]

theorem wellFormed_48000 (sample : UInt8) : WellFormed (oneFrame 0x80 0xbb sample) := by
  constructor <;> simp [oneFrame, readHeader, uint, Nat.ofDigits_cons, headerBytes, magic, version,
    bytesPerSample]

theorem wellFormed_44100 (sample : UInt8) : WellFormed (oneFrame 0x44 0xac sample) := by
  constructor <;> simp [oneFrame, readHeader, uint, Nat.ofDigits_cons, headerBytes, magic, version,
    bytesPerSample]

def hello (sampleRate : ℚ) : Received :=
  .control { type := .hello, protocol := .number 1, sampleRate := .number sampleRate }

def announcedChange : List Received :=
  -- the first message puts another rate into the record, which the second packet finds and
  -- resets the ring; the second one leaves the record as it is. Then the rate changes
  [.packet _ (wellFormed_48000 1), hello 44100, .packet _ (wellFormed_48000 2), hello 48000,
    .packet _ (wellFormed_48000 3), .packet _ (wellFormed_44100 4),
    .packet _ (wellFormed_44100 5)]

theorem unmixed_announced :
    let t := Runs.run (step Player.exactTarget) {} announcedChange
    t.player.ring.slots = [0, 1] ∧ Unmixed t ∧
      Runs.Along (step Player.exactTarget) ResetFirst {} announcedChange :=
  ⟨by decide +kernel, unmixed_run _ _ (by decide +kernel)⟩

def maskedChange : List Received :=
  -- the second packet declares another rate than the first; the message in between has put that
  -- rate into the record
  [.packet _ (wellFormed_48000 1), hello 44100, .packet _ (wellFormed_44100 2)]

theorem hello_masks_change :
    ¬ Unmixed (Runs.run (step Player.exactTarget) {} maskedChange) := by
  rintro ⟨c, hc⟩
  have hslots : (Runs.run (step Player.exactTarget) {} maskedChange).player.ring.slots = [0, 1] := by
    decide +kernel
  have hzero : ((Runs.run (step Player.exactTarget) {} maskedChange).origin 0).map
      Frame.configuration = some ⟨1, 48000, 1, 0⟩ := by decide +kernel
  have hone : ((Runs.run (step Player.exactTarget) {} maskedChange).origin 1).map
      Frame.configuration = some ⟨1, 44100, 1, 0⟩ := by decide +kernel
  rw [hslots] at hc
  rw [hc 0 (by decide)] at hzero
  rw [hc 1 (by decide)] at hone
  exact absurd (hzero.symm.trans hone) (by decide)

end Traced
end Ppm.Receiver

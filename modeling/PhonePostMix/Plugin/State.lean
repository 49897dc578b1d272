import PhonePostMix.Engine.StreamEngine

/-! What the plugin saves with a project, and what it restores. -/

namespace Ppm.Plugin
open Engine Wire

def stateTag : String := "PhonePostMixState"

structure StateTree where
  tag : String
  format : Option ℤ := none
  framesPerPacket : Option ℤ := none
  preferredPort : Option ℤ := none
  targetLatencyMs : Option ℤ := none
  address : Option String := none
  streaming : Option Bool := none
  deriving DecidableEq, Repr

def IsInt (n : ℤ) : Prop := -2 ^ 31 ≤ n ∧ n < 2 ^ 31

instance (n : ℤ) : Decidable (IsInt n) := inferInstanceAs (Decidable (_ ∧ _))

def IsText (s : String) : Prop := Char.ofNat 0 ∉ s.toList

instance (s : String) : Decidable (IsText s) := inferInstanceAs (Decidable (¬ _))

structure StateTree.Storable (t : StateTree) : Prop where
  format : ∀ n ∈ t.format, IsInt n
  framesPerPacket : ∀ n ∈ t.framesPerPacket, IsInt n
  preferredPort : ∀ n ∈ t.preferredPort, IsInt n
  targetLatencyMs : ∀ n ∈ t.targetLatencyMs, IsInt n
  address : ∀ s ∈ t.address, IsText s

/-- The serialisation of `juce::ValueTree`, as documented: a tree comes back as it was. -/
structure TreeCodec where
  Blob : Type
  writeToStream : StateTree → Blob
  readFromData : Blob → StateTree
  read_write : ∀ t : StateTree, t.Storable → readFromData (writeToStream t) = t

structure IPAddress where
  isIPv6 : Bool
  isNull : Bool
  text : String
  deriving DecidableEq, Repr

def isUsefulAddress (address : IPAddress) : Bool :=
  if address.isIPv6 || address.isNull then false
  else !address.text.startsWith "127." && !address.text.startsWith "169.254."

def addressPriority (address : String) : ℕ :=
  if address.startsWith "192.168." then 0
  else if address.startsWith "10." then 1
  else if address.startsWith "172." then 2
  else 3

def addIfNotAlreadyThere (found : List String) (text : String) : List String :=
  if text ∈ found then found else found ++ [text]

/-- The processor: its engine, the engine's addresses, and a start that `setStateInformation`
has left to the message thread. -/
structure Processor (α : Type) where
  engine : StreamEngine α := {}
  preferredAddress : String := ""
  addresses : List String := []
  startQueued : Bool := false

def StateTree.settings (state : StateTree) : Settings where
  -- the settings `setStateInformation` makes of a tree, its integers cast as they are
  format := ⟨UInt8.ofInt (state.format.getD 0)⟩
  framesPerPacket := state.framesPerPacket.getD 512
  preferredPort := state.preferredPort.getD 17520
  targetLatencyMs := state.targetLatencyMs.getD 120

namespace Processor
variable {α : Type}

def refreshAddresses (p : Processor α) (all : List IPAddress) : Processor α :=
  -- `std::stable_sort` by priority
  let found := (all.filter isUsefulAddress).foldl (fun found a => addIfNotAlreadyThere found a.text) []
  { p with addresses := found.mergeSort fun a b => addressPriority a ≤ addressPriority b }

def setPreferredAddress (p : Processor α) (address : String) : Processor α :=
  { p with preferredAddress := address }

def getPreferredAddress (p : Processor α) : String :=
  if p.preferredAddress ≠ "" ∧ p.preferredAddress ∈ p.addresses then p.preferredAddress
  else p.addresses.headD ""

def state (p : Processor α) : StateTree where
  tag := stateTag
  format := some p.engine.settings.format.code.toNat
  framesPerPacket := some p.engine.settings.framesPerPacket
  preferredPort := some p.engine.settings.preferredPort
  targetLatencyMs := some p.engine.settings.targetLatencyMs
  address := some p.getPreferredAddress
  streaming := some p.engine.serverRunning

def getStateInformation (codec : TreeCodec) (p : Processor α) : codec.Blob :=
  codec.writeToStream p.state

def restore (p : Processor α) (state : StateTree) : Processor α :=
  if state.tag ≠ stateTag then p
  else
    { p.setPreferredAddress (state.address.getD "") with
      engine := p.engine.setSettings state.settings
      startQueued := p.startQueued || state.streaming.getD false }

def setStateInformation (codec : TreeCodec) (p : Processor α) (data : codec.Blob) : Processor α :=
  p.restore (codec.readFromData data)

end Processor

structure SameProperties (s t : StateTree) : Prop where
  format : s.format = t.format
  framesPerPacket : s.framesPerPacket = t.framesPerPacket
  preferredPort : s.preferredPort = t.preferredPort
  targetLatencyMs : s.targetLatencyMs = t.targetLatencyMs
  address : s.address = t.address

namespace Processor
variable {α : Type}

structure Storable (p : Processor α) : Prop where
  framesPerPacket : IsInt p.engine.settings.framesPerPacket
  preferredPort : IsInt p.engine.settings.preferredPort
  targetLatencyMs : IsInt p.engine.settings.targetLatencyMs
  preferredAddress : IsText p.preferredAddress
  addresses : ∀ a ∈ p.addresses, IsText a

theorem isText_getPreferredAddress {p : Processor α} (h : p.Storable) :
    IsText p.getPreferredAddress := by
  unfold getPreferredAddress
  split_ifs
  · exact h.preferredAddress
  · cases haddresses : p.addresses with
    | nil => decide
    | cons a rest => exact h.addresses a (haddresses ▸ List.mem_cons_self)

theorem storable_state {p : Processor α} (h : p.Storable) : p.state.Storable := by
  refine ⟨?_, ?_, ?_, ?_, ?_⟩
  · rintro _ ⟨⟩
    have := p.engine.settings.format.code.toNat_lt
    constructor <;> omega
  · rintro _ ⟨⟩
    exact h.framesPerPacket
  · rintro _ ⟨⟩
    exact h.preferredPort
  · rintro _ ⟨⟩
    exact h.targetLatencyMs
  · rintro _ ⟨⟩
    exact isText_getPreferredAddress h

theorem setSettings_settings (e : StreamEngine α) (newSettings : Settings) :
    (e.setSettings newSettings).settings = newSettings := by
  unfold StreamEngine.setSettings
  split_ifs <;> rfl

theorem ofInt_toNat (n : UInt8) : UInt8.ofInt n.toNat = n := by
  apply UInt8.toNat_inj.mp
  have := n.toNat_lt
  simp only [UInt8.ofInt, UInt8.toNat_ofNat']
  omega

theorem settings_state (p : Processor α) : p.state.settings = p.engine.settings := by
  simp only [StateTree.settings, state, Option.getD_some, ofInt_toNat]

theorem state_eq {p q : Processor α} (hsettings : p.engine.settings = q.engine.settings)
    (haddress : p.getPreferredAddress = q.getPreferredAddress) : SameProperties p.state q.state :=
  ⟨by simp only [state, hsettings], by simp only [state, hsettings],
    by simp only [state, hsettings], by simp only [state, hsettings],
    by simp only [state, haddress]⟩

/-- No candidate stands in for the chosen address. -/
def Unlisted (p : Processor α) : Prop :=
  (p.preferredAddress = "" ∨ p.preferredAddress ∉ p.addresses) ∧ p.addresses.headD "" = ""

theorem getPreferredAddress_eq_empty (p : Processor α) :
    p.getPreferredAddress = "" ↔ p.Unlisted := by
  unfold getPreferredAddress Unlisted
  split_ifs with h
  · constructor
    · exact fun hempty => absurd hempty h.1
    · rintro ⟨hempty | hout, -⟩
      · exact absurd hempty h.1
      · exact absurd h.2 hout
  · rw [not_and_or, not_not] at h
    exact ⟨fun hhead => ⟨h, hhead⟩, And.right⟩

theorem restored_settings (p : Processor α) :
    (({} : Processor α).restore p.state).engine.settings = p.engine.settings := by
  rw [restore, if_neg (fun h => h rfl)]
  exact (setSettings_settings _ _).trans p.settings_state

theorem restored_address (p : Processor α) :
    (({} : Processor α).restore p.state).preferredAddress = p.getPreferredAddress ∧
      (({} : Processor α).restore p.state).addresses = [] ∧
      (({} : Processor α).restore p.state).getPreferredAddress = "" := by
  rw [restore, if_neg (fun h => h rfl)]
  exact ⟨rfl, rfl, if_neg fun h => nomatch h.2⟩

theorem storable_restored {p : Processor α} (h : p.Storable) :
    (({} : Processor α).restore p.state).Storable := by
  obtain ⟨hpreferred, haddresses, -⟩ := restored_address p
  refine ⟨?_, ?_, ?_, ?_, ?_⟩
  · rw [restored_settings]
    exact h.framesPerPacket
  · rw [restored_settings]
    exact h.preferredPort
  · rw [restored_settings]
    exact h.targetLatencyMs
  · rw [hpreferred]
    exact isText_getPreferredAddress h
  · rw [haddresses]
    exact fun a ha => nomatch ha

/-- Saving, restoring into a new processor and saving again keeps the properties exactly when
the address saved first was empty: the new processor has no candidates to find another in. -/
theorem resaved_iff (codec : TreeCodec) (p : Processor α) (h : p.Storable) :
    let saved := p.getStateInformation codec
    let resaved := (({} : Processor α).setStateInformation codec saved).getStateInformation codec
    SameProperties (codec.readFromData resaved) (codec.readFromData saved) ↔ p.Unlisted := by
  have hsaved : codec.readFromData (p.getStateInformation codec) = p.state :=
    codec.read_write _ (storable_state h)
  have hresaved := codec.read_write _ (storable_state (storable_restored h))
  simp only [setStateInformation, hsaved]
  rw [getStateInformation, hresaved, ← getPreferredAddress_eq_empty]
  obtain ⟨-, -, hempty⟩ := restored_address p
  constructor
  · intro hsame
    have haddress : some _ = some p.getPreferredAddress := hsame.address
    rw [hempty] at haddress
    exact (Option.some.inj haddress).symm
  · intro haddress
    exact state_eq (restored_settings p) (hempty.trans haddress.symm)

def treeInMemory : TreeCodec where
  Blob := StateTree
  writeToStream t := t
  readFromData t := t
  read_write _ _ := rfl

/-- Nothing has been streamed yet and no candidate is known, so the address that was chosen is
missing from the first blob already. -/
theorem resaved_unstreamed :
    let p : Processor ℕ := { preferredAddress := "192.168.1.20" }
    p.Unlisted ∧ (p.getStateInformation treeInMemory).address = some "" ∧ SameProperties
      (treeInMemory.readFromData ((({} : Processor ℕ).setStateInformation treeInMemory
        (p.getStateInformation treeInMemory)).getStateInformation treeInMemory))
      (treeInMemory.readFromData (p.getStateInformation treeInMemory)) := by
  intro p
  have hunlisted : p.Unlisted := ⟨.inr (List.not_mem_nil), rfl⟩
  refine ⟨hunlisted, by decide, (resaved_iff treeInMemory p ?_).mpr hunlisted⟩
  exact ⟨by decide, by decide, by decide, by decide, by decide⟩

/-- The chosen address is one of two candidates when the project is saved, and gone when it is
saved again. -/
theorem chosen_address_lost :
    let p : Processor ℕ :=
      { preferredAddress := "10.0.0.7", addresses := ["192.168.1.20", "10.0.0.7"] }
    let saved := p.getStateInformation treeInMemory
    let resaved :=
      (({} : Processor ℕ).setStateInformation treeInMemory saved).getStateInformation treeInMemory
    saved.address = some "10.0.0.7" ∧ resaved.address = some "" ∧
      ¬ SameProperties (treeInMemory.readFromData resaved) (treeInMemory.readFromData saved) := by
  intro p saved resaved
  have hsaved : saved.address = some "10.0.0.7" := by decide
  have hresaved : resaved.address = some "" := by decide
  refine ⟨hsaved, hresaved, fun h => ?_⟩
  have haddress : resaved.address = saved.address := h.address
  rw [hsaved, hresaved] at haddress
  exact absurd haddress (by decide)

theorem mem_addIfNotAlreadyThere {found : List String} {text a : String} :
    a ∈ addIfNotAlreadyThere found text ↔ a ∈ found ∨ a = text := by
  unfold addIfNotAlreadyThere
  split_ifs with h
  · constructor
    · exact .inl
    · rintro (hold | rfl)
      · exact hold
      · exact h
  · simp

theorem mem_refreshAddresses {p : Processor α} {all : List IPAddress} {a : String} :
    a ∈ (p.refreshAddresses all).addresses ↔ ∃ i ∈ all, isUsefulAddress i = true ∧ i.text = a := by
  have hfold (is : List IPAddress) (found : List String) :
      a ∈ is.foldl (fun found i => addIfNotAlreadyThere found i.text) found ↔
        a ∈ found ∨ ∃ i ∈ is, i.text = a := by
    induction is generalizing found with
    | nil => simp
    | cons i is ih =>
      rw [List.foldl_cons, ih, mem_addIfNotAlreadyThere, List.exists_mem_cons_iff, or_assoc,
        eq_comm]
  simp only [refreshAddresses, List.mem_mergeSort, hfold, List.mem_filter, List.not_mem_nil,
    false_or, and_assoc]

theorem unlisted_refreshAddresses {p : Processor α} {all : List IPAddress}
    (h : ∀ i ∈ all, isUsefulAddress i = true → i.text ≠ "") :
    (p.refreshAddresses all).Unlisted ↔ ∀ i ∈ all, isUsefulAddress i = false := by
  have hnil : (p.refreshAddresses all).addresses = [] ↔ ∀ i ∈ all, isUsefulAddress i = false := by
    constructor
    · intro hempty i hi
      by_contra huseful
      have hmem : i.text ∈ (p.refreshAddresses all).addresses :=
        mem_refreshAddresses.mpr ⟨i, hi, by simpa using huseful, rfl⟩
      rw [hempty] at hmem
      exact nomatch hmem
    · intro hall
      apply List.eq_nil_iff_forall_not_mem.mpr
      intro a ha
      obtain ⟨i, hi, huseful, -⟩ := mem_refreshAddresses.mp ha
      rw [hall i hi] at huseful
      exact absurd huseful (by decide)
  rw [← hnil]
  constructor
  · rintro ⟨-, hhead⟩
    cases haddresses : (p.refreshAddresses all).addresses with
    | nil => rfl
    | cons a rest =>
      obtain ⟨i, hi, huseful, rfl⟩ :=
        mem_refreshAddresses.mp (haddresses ▸ List.mem_cons_self : a ∈ _)
      rw [haddresses] at hhead
      exact absurd hhead (h i hi huseful)
  · intro hempty
    exact ⟨.inr (by rw [hempty]; exact List.not_mem_nil), by rw [hempty]; rfl⟩

end Processor
end Ppm.Plugin

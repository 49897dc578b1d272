import PhonePostMix.Engine.Pipeline
import PhonePostMix.Engine.Writers

/-! While no settings change the configuration, every packet declares it. -/

namespace Ppm.Engine
open Wire
variable {α : Type} [Zero α] {e : StreamEngine α} {p : Pipeline α} {c : Config}

/-- What the iteration under way has read of the configuration, and will read, is this. -/
structure StreamEngine.Current (c : Config) (e : StreamEngine α) : Prop where
  config : e.config = c
  reads : ∀ s ∈ e.stage, s.stamped = false → e.Reads s
  described : ∀ s ∈ e.stage, s.described = true → e.iteration.config = c
  declared : e.Declared

omit [Zero α] in
theorem StreamEngine.current_idle (h : ∀ s ∈ e.stage, s = .enter ∨ s = .getSettings) :
    e.Current e.config where
  config := rfl
  reads s hs _ := by
    rcases h s hs with rfl | rfl <;> exact ⟨nofun, nofun, nofun⟩
  described s hs hnow := by
    rcases h s hs with rfl | rfl <;> cases hnow
  declared s hs hnow := by
    rcases h s hs with rfl | rfl <;> cases hnow

theorem StreamEngine.Current.streamStep (h : e.Current c) (clock : UInt32) :
    (e.streamStep clock).Current c := by
  obtain ⟨hshared, hepoch⟩ := e.streamStep_epoch clock
  have hconfig : (e.streamStep clock).config = c := hshared.config.trans h.config
  have hreads := reads_streamStep clock fun s hs _ => h.reads s hs
  refine ⟨hconfig, hreads, fun s hs hdescribed => ?_, declared_streamStep h.declared clock⟩
  cases hstamped : s.stamped with
  | false => rw [(hreads s hs hstamped).config hdescribed, hconfig]
  | true =>
    -- the epoch has been read, and with it everything else
    rw [config_streamStep clock s hs hstamped]
    rcases hepoch with ⟨-, hsend⟩ | ⟨-, -, -, hbefore⟩
    · rw [hsend] at hs
      obtain rfl : Stage.getSettings = s := Option.some.inj hs
      cases hstamped
    · rcases hbefore s hs hstamped with ⟨hstage, -⟩ | ⟨⟨s', hs', hstamped'⟩, -, -⟩
      · exact h.described _ hstage rfl
      · refine h.described s' hs' ?_
        cases s' <;> first | rfl | cases hstamped'

def PipelineEvent.Keeps (c : Config) (ev : PipelineEvent α) : Prop :=
  ∀ settings, ev = .setSettings settings →
    settings.format = c.format ∧ UInt16.ofInt settings.framesPerPacket = c.frames

theorem StreamEngine.Current.step (h : e.Current c) {ev : PipelineEvent α} (hkeeps : ev.Keeps c) :
    (e.step ev.engine).Current c := by
  have hsame : ∀ {e' : StreamEngine α}, e'.config = e.config → e'.iteration = e.iteration →
      e'.stage = e.stage → e'.Current c := by
    intro e' hconfig hiteration hstage
    refine ⟨hconfig.trans h.config, fun s hs hstamped => ?_, ?_, ?_⟩
    · obtain ⟨hsettings, hchannels, hrate⟩ := h.reads s (hstage ▸ hs) hstamped
      exact ⟨by rwa [hiteration, hconfig], by rwa [hiteration, hconfig],
        by rwa [hiteration, hconfig]⟩
    · rw [hstage, hiteration]
      exact h.described
    · rw [Declared, hstage, hiteration]
      exact h.declared
  cases ev with
  | stream clock => exact h.streamStep clock
  | pushAudio buffer =>
    simp only [PipelineEvent.engine, StreamEngine.step, StreamEngine.pushAudio]
    split_ifs
    · exact hsame rfl rfl rfl
    · exact h
  | setHostPlaying isPlaying => exact hsame rfl rfl rfl
  | setSettings settings =>
    obtain ⟨hformat, hframes⟩ := hkeeps settings rfl
    have hconfig : settings.format = e.settings.format ∧
        UInt16.ofInt settings.framesPerPacket = UInt16.ofInt e.settings.framesPerPacket :=
      ⟨hformat.trans (congrArg Config.format h.config).symm,
        hframes.trans (congrArg Config.frames h.config).symm⟩
    simp only [PipelineEvent.engine, StreamEngine.step, StreamEngine.setSettings]
    split_ifs
    · exact hsame (Config.ext hconfig.1 rfl rfl hconfig.2) rfl rfl
    · exact hsame (Config.ext hconfig.1 rfl rfl hconfig.2) rfl rfl
  | start bound =>
    have hentered : ∀ {e' : StreamEngine α}, e'.config = e.config → e'.stage = some .enter →
        e'.Current c := by
      intro e' hconfig hstage
      rw [← h.config, ← hconfig]
      exact current_idle fun s hs => .inl (Option.some.inj (hstage.symm.trans hs)).symm
    simp only [PipelineEvent.engine, StreamEngine.step, StreamEngine.start]
    split_ifs
    · exact h
    · exact hentered rfl rfl

theorem Pipeline.config_step (h : p.engine.Current c) (hsent : ∀ q ∈ p.packets, q.info.config = c)
    (ev : PipelineEvent α) : ∀ q ∈ (p.step ev).packets, q.info.config = c := by
  have hsame : (p.engine.step ev.engine).sent = p.engine.sent →
      ∀ q ∈ (p.step ev).packets, q.info.config = c := by
    intro hkept
    show ∀ q ∈ (p.engine.step ev.engine).sent.drop p.start.sent.length, q.info.config = c
    rw [hkept]
    exact hsent
  cases ev with
  | stream clock =>
    rcases (p.engine.streamStep_epoch clock).2 with ⟨hstage, hsend⟩ | ⟨-, hkept, -⟩
    · intro q hq
      have hinfo : (p.engine.packetInfo clock).config = c :=
        (h.declared _ hstage rfl).trans (h.described _ hstage rfl)
      have hpackets : (p.step (.stream clock)).packets =
          (p.engine.streamStep clock).sent.drop p.start.sent.length := rfl
      rw [hpackets, hsend, StreamEngine.sendPacket, List.drop_append] at hq
      rcases List.mem_append.mp hq with hold | hnew
      · exact hsent q hold
      · rw [List.mem_singleton.mp (List.mem_of_mem_drop hnew)]
        exact hinfo
    · exact hsame hkept
  | pushAudio buffer =>
    refine hsame ?_
    simp only [PipelineEvent.engine, StreamEngine.step, StreamEngine.pushAudio]
    split_ifs <;> rfl
  | setSettings settings =>
    refine hsame ?_
    simp only [PipelineEvent.engine, StreamEngine.step, StreamEngine.setSettings]
    split_ifs <;> rfl
  | start bound =>
    refine hsame ?_
    simp only [PipelineEvent.engine, StreamEngine.step, StreamEngine.start]
    split_ifs <;> rfl
  | setHostPlaying isPlaying => exact hsame rfl

theorem Pipeline.config_run (h : p.engine.Current c) (hsent : ∀ q ∈ p.packets, q.info.config = c)
    {es : List (PipelineEvent α)} (hkeeps : ∀ ev ∈ es, ev.Keeps c) :
    ∀ q ∈ (p.run es).packets, q.info.config = c := by
  induction es generalizing p with
  | nil => exact hsent
  | cons ev es ih =>
    obtain ⟨hev, hes⟩ := List.forall_mem_cons.mp hkeeps
    exact ih (h.step hev) (config_step h hsent ev) hes

end Ppm.Engine

import PhonePostMix.Server.Broadcast

/-! Each connection is upgraded once, by its own thread; what it is offered then is an unbroken
part of what is broadcast. -/

namespace Ppm.Server
namespace StreamServer
variable {s : StreamServer}

def Waits (s : StreamServer) (i : ℕ) : Prop := ∃ b ∈ s.broadcasting, i ∈ b.waiting

def Entered (s : StreamServer) (i : ℕ) : Prop := ∃ b ∈ s.broadcasting, b.admitted = some i

def Live (s : StreamServer) (i : ℕ) : Prop :=
  s.Entered i ∨ (s.recipients i).upgraded = true ∧ (i ∈ s.connections ∨ s.Waits i)

def audience (s : StreamServer) (i : ℕ) : List Outgoing := broadcasts (s.recipients i).offered

structure Segmented (s : StreamServer) (handshaken : List ℕ) : Prop where
  segment : ∀ i, s.audience i <:+: s.sent
  fresh : ∀ i ∉ handshaken,
    s.audience i = [] ∧ (s.recipients i).upgraded = false ∧ ¬ s.Entered i
  waiting : ∀ i, s.Live i → s.Waits i → s.audience i <:+ s.sent.dropLast
  served : ∀ i, s.Live i → ¬ s.Waits i → s.audience i <:+ s.sent

variable {handshaken : List ℕ}

theorem segmented_start (limit : ℕ) : Segmented (start limit) [] where
  segment _ := List.nil_infix
  fresh _ _ := ⟨rfl, rfl, by rintro ⟨b, hb, -⟩; cases hb⟩
  waiting _ _ _ := List.nil_suffix
  served _ _ _ := List.nil_suffix

section Under
variable {b : Broadcast} {i : ℕ}

theorem waits_iff (hb : s.broadcasting = some b) :
    s.Waits i ↔ b.admitted = some i ∨ i ∈ b.remaining := by
  simp [Waits, hb, Broadcast.waiting]

theorem entered_iff (hb : s.broadcasting = some b) : s.Entered i ↔ b.admitted = some i := by
  simp [Entered, hb]

theorem not_entered (hb : s.broadcasting = some b) (hnone : b.admitted = none) :
    ¬ s.Entered i := by
  rw [entered_iff hb, hnone]
  exact Option.some_ne_none i ∘ Eq.symm

theorem not_waits_idle (hb : s.broadcasting = none) : ¬ s.Waits i := by
  simp [Waits, hb]

theorem not_entered_idle (hb : s.broadcasting = none) : ¬ s.Entered i := by
  simp [Entered, hb]

end Under

theorem Entered.waits {i : ℕ} (h : s.Entered i) : s.Waits i := by
  obtain ⟨b, hb, hadmitted⟩ := h
  exact ⟨b, hb, by simp [Broadcast.waiting, hadmitted]⟩

theorem Ordered.broadcast_isSome (h : Ordered s) {out : Outgoing} (hout : out ∈ s.sent) :
    out.broadcast.isSome := by
  have hmem : out.broadcast ∈ (List.range s.sent.length).map some := by
    rw [← h.numbered]
    exact List.mem_map_of_mem hout
  obtain ⟨k, -, hk⟩ := List.mem_map.mp hmem
  rw [← hk]
  rfl

theorem Segmented.quiet (h : Segmented s handshaken) {s' : StreamServer} {handshaken' : List ℕ}
    (haudience : ∀ i, s'.audience i = s.audience i) (hsent : s'.sent = s.sent)
    (hfresh : ∀ i ∉ handshaken', i ∉ handshaken ∧ ((s'.recipients i).upgraded = true →
      (s.recipients i).upgraded = true) ∧ (s'.Entered i → s.Entered i))
    (hlive : ∀ i, s'.Live i → s'.audience i = [] ∨ s.Live i ∧ (s'.Waits i ↔ s.Waits i)) :
    Segmented s' handshaken' := by
  refine ⟨fun i => ?_, fun i hi => ?_, fun i hi hwaits => ?_, fun i hi hwaits => ?_⟩
  · rw [haudience, hsent]
    exact h.segment i
  · obtain ⟨hold, hupgraded, hentered⟩ := hfresh i hi
    obtain ⟨hnone, hdown, hout⟩ := h.fresh i hold
    refine ⟨(haudience i).trans hnone, ?_, fun he => hout (hentered he)⟩
    by_contra hup
    rw [hupgraded (Bool.not_eq_false _ ▸ hup)] at hdown
    cases hdown
  · rcases hlive i hi with hnone | ⟨hold, hsame⟩
    · rw [hnone]
      exact List.nil_suffix
    · rw [haudience, hsent]
      exact h.waiting i hold (hsame.mp hwaits)
  · rcases hlive i hi with hnone | ⟨hold, hsame⟩
    · rw [hnone]
      exact List.nil_suffix
    · rw [haudience, hsent]
      exact h.served i hold (mt hsame.mpr hwaits)

theorem segmented_modify (h : Segmented s handshaken) (i : ℕ) {f : Recipient → Recipient}
    (hoffered : ∀ c, (f c).offered = c.offered)
    (hupgraded : ∀ c, (f c).upgraded = true → c.upgraded = true) :
    Segmented (s.modify i f) handshaken := by
  unfold modify
  split_ifs with hi
  swap
  · exact h
  have hup (j : ℕ) : (Function.update s.recipients i (f (s.recipients i)) j).upgraded = true →
      (s.recipients j).upgraded = true := by
    rcases eq_or_ne j i with rfl | hne
    · simpa using hupgraded _
    · simp [Function.update_of_ne hne]
  refine h.quiet (fun j => ?_) rfl (fun j hj => ⟨hj, hup j, id⟩) fun j hlive => .inr ⟨?_, Iff.rfl⟩
  · rcases eq_or_ne j i with rfl | hne
    · simp [audience, hoffered]
    · simp [audience, Function.update_of_ne hne]
  · exact hlive.imp_right fun ⟨hu, hplace⟩ => ⟨hup j hu, hplace⟩

theorem segmented_upgrade (h : Segmented s handshaken) (i : ℕ) (hnew : i ∉ handshaken) :
    Segmented (s.modify i fun c => { c with upgraded := true }) (handshaken ++ [i]) := by
  unfold modify
  split_ifs
  swap
  · exact ⟨h.segment, fun j hj => h.fresh j fun hold => hj (List.mem_append_left _ hold),
      h.waiting, h.served⟩
  have haudience (j : ℕ) : broadcasts (Function.update s.recipients i
      { s.recipients i with upgraded := true } j).offered = s.audience j := by
    rcases eq_or_ne j i with rfl | hne
    · simp [audience]
    · simp [audience, Function.update_of_ne hne]
  refine h.quiet haudience rfl (fun j hj => ?_) fun j hlive => ?_
  · have hne : j ≠ i := by
      rintro rfl
      exact hj (List.mem_append_right _ List.mem_cons_self)
    refine ⟨fun hold => hj (List.mem_append_left _ hold), fun hu => ?_, id⟩
    simpa [Function.update_of_ne hne] using hu
  · rcases eq_or_ne j i with rfl | hne
    · exact .inl ((haudience j).trans (h.fresh j hnew).1)
    · refine .inr ⟨hlive.imp_right fun ⟨hu, hplace⟩ => ⟨?_, hplace⟩, Iff.rfl⟩
      simpa [Function.update_of_ne hne] using hu

theorem segmented_acceptOne (ha : Accounted s) (h : Segmented s handshaken) :
    Segmented s.acceptOne handshaken := by
  unfold acceptOne
  split
  · exact h
  · refine h.quiet (fun _ => rfl) rfl (fun i hi => ⟨hi, id, id⟩) fun i hlive => ?_
    rcases hlive with hentered | ⟨hup, hplace | hwaits⟩
    · exact .inr ⟨.inl hentered, Iff.rfl⟩
    · rcases List.mem_append.mp hplace with hold | hnew
      · exact .inr ⟨.inr ⟨hup, .inl (List.mem_filter.mp hold).1⟩, Iff.rfl⟩
      · left
        rw [List.mem_singleton.mp hnew]
        simp only [audience]
        rw [ha.unused _ (Nat.le_refl _)]
        rfl
    · exact .inr ⟨.inr ⟨hup, .inr hwaits⟩, Iff.rfl⟩

theorem segmented_beginBroadcast (h : Segmented s handshaken) (frame : List UInt8)
    (droppable : Bool) : Segmented (s.beginBroadcast frame droppable) handshaken := by
  unfold beginBroadcast
  split
  · exact h
  · rename_i hidle
    refine ⟨fun i => (h.segment i).trans (List.prefix_append _ _).isInfix, fun i hi => ?_,
      fun i hlive hwaits => ?_, fun i hlive hwaits => ?_⟩
    · obtain ⟨hnone, hdown, -⟩ := h.fresh i hi
      exact ⟨hnone, hdown, not_entered rfl rfl⟩
    all_goals
      obtain ⟨hup, hplace⟩ := hlive.resolve_left (not_entered rfl rfl)
      rw [waits_iff rfl] at hwaits hplace
    · show s.audience i <:+ (s.sent ++ [_]).dropLast
      rw [List.dropLast_concat]
      have hmember : i ∈ s.connections := hwaits.resolve_left (Option.some_ne_none i ∘ Eq.symm)
      exact h.served i (.inr ⟨hup, .inl hmember⟩) (not_waits_idle hidle)
    · exact absurd (hplace.elim .inr id) hwaits

theorem segmented_check (h : Segmented s handshaken) : Segmented (s.step .check) handshaken := by
  simp only [step]
  split
  swap
  · exact h
  rename_i out i rest hb
  have hbefore (j : ℕ) : s.Waits j ↔ j = i ∨ j ∈ rest := by
    simp [waits_iff hb]
  by_cases hup : (s.recipients i).upgraded = true
  · rw [if_pos hup]
    have hwaits (j : ℕ) : StreamServer.Waits
        { s with broadcasting := some { out, admitted := some i, remaining := rest } } j ↔
        s.Waits j := by
      rw [waits_iff rfl, hbefore, Option.some_inj, eq_comm]
    refine h.quiet (fun _ => rfl) rfl (fun j hj => ⟨hj, id, fun hentered => ?_⟩)
      fun j hlive => .inr ⟨?_, hwaits j⟩
    · -- only an upgraded connection is let in
      obtain rfl := Option.some.inj ((entered_iff rfl).mp hentered)
      rw [(h.fresh _ hj).2.1] at hup
      cases hup
    · rcases hlive with hentered | ⟨hup', hplace⟩
      · obtain rfl := Option.some.inj ((entered_iff rfl).mp hentered)
        exact .inr ⟨hup, .inr ((hbefore i).mpr (.inl rfl))⟩
      · exact .inr ⟨hup', hplace.imp_right (hwaits j).mp⟩
  · rw [if_neg hup]
    have hwaits (j : ℕ) : StreamServer.Waits
        { s with broadcasting := some { out, admitted := none, remaining := rest } } j ↔
        j ∈ rest := by
      rw [waits_iff rfl]
      simp
    refine h.quiet (fun _ => rfl) rfl
      (fun j hj => ⟨hj, id, fun hentered => absurd hentered (not_entered rfl rfl)⟩)
      fun j hlive => .inr ?_
    obtain ⟨hup', hplace⟩ := hlive.resolve_left (not_entered rfl rfl)
    have hne : j ≠ i := by
      rintro rfl
      exact hup hup'
    refine ⟨.inr ⟨hup', hplace.imp_right fun hj => (hbefore j).mpr (.inr ((hwaits j).mp hj))⟩, ?_⟩
    rw [hwaits, hbefore]
    exact ⟨.inr, fun hj => hj.resolve_left hne⟩

theorem upgraded_enqueueAt (s : StreamServer) (i : ℕ) (out : Outgoing) (j : ℕ) :
    ((s.enqueueAt i out).recipients j).upgraded = (s.recipients j).upgraded := by
  rcases eq_or_ne j i with rfl | hne
  · simp [enqueueAt, Recipient.offer]
  · simp [enqueueAt, Function.update_of_ne hne]

theorem audience_offer (s : StreamServer) {out : Outgoing} {i : ℕ} (hout : out.broadcast.isSome)
    (j : ℕ) : broadcasts ((s.enqueueAt i out).recipients j).offered =
      if j = i then s.audience i ++ [out] else s.audience j := by
  split_ifs with hj
  · simp [enqueueAt, hj, Recipient.offer, broadcasts, audience, hout]
  · simp [enqueueAt, Function.update_of_ne hj, audience]

section Offer
variable {out : Outgoing} {i : ℕ} {remaining : List ℕ}

theorem audience_newest (ho : Ordered s) (h : Segmented s handshaken)
    (hb : s.broadcasting = some { out, admitted := some i, remaining }) :
    s.audience i ++ [out] <:+ s.sent := by
  obtain ⟨-, earlier, hsent, -⟩ := ho.waiting _ hb
  have hentered : s.Entered i := (entered_iff hb).mpr rfl
  have hlast := h.waiting i (.inl hentered) hentered.waits
  rw [hsent, List.dropLast_concat] at hlast
  obtain ⟨before, hbefore⟩ := hlast
  exact ⟨before, by rw [hsent, ← hbefore, List.append_assoc]⟩

theorem live_before_offer (hb : s.broadcasting = some { out, admitted := some i, remaining })
    {j : ℕ} (hj : StreamServer.Live
      { s.enqueueAt i out with broadcasting := some { out, remaining } } j) : s.Live j := by
  obtain ⟨hup, hplace⟩ := hj.resolve_left (not_entered rfl rfl)
  refine .inr ⟨(s.upgraded_enqueueAt i out j).symm.trans hup, hplace.imp_right fun hw => ?_⟩
  rw [waits_iff rfl] at hw
  exact (waits_iff hb).mpr (.inr (hw.resolve_left (Option.some_ne_none j ∘ Eq.symm)))

theorem segmented_offer (ho : Ordered s) (h : Segmented s handshaken)
    (hb : s.broadcasting = some { out, admitted := some i, remaining }) :
    Segmented { s.enqueueAt i out with broadcasting := some { out, remaining } } handshaken := by
  obtain ⟨hnodup, earlier, hsent, -⟩ := ho.waiting _ hb
  have hi : i ∉ remaining := by
    have hcons : (i :: remaining).Nodup := by simpa [Broadcast.waiting] using hnodup
    exact (List.nodup_cons.mp hcons).1
  have hlabelled : out.broadcast.isSome := ho.broadcast_isSome (by simp [hsent])
  have haudience := audience_offer s (i := i) hlabelled
  have hnew := audience_newest ho h hb
  have hwaits (j : ℕ) : s.Waits j ↔ j = i ∨ j ∈ remaining := by
    rw [waits_iff hb, Option.some_inj, eq_comm]
  have hwaits' (j : ℕ) : StreamServer.Waits
      { s.enqueueAt i out with broadcasting := some { out, remaining } } j ↔ j ∈ remaining := by
    rw [waits_iff rfl]
    simp
  refine ⟨fun j => ?_, fun j hj => ?_, fun j hj hw => ?_, fun j hj hw => ?_⟩
  · show broadcasts ((s.enqueueAt i out).recipients j).offered <:+: s.sent
    rw [haudience]
    split_ifs
    · exact hnew.isInfix
    · exact h.segment j
  · obtain ⟨hnone, hdown, hnot⟩ := h.fresh j hj
    have hne : j ≠ i := by
      rintro rfl
      exact hnot ((entered_iff hb).mpr rfl)
    refine ⟨?_, (s.upgraded_enqueueAt i out j).trans hdown, not_entered rfl rfl⟩
    show broadcasts ((s.enqueueAt i out).recipients j).offered = []
    rw [haudience, if_neg hne]
    exact hnone
  · have hj' := (hwaits' j).mp hw
    have hne : j ≠ i := fun hji => hi (hji ▸ hj')
    show broadcasts ((s.enqueueAt i out).recipients j).offered <:+ s.sent.dropLast
    rw [haudience, if_neg hne]
    exact h.waiting j (live_before_offer hb hj) ((hwaits j).mpr (.inr hj'))
  · show broadcasts ((s.enqueueAt i out).recipients j).offered <:+ s.sent
    rw [haudience]
    split_ifs with hji
    · exact hnew
    · refine h.served j (live_before_offer hb hj) fun hw' => hw ((hwaits' j).mpr ?_)
      exact ((hwaits j).mp hw').resolve_left hji

end Offer

theorem segmented_release (h : Segmented s handshaken) :
    Segmented (s.step .release) handshaken := by
  simp only [step]
  split
  · rename_i out hb
    have hquiet (i : ℕ) : ¬ s.Waits i := by
      simp [waits_iff hb]
    refine h.quiet (fun _ => rfl) rfl
      (fun i hi => ⟨hi, id, fun hentered => absurd hentered (not_entered_idle rfl)⟩)
      fun i hlive => .inr ?_
    have hquiet' : ¬ StreamServer.Waits { s with broadcasting := none } i := not_waits_idle rfl
    obtain ⟨hup, hplace⟩ := hlive.resolve_left (not_entered_idle rfl)
    exact ⟨.inr ⟨hup, .inl (hplace.resolve_right hquiet')⟩, iff_of_false hquiet' (hquiet i)⟩
  · exact h

theorem segmented_pong (h : Segmented s handshaken) (i : ℕ) (out : Outgoing)
    (hout : out.broadcast = none) : Segmented (s.enqueueAt i out) handshaken := by
  have hup := s.upgraded_enqueueAt i out
  refine h.quiet (fun j => ?_) rfl (fun j hj => ⟨hj, fun hu => (hup j).symm.trans hu, id⟩)
    fun j hlive => .inr ⟨?_, Iff.rfl⟩
  · rcases eq_or_ne j i with rfl | hne
    · simp [audience, enqueueAt, Recipient.offer, broadcasts, hout]
    · simp [audience, enqueueAt, Function.update_of_ne hne]
  · exact hlive.imp_right (And.imp_left (hup j).symm.trans)

theorem segmented_step (ha : Accounted s) (ho : Ordered s) (h : Segmented s handshaken) (e : Event)
    (hupgrade : ∀ i, e ≠ .upgrade i) : Segmented (s.step e) handshaken := by
  cases e with
  | accept => exact segmented_acceptOne ha h
  | stop =>
    simp only [step]
    split_ifs with hbusy
    · exact h
    · have hidle : s.broadcasting = none := by simpa using hbusy
      refine h.quiet (fun _ => rfl) rfl (fun i hi => ⟨hi, id, id⟩) fun i hlive => ?_
      obtain ⟨-, hplace⟩ := hlive.resolve_left (not_entered_idle hidle)
      rcases hplace with hmember | hwaits
      · cases hmember
      · exact absurd hwaits (not_waits_idle hidle)
  | upgrade i => exact absurd rfl (hupgrade i)
  | leave i =>
    exact segmented_modify (f := fun c => { c with upgraded := false }) h i (fun _ => rfl)
      fun _ hno => Bool.noConfusion hno
  | finish i =>
    exact segmented_modify (f := fun c => { c with finished := true }) h i (fun _ => rfl)
      fun _ => id
  | broadcastBinary data => exact segmented_beginBroadcast h _ _
  | broadcastText text => exact segmented_beginBroadcast h _ _
  | check => exact segmented_check h
  | offer =>
    simp only [step]
    split
    · rename_i hb
      exact segmented_offer ho h hb
    · exact h
  | release => exact segmented_release h
  | pong i payload =>
    simp only [step]
    split_ifs
    · exact segmented_pong h i _ rfl
    · exact h
  | pop i =>
    refine segmented_modify h i (fun c => c.pop_record.1) fun c hup => ?_
    unfold Recipient.pop at hup
    split at hup <;> exact hup
  | setPerClientQueueLimit bytes =>
    exact h.quiet (fun _ => rfl) rfl (fun i hi => ⟨hi, id, id⟩) fun i hlive => .inr ⟨hlive, Iff.rfl⟩

def Labelled (s : StreamServer) : Prop :=
  ∀ i, ∀ out ∈ (s.recipients i).offered, out.droppable = true → out.broadcast.isSome

theorem labelled_modify (h : Labelled s) (i : ℕ) {f : Recipient → Recipient}
    (hoffered : ∀ c, (f c).offered = c.offered) : Labelled (s.modify i f) := by
  intro j out hout
  rw [modify_offered s i j hoffered] at hout
  exact h j out hout

theorem labelled_enqueueAt (h : Labelled s) (i : ℕ) {new : Outgoing}
    (hnew : new.droppable = true → new.broadcast.isSome) : Labelled (s.enqueueAt i new) := by
  intro j out hout
  rcases eq_or_ne j i with rfl | hne
  · have hsplit : out ∈ (s.recipients j).offered ++ [new] := by
      simpa [enqueueAt, Recipient.offer] using hout
    rcases List.mem_append.mp hsplit with hold | hlast
    · exact h j out hold
    · rw [List.mem_singleton.mp hlast]
      exact hnew
  · exact h j out (by simpa [enqueueAt, Function.update_of_ne hne] using hout)

theorem labelled_step (ho : Ordered s) (h : Labelled s) (e : Event) : Labelled (s.step e) := by
  cases e with
  | upgrade i => exact labelled_modify (f := fun c => { c with upgraded := true }) h i fun _ => rfl
  | leave i => exact labelled_modify (f := fun c => { c with upgraded := false }) h i fun _ => rfl
  | finish i => exact labelled_modify (f := fun c => { c with finished := true }) h i fun _ => rfl
  | pop i => exact labelled_modify h i fun c => c.pop_record.1
  | offer =>
    simp only [step]
    split
    · rename_i out i remaining hb
      obtain ⟨-, earlier, hsent, -⟩ := ho.waiting _ hb
      exact labelled_enqueueAt h i fun _ => ho.broadcast_isSome (by simp [hsent])
    · exact h
  | pong i payload =>
    simp only [step]
    split_ifs
    · exact labelled_enqueueAt h i fun hno => Bool.noConfusion hno
    · exact h
  | accept =>
    simp only [step, acceptOne]
    split <;> exact h
  | stop =>
    simp only [step]
    split <;> exact h
  | broadcastBinary data =>
    simp only [step, beginBroadcast]
    split <;> exact h
  | broadcastText text =>
    simp only [step, beginBroadcast]
    split <;> exact h
  | check =>
    simp only [step]
    split <;> exact h
  | release =>
    simp only [step]
    split <;> exact h
  | setPerClientQueueLimit bytes => exact h

def packets (l : List Outgoing) : List Outgoing := l.filter (·.droppable)

theorem packets_segment (hlabelled : Labelled s) (h : Segmented s handshaken) (i : ℕ) :
    packets (s.recipients i).offered <:+: packets s.sent := by
  have hsame : packets (s.recipients i).offered = packets (s.audience i) := by
    rw [audience, broadcasts, packets, packets, List.filter_filter]
    apply List.filter_congr
    intro out hout
    cases hdroppable : out.droppable with
    | false => rfl
    | true => rw [Bool.true_and, hlabelled i out hout hdroppable]
  rw [hsame]
  exact (h.segment i).filter _

theorem packets_step (s : StreamServer) (e : Event) (h : ∀ data, e ≠ .broadcastBinary data) :
    packets (s.step e).sent = packets s.sent := by
  have hmodify (i : ℕ) (f : Recipient → Recipient) : (s.modify i f).sent = s.sent := by
    unfold modify
    split_ifs <;> rfl
  cases e with
  | broadcastBinary data => exact absurd rfl (h data)
  | upgrade i => exact congrArg packets (hmodify i fun c => { c with upgraded := true })
  | leave i => exact congrArg packets (hmodify i fun c => { c with upgraded := false })
  | finish i => exact congrArg packets (hmodify i fun c => { c with finished := true })
  | pop i => exact congrArg packets (hmodify i Recipient.pop)
  | broadcastText text =>
    simp only [step, beginBroadcast]
    split
    · rfl
    · simp [packets]
  | accept =>
    simp only [step, acceptOne]
    split <;> rfl
  | stop =>
    simp only [step]
    split <;> rfl
  | check =>
    simp only [step]
    split <;> rfl
  | offer =>
    simp only [step]
    split <;> rfl
  | release =>
    simp only [step]
    split <;> rfl
  | pong i payload =>
    simp only [step]
    split <;> rfl
  | setPerClientQueueLimit bytes => rfl

end StreamServer
end Ppm.Server

import PhonePostMix.Engine.ClientRegistry
import PhonePostMix.Server.Ending
import PhonePostMix.Server.Replies

/-! What the engine knows of each client: the entry of a listed client is what its own messages
make of a new one, in the order in which it sent them, whatever the other connections do. -/

namespace Ppm.Engine
open Server Streaming

variable {V δ : Type} [Zero δ]

def ClientInfo.receive (json : Json V δ) (entry : ClientInfo δ) (message : List UInt8) :
    ClientInfo δ :=
  if json.isObject (json.parse message) then entry.update json (json.parse message) else entry

def entryAfter (json : Json V δ) (id : BitVec 32) (messages : List (List UInt8)) : ClientInfo δ :=
  messages.foldl (ClientInfo.receive json) (.new id)

theorem entryAfter_concat (json : Json V δ) (id : BitVec 32) (messages : List (List UInt8))
    (message : List UInt8) : entryAfter json id (messages ++ [message]) =
      (entryAfter json id messages).receive json message := List.foldl_concat ..

theorem mem_textMessage {json : Json V δ} {clients : List (ClientInfo δ)} {clientId : BitVec 32}
    {message : List UInt8} (hnodup : (ids clients).Nodup) {entry : ClientInfo δ}
    (h : entry ∈ streamTextMessageReceived json clients clientId message) :
    ∃ old ∈ clients, old.id = entry.id ∧
      entry = if old.id = clientId then old.receive json message else old := by
  unfold streamTextMessageReceived at h
  dsimp only at h
  split_ifs at h with hobject
  · obtain ⟨k, hk⟩ := List.mem_iff_getElem?.mp h
    rw [List.getElem?_modify] at hk
    obtain ⟨old, hold, hentry⟩ := Option.map_eq_some_iff.mp hk
    obtain ⟨hlt, hget⟩ := List.getElem?_eq_some_iff.mp hold
    by_cases hsender : old.id = clientId
    · have hindex : clients.findIdx (fun c => c.id = clientId) = k := by
        refine (List.findIdx_eq hlt).mpr ⟨decide_eq_true (hget ▸ hsender), fun j hj => ?_⟩
        rw [decide_eq_false_iff_not]
        intro hsame
        have hids : (ids clients).get ⟨j, by rw [ids, List.length_map]; omega⟩ =
            (ids clients).get ⟨k, by rwa [ids, List.length_map]⟩ := by
          simp only [List.get_eq_getElem, ids, List.getElem_map, hget, hsame, hsender]
        exact absurd (hnodup.getElem_inj_iff.mp hids) (Nat.ne_of_lt hj)
      rw [if_pos hindex] at hentry
      subst hentry
      refine ⟨old, List.mem_of_getElem? hold, (ClientInfo.update_id json _ old).symm, ?_⟩
      rw [if_pos hsender, ClientInfo.receive, if_pos hobject]
    · have hindex : clients.findIdx (fun c => c.id = clientId) ≠ k := by
        rintro rfl
        have hfound := List.findIdx_getElem (w := hlt)
        rw [hget, decide_eq_true_eq] at hfound
        exact hsender hfound
      rw [if_neg hindex] at hentry
      subst hentry
      exact ⟨old, List.mem_of_getElem? hold, rfl, by rw [if_neg hsender]⟩
  · refine ⟨entry, h, rfl, ?_⟩
    rw [ClientInfo.receive, if_neg hobject, ite_self]

end Ppm.Engine

namespace Ppm.Server
open Streaming WebSocket

namespace Tap
variable {t : Tap}

theorem Sound.messages_prefix (h : Sound t) : t.messages <+: heard (pushed t.ops) := by
  have hframes := FrameParser.run_drain_frames 1048576 t.ops
  by_cases hgoing : going t.conn
  · rw [heard, ← hframes]
    exact untilClose_append (h.unclosed hgoing) _ ▸ List.prefix_append _ _
  · have hphase : t.conn.phase ≠ .dispatching := by
      intro hphase
      exact hgoing ⟨by simp [hphase], by simp [hphase]⟩
    rw [h.messages_eq hphase]

end Tap
end Ppm.Server

namespace Ppm.Engine
open Server Streaming

variable {V δ : Type} [Zero δ]

namespace Registry
variable {w : Registry δ} {json : Json V δ}

def Kept (json : Json V δ) (w : Registry δ) : Prop :=
  ∀ entry ∈ w.clients, entry = entryAfter json entry.id (textMessages (w.callsOf entry.id))

theorem textMessages_concat (calls : List ListenerCall) (message : List UInt8) :
    textMessages (calls ++ [.textMessage message]) = textMessages calls ++ [message] :=
  Tap.textMessages_append calls [.textMessage message]

theorem kept_call (hn : Numbered w) (hr : Registered w) (h : Kept json w) {k : ℕ} {c : Accepted}
    (hc : w.connections[k]? = some c) {call : ListenerCall}
    (hcall : c.connection.calls[c.made]? = some call) : Kept json (w.call json k c call) := by
  have hmem := List.mem_of_getElem? hc
  have hnext : InSession (w.callsOf c.id ++ [call]) := by
    rw [hr.told c hmem, ← Accepted.told_called hcall]
    exact (Accepted.sound_called (hn.sound c hmem) hcall).inSession
  have hcalls := callsOf_append w (w.connections.set k { c with made := c.made + 1 })
    (listen json w.clients c.id call) c.id call
  intro entry hentry
  rw [Registry.call, hcalls]
  have hother (hold : entry ∈ w.clients) (hid : c.id ≠ entry.id) : entry = entryAfter json entry.id
      (textMessages (w.callsOf entry.id ++ if c.id = entry.id then [call] else [])) := by
    rw [if_neg hid, List.append_nil]
    exact h entry hold
  cases call with
  | connected =>
    rcases List.mem_append.mp hentry with hold | hnew
    · -- a session begins with its connect, so the entry of its client is not there yet
      refine hother hold fun hid => ?_
      rcases hnext.next with ⟨hnil, -⟩ | ⟨-, -, hne⟩
      · have hlisted := ((hr.listed c.id).mp (hid ▸ List.mem_map_of_mem hold)).1
        rw [hnil] at hlisted
        cases hlisted
      · exact absurd rfl hne
    · obtain rfl := List.mem_singleton.mp hnew
      have hnil : w.callsOf c.id = [] := by
        rcases hnext.next with ⟨hnil, -⟩ | ⟨-, -, hne⟩
        · exact hnil
        · exact absurd rfl hne
      show _ = entryAfter json c.id (textMessages (w.callsOf c.id ++ if c.id = c.id then _ else _))
      rw [if_pos rfl, hnil]
      rfl
  | disconnected =>
    obtain ⟨hold, hid⟩ := List.mem_filter.mp hentry
    exact hother hold (Ne.symm (of_decide_eq_true hid))
  | textMessage message =>
    obtain ⟨old, hold, hid, hentry⟩ := mem_textMessage hr.nodup hentry
    by_cases hsender : old.id = c.id
    · rw [if_pos hsender] at hentry
      rw [if_pos (hsender.symm.trans hid), textMessages_concat, entryAfter_concat, ← hid, ← h old hold]
      exact hentry
    · rw [if_neg hsender] at hentry
      subst hentry
      exact hother hold (Ne.symm hsender)

theorem kept_step (owner : Owner) (hn : Numbered w) (hr : Registered w) (h : Kept json w)
    (ev : RegistryEvent) : Kept json (w.step json owner ev) := by
  cases ev with
  | call k =>
    simp only [step]
    split
    · exact h
    rename_i c hc
    split
    · exact h
    rename_i call hcall
    exact kept_call hn hr h hc hcall
  | connection k ev =>
    simp only [step]
    split
    · exact h
    · exact h
  | joinConnection =>
    simp only [step]
    split
    · split_ifs <;> exact h
    · exact h
  | clear =>
    simp only [step]
    split_ifs
    · intro entry hentry
      cases hentry
    · exact h
  | _ =>
    simp only [step]
    split_ifs <;> exact h

def Reached (owner : Owner) (c : Accepted) : Prop :=
  ∃ es, Connection.run owner {} es = c.connection

theorem Reached.step {owner : Owner} {c : Accepted} (h : Reached owner c) (ev : ConnectionEvent) :
    Reached owner (c.step owner ev) := by
  obtain ⟨es, hes⟩ := h
  obtain ⟨-, -, hsame | hstep⟩ := c.step_connection owner ev
  · exact ⟨es, hes.trans hsame.symm⟩
  · refine ⟨es ++ [ev], ?_⟩
    rw [hstep, ← hes, Connection.run, Runs.run_append]
    rfl

theorem mem_set_cases {connections : List Accepted} {k : ℕ} {d e : Accepted}
    (h : e ∈ connections.set k d) : e ∈ connections ∨ e = d := by
  obtain ⟨j, hj⟩ := List.mem_iff_getElem?.mp h
  rw [List.getElem?_set] at hj
  split_ifs at hj
  · exact .inr (Option.some.inj hj).symm
  · exact .inl (List.mem_of_getElem? hj)

theorem reached_step (owner : Owner) (h : ∀ c ∈ w.connections, Reached owner c)
    (ev : RegistryEvent) : ∀ c ∈ (w.step json owner ev).connections, Reached owner c := by
  cases ev with
  | accept =>
    simp only [step]
    split_ifs
    · intro c hc
      rcases List.mem_append.mp hc with hold | hnew
      · exact h c hold
      · obtain rfl := List.mem_singleton.mp hnew
        exact ⟨[], rfl⟩
    · exact h
  | connection k ev =>
    simp only [step]
    split
    · exact h
    · rename_i c hc
      intro d hd
      rcases mem_set_cases hd with hold | rfl
      · exact h d hold
      · exact (h c (List.mem_of_getElem? hc)).step ev
  | call k =>
    simp only [step]
    split
    · exact h
    rename_i c hc
    split
    · exact h
    intro d hd
    rcases mem_set_cases hd with hold | rfl
    · exact h d hold
    · obtain ⟨es, hes⟩ := h c (List.mem_of_getElem? hc)
      exact ⟨es, hes⟩
  | joinConnection =>
    simp only [step]
    split
    · split_ifs <;> exact h
    · exact h
  | clear =>
    simp only [step]
    split_ifs <;> exact h
  | _ =>
    simp only [step]
    split_ifs <;> exact h

theorem kept_run (json : Json V δ) (owner : Owner) (es : List RegistryEvent) :
    let w := run json owner ({} : Registry δ) es
    (∀ c ∈ w.connections, Reached owner c) ∧ (w.connections.length ≤ 2 ^ 32 → Kept json w) := by
  have hnone : ∀ c ∈ ({} : Registry δ).connections, Reached owner c :=
    fun c hc => absurd hc List.not_mem_nil
  have hempty : Kept json ({} : Registry δ) := fun entry hentry => absurd hentry List.not_mem_nil
  have hrun : Numbered (run json owner ({} : Registry δ) es) ∧
      (∀ c ∈ (run json owner ({} : Registry δ) es).connections, Reached owner c) ∧
      ((run json owner ({} : Registry δ) es).connections.length ≤ 2 ^ 32 →
        Registered (run json owner ({} : Registry δ) es) ∧
          Kept json (run json owner ({} : Registry δ) es)) := by
    refine Runs.invariant (I := fun w : Registry δ => Numbered w ∧
        (∀ c ∈ w.connections, Reached owner c) ∧
        (w.connections.length ≤ 2 ^ 32 → Registered w ∧ Kept json w)) ?_
      ⟨numbered_new, hnone, fun _ => ⟨registered_new, hempty⟩⟩ es
    rintro w ev ⟨hn, hreached, hkept⟩
    refine ⟨numbered_step json owner w ev hn, reached_step owner hreached ev, fun hbound => ?_⟩
    obtain ⟨hr, hk⟩ := hkept (Nat.le_trans (length_step json owner w ev) hbound)
    exact ⟨registered_step json owner w ev hn hr hbound, kept_step owner hn hr hk ev⟩
  exact ⟨hrun.2.1, fun hbound => (hrun.2.2 hbound).2⟩

/-- The entry of a listed client is what the texts of its connection make of a new one, whatever
other clients do; and those texts begin the ones in the bytes that were read behind its head. -/
theorem entry_of_own_messages (json : Json V δ) (owner : Owner) (es : List RegistryEvent) :
    let w := run json owner ({} : Registry δ) es
    w.connections.length ≤ 2 ^ 32 → ∀ entry ∈ w.clients, ∃ c ∈ w.connections, c.id = entry.id ∧
      entry = entryAfter json c.id (textMessages c.told) ∧
      ∃ evs, (Tap.run owner evs).conn = c.connection ∧ (Tap.run owner evs).Handed ∧
        textMessages c.told <+: texts (heard (pushed (Tap.run owner evs).ops)) := by
  intro w hbound entry hentry
  obtain ⟨hn, hr⟩ : Numbered w ∧ (w.connections.length ≤ 2 ^ 32 → Registered w) :=
    registered_run json owner es
  obtain ⟨hreached, hkept⟩ : (∀ c ∈ w.connections, Reached owner c) ∧
    (w.connections.length ≤ 2 ^ 32 → Kept json w) := kept_run json owner es
  have hlisted := ((hr hbound).listed entry.id).mp (List.mem_map_of_mem hentry)
  obtain ⟨c, hc, hid⟩ := (hr hbound).known entry.id (List.ne_nil_of_mem hlisted.1)
  have htold := (hr hbound).told c hc
  refine ⟨c, hc, hid, ?_, ?_⟩
  · rw [← htold, hid]
    exact hkept hbound entry hentry
  · obtain ⟨evs, hevs⟩ := hreached c hc
    have hconn := (Tap.run_conn owner evs).trans hevs
    have hsound := Tap.sound_run owner evs
    have hcalls : (Connection.run owner {} evs).calls ≠ [] := by
      rw [hevs]
      have hmem : ListenerCall.connected ∈ c.told := by rw [← htold, hid]; exact hlisted.1
      exact List.ne_nil_of_mem (List.mem_of_mem_take hmem)
    obtain ⟨response, hresponse⟩ := Option.ne_none_iff_exists'.mp
      (Connection.response_of_calls owner evs hcalls)
    refine ⟨evs, hconn, hsound.handed response ?_, ?_⟩
    · rw [Tap.run_conn, hresponse]
    · have htexts : textMessages c.told <+: textMessages c.connection.calls :=
        (List.take_prefix _ _).filterMap _
      have hmessages : textMessages c.connection.calls <+:
          texts (heard (pushed (Tap.run owner evs).ops)) := by
        rw [← hconn, hsound.texts]
        exact (hsound.messages_prefix.filter _).map _
      exact htexts.trans hmessages

def readyJson : Json (List UInt8) ℕ where
  parse := id
  isObject _ := true
  getProperty parsed key := some (if key = "type" then [] else parsed)
  toString parsed :=
    match parsed.length with
    | 0 => "ready"
    | 1 => "phone"
    | _ => "tablet"
  toInt _ := 0
  toDouble _ := 0
  toBool _ := false

def twoTexts : List RegistryEvent :=
  -- two clients that say in turns what they are; the first one says so twice
  let idle : List ConnectionEvent := [.thread {}, .thread {}]
  let phone : List UInt8 := [0x81, 0x81, 0, 0, 0, 0, 0x79]
  [.start true, .accept, .accept] ++ turns upgrading ++ [.call 0, .call 1] ++ turns idle ++
    [.connection 0 (.thread { read := phone }), .connection 1 (.thread { read := phone }),
      .connection 0 (.thread {}), .connection 1 (.thread {}), .call 1, .call 0] ++
    turns idle ++ [.connection 0 (.thread {}), .connection 0 (.thread { read := Tap.textFrame }),
      .connection 0 (.thread {}), .call 0]

theorem entry_of_own_messages_two :
    let w := run readyJson plainOwner ({} : Registry ℕ) twoTexts
    w.clients.map (·.userAgent) = ["tablet", "phone"] ∧
      ∀ entry ∈ w.clients, ∃ c ∈ w.connections, c.id = entry.id ∧
        entry = entryAfter readyJson c.id (textMessages c.told) := by
  intro w
  refine ⟨by decide +kernel, fun entry hentry => ?_⟩
  obtain ⟨c, hc, hid, hfold, -⟩ :=
    entry_of_own_messages readyJson plainOwner twoTexts (by decide +kernel) entry hentry
  exact ⟨c, hc, hid, hfold⟩

end Registry
end Ppm.Engine

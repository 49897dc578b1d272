import Mathlib
import PhonePostMix.Engine.Numbering
import PhonePostMix.Plugin.Packets
import PhonePostMix.Receiver.Tally
import PhonePostMix.Server.Segments

/-! The sender's packets on their way through the queue of a client to the losses that client
reports. -/

namespace Ppm.Server
open StreamServer

namespace Recipient

def audio (c : Recipient) : List Outgoing := packets c.offered

def delivered (c : Recipient) (n : ℕ) : List Outgoing := (packets c.popped).take n

/-- Offered, and neither taken out of the queue nor still in it. -/
def Discarded (c : Recipient) (out : Outgoing) : Prop := out ∉ c.popped ++ c.sendQueue.queue

instance (c : Recipient) (out : Outgoing) : Decidable (c.Discarded out) :=
  inferInstanceAs (Decidable (_ ∉ _))

def discardedBetween (c : Recipient) (n : ℕ) : ℕ :=
  (GapCounter.window (fun out => decide (out ∉ c.delivered n)) c.audio).countP
    fun out => decide (c.Discarded out)

/-- The binary messages are, in order, what the first packets to leave the queue carry. -/
def Receives (c : Recipient) (payloads : List (List UInt8)) : Prop :=
  payloads.map (WebSocket.writeFrame [] .binary) <+: (packets c.popped).map (·.frame)

instance (c : Recipient) (payloads : List (List UInt8)) : Decidable (c.Receives payloads) :=
  inferInstanceAs (Decidable (_ <+: _))

variable {c : Recipient}

theorem Sound.sublist (h : c.Sound) (n : ℕ) :
    (c.delivered n ++
      ((packets c.popped).drop n ++ packets c.sendQueue.queue)).Sublist c.audio := by
  have hsplit : c.delivered n ++ ((packets c.popped).drop n ++ packets c.sendQueue.queue) =
      packets (c.popped ++ c.sendQueue.queue) := by
    rw [delivered, ← List.append_assoc, List.take_append_drop, packets, packets, packets,
      List.filter_append]
  rw [hsplit]
  exact h.delivery.inOrder.filter _

theorem Sound.discarded_iff (h : c.Sound) (hnodup : c.audio.Nodup) {n : ℕ} {out : Outgoing}
    (hout : out ∈ GapCounter.window (fun out => decide (out ∉ c.delivered n)) c.audio) :
    c.Discarded out ↔ out ∉ c.delivered n := by
  have hlater := GapCounter.not_mem_of_window (h.sublist n) hnodup hout
  have hdroppable : out.droppable = true :=
    (List.mem_filter.mp (GapCounter.window_within.subset hout)).2
  constructor
  · intro hdiscarded hdelivered
    have hpopped := (List.mem_filter.mp (List.mem_of_mem_take hdelivered)).1
    exact hdiscarded (List.mem_append_left _ hpopped)
  · intro hmissing hkept
    have hkept' : out ∈ packets c.popped ++ packets c.sendQueue.queue := by
      rw [packets, packets, ← List.filter_append]
      exact List.mem_filter.mpr ⟨hkept, hdroppable⟩
    rw [← List.take_append_drop n (packets c.popped), List.append_assoc] at hkept'
    rcases List.mem_append.mp hkept' with hfirst | hrest
    · exact hmissing hfirst
    · exact hlater hrest

end Recipient
end Ppm.Server

namespace Ppm
open Engine Server StreamServer Wire WebSocket

/-- The streaming thread, its packet buffer and the server it broadcasts through. `handshaken`
records the connections that have been upgraded. -/
structure Link where
  threads : Threads FloatSample := {}
  packet : List UInt8 := []
  server : StreamServer
  handshaken : List ℕ := []

inductive LinkEvent where
  | threads (ev : ThreadEvent FloatSample)
  | server (ev : Event)

namespace Link

def start (queueLimitBytes : ℕ) : Link := { server := .start queueLimitBytes }

def blocked (w : Link) : Bool :=
  w.server.broadcasting.any fun b =>
    b.out.droppable || w.threads.engine.stage == some .sendPacket

def stream (w : Link) (clock : UInt32) : Link :=
  if w.blocked then w
  else if w.threads.engine.stage = some .sendPacket then
    let packet := Plugin.overwritten w.threads.engine w.packet clock
    { w with
      threads := w.threads.stream clock
      packet
      server := w.server.step (.broadcastBinary packet) }
  else { w with threads := w.threads.stream clock }

def upgrade (w : Link) (i : ℕ) : Link :=
  if i < w.server.accepted ∧ i ∉ w.handshaken then
    { w with server := w.server.step (.upgrade i), handshaken := w.handshaken ++ [i] }
  else w

def step (w : Link) : LinkEvent → Link
  | .threads (.stream clock) => w.stream clock
  | .threads ev => { w with threads := w.threads.step ev }
  | .server (.upgrade i) => w.upgrade i
  -- nobody but the streaming thread broadcasts packets
  | .server (.broadcastBinary _) => w
  | .server ev => { w with server := w.server.step ev }

def run (w : Link) (es : List LinkEvent) : Link := Runs.run step w es

def Carries (out : Outgoing) (info : PacketInfo) : Prop :=
  ∃ rest, out.frame = writeFrame [] .binary (fields info ++ rest)

structure Coupled (w : Link) : Prop where
  accounted : Accounted w.server
  ordered : w.server.Ordered
  labelled : w.server.Labelled
  segmented : w.server.Segmented w.handshaken
  counted : ∃ h, w.threads.Counted h
  carries : List.Forall₂ Carries (packets w.server.sent) (w.threads.engine.sent.map Packet.info)

theorem coupled_start (limit : ℕ) : Coupled (start limit) where
  accounted := accounted_start limit
  ordered := ordered_start limit
  labelled _ _ hout := nomatch hout
  segmented := segmented_start limit
  counted := ⟨[], Threads.counted_new⟩
  carries := .nil

theorem overwritten_fields (e : StreamEngine FloatSample) (packet : List UInt8) (clock : UInt32) :
    ∃ rest, Plugin.overwritten e packet clock = fields (e.packetInfo clock) ++ rest := by
  rw [Plugin.overwritten, writePacket, Buffer.within, take_writeHeader]
  exact ⟨_, rfl⟩

theorem sent_step {w : Threads FloatSample} {h : List (Latch.Mark PacketInfo)}
    (hw : w.Counted h) (ev : ThreadEvent FloatSample) :
    (w.step ev).engine.sent.map Packet.info =
      w.engine.sent.map Packet.info ++ Latch.takes (w.marks ev) := by
  rw [← hw.taken, ← (Threads.counted_step w h ev hw).taken, Latch.takes_append]

variable {w : Link}

theorem coupled_threads (h : Coupled w) (ev : ThreadEvent FloatSample)
    (hquiet : Latch.takes (w.threads.marks ev) = []) :
    Coupled { w with threads := w.threads.step ev } := by
  obtain ⟨marks, hcounted⟩ := h.counted
  refine ⟨h.accounted, h.ordered, h.labelled, h.segmented,
    ⟨_, Threads.counted_step w.threads marks ev hcounted⟩, ?_⟩
  rw [sent_step hcounted, hquiet, List.append_nil]
  exact h.carries

theorem coupled_server (h : Coupled w) (ev : Event) (hupgrade : ∀ i, ev ≠ .upgrade i)
    (hbinary : ∀ data, ev ≠ .broadcastBinary data) :
    Coupled { w with server := w.server.step ev } := by
  refine ⟨accounted_step h.accounted ev, ordered_step h.accounted h.ordered ev,
    labelled_step h.ordered h.labelled ev,
    segmented_step h.accounted h.ordered h.segmented ev hupgrade, h.counted, ?_⟩
  show List.Forall₂ Carries (packets (w.server.step ev).sent) _
  rw [packets_step w.server ev hbinary]
  exact h.carries

theorem coupled_upgrade (h : Coupled w) (i : ℕ) : Coupled (w.upgrade i) := by
  unfold upgrade
  split_ifs with hnew
  swap
  · exact h
  refine ⟨accounted_step h.accounted (.upgrade i), ordered_step h.accounted h.ordered (.upgrade i),
    labelled_step h.ordered h.labelled (.upgrade i), segmented_upgrade h.segmented i hnew.2,
    h.counted, ?_⟩
  show List.Forall₂ Carries (packets (w.server.step (.upgrade i)).sent) _
  rw [packets_step w.server (.upgrade i) nofun]
  exact h.carries

theorem coupled_stream (h : Coupled w) (clock : UInt32) : Coupled (w.stream clock) := by
  unfold stream
  split_ifs with hblocked hstage
  · exact h
  · obtain ⟨marks, hcounted⟩ := h.counted
    have hidle : w.server.broadcasting = none := by
      cases hb : w.server.broadcasting with
      | none => rfl
      | some b => simp [blocked, hb, hstage] at hblocked
    obtain ⟨rest, hrest⟩ := overwritten_fields w.threads.engine w.packet clock
    generalize Plugin.overwritten w.threads.engine w.packet clock = bytes at hrest ⊢
    refine ⟨accounted_step h.accounted (.broadcastBinary bytes),
      ordered_step h.accounted h.ordered (.broadcastBinary bytes),
      labelled_step h.ordered h.labelled (.broadcastBinary bytes),
      segmented_step h.accounted h.ordered h.segmented (.broadcastBinary bytes) nofun,
      ⟨_, Threads.counted_step w.threads marks (.stream clock) hcounted⟩, ?_⟩
    have hsent : (w.threads.stream clock).engine.sent.map Packet.info =
        w.threads.engine.sent.map Packet.info ++ [w.threads.engine.packetInfo clock] := by
      refine (sent_step hcounted (.stream clock)).trans ?_
      rw [Threads.marks, if_pos hstage]
      rfl
    rw [hsent]
    simp only [StreamServer.step, beginBroadcast, hidle, packets, List.filter_append,
      List.filter_cons_of_pos, List.filter_nil]
    refine List.rel_append h.carries (.cons ⟨rest, ?_⟩ .nil)
    exact congrArg (writeFrame [] .binary) hrest
  · refine coupled_threads h (.stream clock) ?_
    rw [Threads.marks, if_neg hstage]
    rfl

theorem coupled_step (w : Link) (e : LinkEvent) (h : Coupled w) : Coupled (w.step e) := by
  cases e with
  | threads ev =>
    cases ev with
    | stream clock => exact coupled_stream h clock
    | advance i =>
      refine coupled_threads h (.advance i) ?_
      unfold Threads.marks
      dsimp only
      split
      · rfl
      · split_ifs <;> rfl
    | _ => exact coupled_threads h _ rfl
  | server ev =>
    cases ev with
    | upgrade i => exact coupled_upgrade h i
    | broadcastBinary data => exact h
    | _ => exact coupled_server h _ nofun nofun

theorem coupled_run (limit : ℕ) (es : List LinkEvent) : Coupled (run (start limit) es) :=
  Runs.invariant coupled_step (coupled_start limit) es

theorem exists_map_of_forall₂ {α β : Type} [DecidableEq α] {R : α → β → Prop} (b : β)
    {l : List α} {m : List β} (h : List.Forall₂ R l m) (hl : l.Nodup) :
    ∃ g : α → β, l.map g = m ∧ ∀ x ∈ l, R x (g x) := by
  induction h with
  | nil => exact ⟨fun _ => b, rfl, nofun⟩
  | @cons x y l m hxy _ ih =>
    obtain ⟨hx, hnodup⟩ := List.nodup_cons.mp hl
    obtain ⟨g, hmap, hg⟩ := ih hnodup
    have hother : ∀ z ∈ l, Function.update g x y z = g z := by
      intro z hz
      refine Function.update_of_ne ?_ _ _
      rintro rfl
      exact hx hz
    refine ⟨Function.update g x y, ?_, fun z hz => ?_⟩
    · rw [List.map_cons, Function.update_self, List.map_congr_left hother, hmap]
    · rcases List.mem_cons.mp hz with rfl | hz'
      · rw [Function.update_self]
        exact hxy
      · rw [hother z hz']
        exact hg z hz'

theorem Coupled.numbered (h : Coupled w) :
    ∃ header : Outgoing → PacketInfo,
      (∀ out ∈ packets w.server.sent, Carries out (header out)) ∧
      GapCounter.Consecutive (2 ^ 32) (fun out => (header out).sequence.toNat)
        (packets w.server.sent) := by
  obtain ⟨marks, hcounted⟩ := h.counted
  obtain ⟨header, hmap, hcarries⟩ :=
    exists_map_of_forall₂ {} h.carries (h.ordered.nodup_sent.filter _)
  refine ⟨header, hcarries, ?_⟩
  have hchain := hcounted.sequence_chain
  rw [← hmap, List.isChain_map] at hchain
  refine hchain.imp fun x y hxy => ?_
  show (header y).sequence.toNat = ((header x).sequence.toNat + 1) % 2 ^ 32
  rw [hxy, UInt32.toNat_add]
  rfl

theorem packetNumbers_eq {header : Outgoing → PacketInfo} {sent : List Outgoing}
    (hsent : ∀ out ∈ sent, Carries out (header out)) {payloads : List (List UInt8)}
    (hframes : payloads.map (writeFrame [] .binary) = sent.map (·.frame)) :
    payloads.filterMap packetNumber = sent.map fun out => (header out).sequence.toNat := by
  induction sent generalizing payloads with
  | nil => rw [List.map_eq_nil_iff.mp hframes, List.filterMap_nil, List.map_nil]
  | cons out sent ih =>
    obtain ⟨payload, payloads, rfl, hpayload, hrest⟩ := List.map_eq_cons_iff.mp hframes
    obtain ⟨rest, hframe⟩ := hsent out List.mem_cons_self
    have hbytes : payload = fields (header out) ++ rest :=
      writeFrame_injective .binary (hpayload.trans hframe)
    rw [hbytes, List.filterMap_cons, packetNumber_fields, List.map_cons,
      ih (fun x hx => hsent x (List.mem_cons_of_mem _ hx)) hrest]

theorem Coupled.tally_eq {σ ε : Type} (h : Coupled w) (C : GapCounter σ ε (2 ^ 32) (2 ^ 31 - 1))
    {payload : ε → Option (List UInt8)}
    (hnumber : ∀ e, C.number e = (payload e).bind packetNumber) {i : ℕ} {c : Recipient}
    (hc : w.server.recipients i = c)
    (hgaps : ∀ gap, gap <:+: c.audio → (∀ out ∈ gap, c.Discarded out) → gap.length < 2 ^ 31 - 1)
    {s : σ} (hfresh : (C.tally s).last = none) {es : List ε}
    (hreceives : c.Receives (es.filterMap payload)) :
    (C.tally (Runs.run C.step s es)).lost =
        (C.tally s).lost + c.discardedBetween (es.filterMap payload).length ∧
      (C.tally (Runs.run C.step s es)).reordered = (C.tally s).reordered := by
  have hsound : c.Sound := hc ▸ h.accounted.sound i
  have hsegment : c.audio <:+: packets w.server.sent := by
    rw [← hc]
    exact packets_segment h.labelled h.segmented i
  have hnodup : c.audio.Nodup := (h.ordered.nodup_sent.filter _).sublist hsegment.sublist
  obtain ⟨header, hcarries, hconsecutive⟩ := h.numbered
  obtain ⟨n, hn⟩ : ∃ n, n = (es.filterMap payload).length := ⟨_, rfl⟩
  rw [← hn]
  have hdelivered : (c.delivered n).Sublist c.audio :=
    (List.sublist_append_left _ _).trans (hsound.sublist n)
  have hframes : (es.filterMap payload).map (writeFrame [] .binary) =
      (c.delivered n).map (·.frame) := by
    have htake := List.prefix_iff_eq_take.mp hreceives
    rw [List.length_map, ← hn, ← List.map_take] at htake
    exact htake
  have hnumbers : es.filterMap C.number =
      (c.audio.filter fun out => !decide (out ∉ c.delivered n)).map
        fun out => (header out).sequence.toNat := by
    have hself := DropOldest.eq_filter_of_sublist hdelivered hnodup
    have hall := packetNumbers_eq (fun out hout =>
      hcarries out (hsegment.subset (hdelivered.subset hout))) hframes
    rw [List.filterMap_filterMap] at hall
    simp only [decide_not, Bool.not_not]
    rw [← hself, ← hall]
    exact List.filterMap_congr fun e _ => hnumber e
  have hwindow (out : Outgoing)
      (hout : out ∈ GapCounter.window (fun out => decide (out ∉ c.delivered n)) c.audio) :
      decide (out ∉ c.delivered n) = decide (c.Discarded out) :=
    decide_eq_decide.mpr (hsound.discarded_iff hnodup hout).symm
  have hnumbered : GapCounter.Consecutive (2 ^ 32) (fun out => (header out).sequence.toNat)
      c.audio := List.IsChain.infix hconsecutive hsegment
  have hrun := C.tally_run hnumbered (fun gap hgap hmissing =>
    hgaps gap (hgap.trans GapCounter.window_within) fun out hout =>
      of_decide_eq_true ((hwindow out (hgap.subset hout)).symm.trans (hmissing out hout)))
    hfresh hnumbers
  rw [hrun]
  refine ⟨?_, rfl⟩
  show _ + List.countP _ _ = _ + c.discardedBetween n
  rw [Recipient.discardedBetween, List.countP_congr]
  intro out hout
  rw [hwindow out hout]

/-- Whatever the queue of a client discards, short of `2 ^ 31 - 1` packets in a row, a page and a
listener that have just started count exactly what was discarded between the first packet they
are handed and the latest, across the wrap of the numbers. -/
theorem losses_accounted (limit : ℕ) (es : List LinkEvent) (i : ℕ) :
    let c := (run (start limit) es).server.recipients i
    (∀ gap, gap <:+: c.audio → (∀ out ∈ gap, c.Discarded out) → gap.length < 2 ^ 31 - 1) →
      (∀ (exp : ℚ → ℚ) (ctx : Receiver.AudioContext) (inputs : List Receiver.Incoming),
        let payloads := inputs.filterMap Receiver.Incoming.payload
        c.Receives payloads →
          let stats := (Runs.run (Receiver.Player.take exp ctx) {} inputs).stats
          stats.lost = c.discardedBetween payloads.length ∧ stats.reordered = 0) ∧
      ∀ (τ : Type) (wav : Bool) (calls : List (Listen.Call τ)),
        let payloads := calls.filterMap Listen.Call.payload
        c.Receives payloads →
          (Runs.run (Listen.State.handle wav) {} calls).lost =
            c.discardedBetween payloads.length := by
  intro c hgaps
  have hcoupled := coupled_run limit es
  refine ⟨fun exp ctx inputs => ?_, fun τ wav calls => ?_⟩
  · intro payloads hreceives
    have htally := hcoupled.tally_eq (Receiver.Player.counter exp ctx) (fun _ => rfl) rfl hgaps
      (s := {}) rfl hreceives
    exact ⟨htally.1.trans (Nat.zero_add _), htally.2⟩
  · intro payloads hreceives
    have htally := hcoupled.tally_eq (Listen.State.counter τ wav) (fun _ => rfl) rfl hgaps
      (s := {}) rfl hreceives
    exact htally.1.trans (Nat.zero_add _)

def connected : List LinkEvent :=
  [.server .accept, .server (.upgrade 0), .threads (.setSettings { framesPerPacket := 1 })] ++
    List.replicate 3 (.threads (.advance 0)) ++ [.threads (.start true)] ++
    List.replicate 4 (.threads (.advance 1)) ++ [.threads (.stream 0)]

def keepalive (clock : UInt32) : List LinkEvent :=
  List.replicate 8 (.threads (.stream clock)) ++
    [.server .check, .server .offer, .server .release]

def overtaken : List LinkEvent :=
  -- the third packet finds the second one still in the queue, which has room for one
  connected ++ keepalive 1000 ++ [.server (.pop 0)] ++ keepalive 2000 ++ keepalive 3000 ++
    [.server (.pop 0)]

theorem losses_accounted_overtaken :
    let c := (run (start 64) overtaken).server.recipients 0
    let inputs : List Receiver.Incoming :=
      c.popped.map fun out => .event (.packet (out.frame.drop 2))
    let calls : List (Listen.Call Unit) := c.popped.map fun out => .onBinary (out.frame.drop 2)
    let stats := (Runs.run (Receiver.Player.take id ⟨48000, by norm_num⟩) {} inputs).stats
    (stats.lost = 1 ∧ stats.reordered = 0) ∧
      (Runs.run (Listen.State.handle true) {} calls).lost = 1 := by
  intro c inputs calls stats
  have hgaps : ∀ gap, gap <:+: c.audio → (∀ out ∈ gap, c.Discarded out) →
      gap.length < 2 ^ 31 - 1 := by
    intro gap hgap _
    have hoffered : c.audio.length = 3 := by decide +kernel
    have hshort := hgap.length_le
    omega
  obtain ⟨hpage, hlistener⟩ := losses_accounted 64 overtaken 0 hgaps
  have hreceives : c.Receives (inputs.filterMap Receiver.Incoming.payload) := by decide +kernel
  have hreceives' : c.Receives (calls.filterMap Listen.Call.payload) := by decide +kernel
  have hlost : c.discardedBetween (inputs.filterMap Receiver.Incoming.payload).length = 1 := by
    decide +kernel
  have hlost' : c.discardedBetween (calls.filterMap Listen.Call.payload).length = 1 := by
    decide +kernel
  obtain ⟨hcounted, hordered⟩ := hpage id ⟨48000, by norm_num⟩ inputs hreceives
  exact ⟨⟨hcounted.trans hlost, hordered⟩, (hlistener Unit true calls hreceives').trans hlost'⟩

end Link
end Ppm

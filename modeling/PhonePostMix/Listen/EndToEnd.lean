import Mathlib.Data.List.Flatten
import PhonePostMix.Engine.OneConfiguration
import PhonePostMix.Library.Radix
import PhonePostMix.Listen.WavFile
import PhonePostMix.Plugin.Packets
import PhonePostMix.Server.ServerFrames
import PhonePostMix.WebSocket.ParserBounds

/-! From what the host pushes to the file of the command-line listener: through the ring and the
packets, the queue of the connection, the frames on the wire and the recording. -/

namespace Ppm.WebSocket
open Streaming

theorem drainLive_bounded {max : ℕ} (r : Reassembly) (b : List UInt8) (hr : r.assembly.length ≤ max) :
    ∀ f ∈ ((frameDecoder max).drainLive r b).1, f.payload.length ≤ max := by
  induction r, b using Decoder.drainLive.induct (frameDecoder max) with
  | case1 r b h => simp [Decoder.drainLive_wait h]
  | case2 r b e h => simp [Decoder.drainLive_fail h]
  | case3 r b rest r' m h ih =>
    obtain ⟨f, size, hread, haccept, -⟩ := attempt_take h
    obtain ⟨hassembly, hmessage⟩ := Reassembly.accept_bounded haccept hr (readFrame_payload hread)
    rw [Decoder.drainLive_take h]
    intro g hg
    rcases List.mem_append.mp hg with hg | hg
    · exact hmessage g (Option.mem_toList.mp hg)
    · exact ih hassembly g hg

end Ppm.WebSocket

namespace Ppm.Server
open DropOldest Listen Streaming WebSocket

theorem Tap.message_bounded (t : Tap) : ∀ f ∈ t.messages, f.payload.length ≤ 1048576 := by
  intro f hf
  have hall := FrameParser.run_drain_frames 1048576 t.ops
  obtain ⟨hframes, -⟩ := ((FrameParser.new_follows 1048576).push (pushed t.ops)).drain
  rw [FrameParser.push_maxPayloadSize] at hframes
  rw [hframes] at hall
  refine drainLive_bounded {} (pushed t.ops) (Nat.zero_le _) f ?_
  have hmem : f ∈ ((FrameParser.new 1048576).run t.ops).1 ++
      ((FrameParser.new 1048576).run t.ops).2.drain.frames := List.mem_append_left _ hf
  rw [hall] at hmem
  exact hmem

def Call.audio : Call → Option (List UInt8)
  | broadcastBinary data => some data
  | _ => none

def outgoing (f : Opcode × List UInt8) : Outgoing where
  frame := writeFrame [] f.1 f.2
  droppable := f.1 = .binary

def Call.Short : Call → Prop
  -- what is broadcast is short enough for a reader that counts in doubles
  | broadcastBinary data => data.1.length < 2 ^ 53
  | broadcastText text => text.1.length < 2 ^ 53
  | thread _ => True

instance : DecidablePred Call.Short
  | .broadcastBinary data => inferInstanceAs (Decidable (data.1.length < 2 ^ 53))
  | .broadcastText text => inferInstanceAs (Decidable (text.1.length < 2 ^ 53))
  | .thread _ => inferInstanceAs (Decidable True)

namespace Connection
variable (owner : Owner) {c : Connection}

theorem phase_of_finished (hfinished : c.phase = .finished) (a : Answers) :
    c.threadStep owner a = c := by
  unfold threadStep
  rw [hfinished]

end Connection

/-- What the queue was given, as frames, is the audio of a stretch of the calls between other
frames: nothing before the upgrade, and nothing after the thread has finished. -/
structure Outbox.Audience (o : Outbox) (heard : List (List UInt8))
    (frames : List (Opcode × List UInt8)) : Prop where
  enqueued : o.enqueued = frames.map outgoing
  kinds : ∀ f ∈ frames, f.1 = .text ∨ f.1 = .binary ∨ f.1 = .pong
  short : ∀ f ∈ frames, f.1 ≠ .pong → f.2.length < 2 ^ 53
  audio : ∃ before after, heard = before ++ binaries frames ++ after ∧
    (after ≠ [] → o.tap.conn.phase = .finished)
  fresh : o.tap.conn.upgraded = false → o.tap.conn.phase ≠ .finished → frames = []

namespace Outbox
variable (owner : Owner) {o : Outbox} {heard : List (List UInt8)}
  {frames : List (Opcode × List UInt8)}

theorem audience_new : Audience {} [] [] where
  enqueued := rfl
  kinds _ h := absurd h List.not_mem_nil
  short _ h := absurd h List.not_mem_nil
  audio := ⟨[], [], rfl, fun h => absurd rfl h⟩
  fresh _ _ := rfl

theorem binaries_append (fs gs : List (Opcode × List UInt8)) :
    binaries (fs ++ gs) = binaries fs ++ binaries gs := List.filterMap_append

theorem Audience.add (h : o.Audience heard frames) (hgoing : o.tap.conn.phase ≠ .finished)
    {fs : List (Opcode × List UInt8)} (hkinds : ∀ f ∈ fs, f.1 = .text ∨ f.1 = .binary ∨ f.1 = .pong)
    (hshort : ∀ f ∈ fs, f.1 ≠ .pong → f.2.length < 2 ^ 53) (o' : Outbox)
    (henqueued : o'.enqueued = o.enqueued ++ fs.map outgoing)
    (hfresh : o'.tap.conn.upgraded = false → o'.tap.conn.phase ≠ .finished → frames ++ fs = []) :
    o'.Audience (heard ++ binaries fs) (frames ++ fs) := by
  obtain ⟨before, after, haudio, hafter⟩ := h.audio
  obtain rfl : after = [] := not_not.mp (mt hafter hgoing)
  refine ⟨?_, fun f hf => ?_, fun f hf => ?_, ⟨before, [], ?_, fun hne => absurd rfl hne⟩, hfresh⟩
  · rw [henqueued, h.enqueued, List.map_append]
  · rcases List.mem_append.mp hf with hf | hf
    · exact h.kinds f hf
    · exact hkinds f hf
  · rcases List.mem_append.mp hf with hf | hf
    · exact h.short f hf
    · exact hshort f hf
  · rw [haudio, binaries_append, List.append_nil, List.append_nil, List.append_assoc]

theorem Audience.miss (h : o.Audience heard frames) (hclosed : o.tap.conn.upgraded = false)
    (more : List (List UInt8)) : o.Audience (heard ++ more) frames := by
  obtain ⟨before, after, haudio, hafter⟩ := h.audio
  refine ⟨h.enqueued, h.kinds, h.short, ?_, h.fresh⟩
  by_cases hfinished : o.tap.conn.phase = .finished
  · exact ⟨before, after ++ more, by rw [haudio, List.append_assoc], fun _ => hfinished⟩
  · obtain rfl := h.fresh hclosed hfinished
    exact ⟨heard ++ more, [], by simp [binaries], fun hne => absurd rfl hne⟩

theorem audience_broadcast (h : o.Audience heard frames) (hcalling : o.tap.conn.Calling)
    {call : Call} {f : Opcode × List UInt8} (hf : f.1 = .text ∨ f.1 = .binary)
    (hshort : f.2.length < 2 ^ 53) (hevent : call.event = .enqueue (outgoing f)) :
    ∃ frames', (o.step owner call).Audience (heard ++ binaries [f]) frames' := by
  have hconn : (o.step owner call).tap.conn = o.tap.conn.enqueue owner (outgoing f) := by
    rw [step, hevent]
    rfl
  have hqueued : (o.step owner call).enqueued =
      o.enqueued ++ if o.tap.conn.upgraded then [outgoing f] else [] := by
    rw [step, hevent]
    rfl
  cases hupgraded : o.tap.conn.upgraded with
  | true =>
    have hgoing : o.tap.conn.phase ≠ .finished := by
      intro hphase
      have hflag := hcalling.flag false (by rw [hphase]; rfl)
      rw [hupgraded] at hflag
      cases hflag
    refine ⟨frames ++ [f], h.add hgoing ?_ ?_ _ ?_ fun hclosed => ?_⟩
    · rintro g hg
      rw [List.mem_singleton.mp hg]
      exact hf.imp_right .inl
    · rintro g hg -
      rw [List.mem_singleton.mp hg]
      exact hshort
    · rw [hqueued, hupgraded]
      rfl
    · rw [hconn, Connection.enqueue, if_pos hupgraded] at hclosed
      rw [hupgraded] at hclosed
      cases hclosed
  | false =>
    obtain ⟨henqueued, hkinds, hfew, haudio, hfresh⟩ := h.miss hupgraded (binaries [f])
    rw [hupgraded, if_neg Bool.false_ne_true, List.append_nil] at hqueued
    rw [Connection.enqueue, if_neg (by simp [hupgraded])] at hconn
    exact ⟨frames, hqueued.trans henqueued, hkinds, hfew, hconn ▸ haudio, hconn ▸ hfresh⟩

theorem pongs_outgoing (ms : List Frame) :
    ∃ fs : List (Opcode × List UInt8), pongs ms = fs.map outgoing ∧ ∀ f ∈ fs, f.1 = .pong := by
  refine ⟨(ms.filter (·.opcode = .ping)).map fun m => (.pong, m.payload), ?_, ?_⟩
  · rw [List.map_map]
    rfl
  · intro f hf
    obtain ⟨m, -, rfl⟩ := List.mem_map.mp hf
    rfl

theorem audience_thread (h : o.Audience heard frames) (hcalling : o.tap.conn.Calling)
    (a : Answers) : ∃ frames', (o.step owner (.thread a)).Audience heard frames' := by
  have hconn : (o.step owner (.thread a)).tap.conn = o.tap.conn.threadStep owner a := rfl
  have hqueued : (o.step owner (.thread a)).enqueued = o.enqueued ++ o.tap.conn.pongQueued := rfl
  by_cases hfinished : o.tap.conn.phase = .finished
  · rw [Connection.phase_of_finished owner hfinished] at hconn
    have hnone : o.tap.conn.pongQueued = [] := pongQueued_quiet (by simp [hfinished])
    rw [hnone, List.append_nil] at hqueued
    exact ⟨frames, hqueued.trans h.enqueued, h.kinds, h.short, hconn ▸ h.audio, hconn ▸ h.fresh⟩
  · have hpongs : ∃ fs : List (Opcode × List UInt8), o.tap.conn.pongQueued = fs.map outgoing ∧
        (∀ f ∈ fs, f.1 = .pong) ∧ (o.tap.conn.upgraded = false → fs = []) := by
      unfold Connection.pongQueued
      split
      · split_ifs with hupgraded
        · obtain ⟨fs, hfs, hkind⟩ :=
            pongs_outgoing (FrameParser.delivered o.tap.conn.parser.nextFrame.1).toList
          exact ⟨fs, hfs, hkind, fun hclosed => by simp [hupgraded] at hclosed⟩
        · exact ⟨[], rfl, fun f hf => absurd hf List.not_mem_nil, fun _ => rfl⟩
      · exact ⟨[], rfl, fun f hf => absurd hf List.not_mem_nil, fun _ => rfl⟩
    obtain ⟨fs, hfs, hkind, hnone⟩ := hpongs
    have hsilent : binaries fs = [] := by
      refine List.filterMap_eq_nil_iff.mpr fun f hf => ?_
      rw [hkind f hf]
      rfl
    have hnext := h.add hfinished (fun f hf => .inr (.inr (hkind f hf)))
      (fun f hf hne => absurd (hkind f hf) hne) (o.step owner (.thread a)) (by rw [hqueued, hfs]) ?_
    · rw [hsilent, List.append_nil] at hnext
      exact ⟨_, hnext⟩
    · intro hclosed hgoing
      rw [hconn] at hclosed hgoing
      cases hupgraded : o.tap.conn.upgraded with
      | true =>
        rcases Connection.upgraded_threadStep owner hcalling hupgraded a with hup | hend
        · rw [hclosed] at hup
          cases hup
        · exact absurd hend hgoing
      | false => rw [h.fresh hupgraded hfinished, hnone hupgraded, List.append_nil]

def audioOf (calls : List Call) : List (List UInt8) := calls.filterMap Call.audio

theorem audience_step (h : o.Audience heard frames) (hsound : o.Sound) {call : Call}
    (hshort : call.Short) :
    ∃ frames', (o.step owner call).Audience (heard ++ audioOf [call]) frames' := by
  have hcalling := hsound.tap.calling
  cases call with
  | broadcastBinary data =>
    exact audience_broadcast owner (f := (.binary, data)) h hcalling (.inr rfl) hshort rfl
  | broadcastText text =>
    exact audience_broadcast owner (f := (.text, text)) h hcalling (.inl rfl) hshort rfl
  | thread a =>
    obtain ⟨frames', hnext⟩ := audience_thread owner h hcalling a
    exact ⟨frames', by rw [audioOf, List.filterMap_cons_none rfl, List.filterMap_nil,
      List.append_nil]; exact hnext⟩

theorem audience_run (calls : List Call) (hshort : ∀ call ∈ calls, call.Short) :
    ∃ frames, (run owner calls).Audience (audioOf calls) frames := by
  induction calls using List.reverseRecOn with
  | nil => exact ⟨[], audience_new⟩
  | append_singleton calls call ih =>
    obtain ⟨frames, h⟩ := ih fun other hother => hshort other (List.mem_append_left _ hother)
    have hnext := audience_step owner h (sound_run owner calls)
      (hshort call (List.mem_append_right _ (List.mem_singleton_self call)))
    have hstep : run owner (calls ++ [call]) = (run owner calls).step owner call := by
      rw [run, Runs.run_append]
      rfl
    rw [hstep, audioOf, List.filterMap_append]
    exact hnext

theorem Audience.readable (h : o.Audience heard frames) (hsound : o.Sound) :
    ∀ f ∈ frames, Readable f := by
  intro f hf
  refine ⟨h.kinds f hf, ?_⟩
  by_cases hpong : f.1 = .pong
  · have hqueued : outgoing f ∈ o.enqueued := by
      rw [h.enqueued]
      exact List.mem_map_of_mem hf
    have hkind : isPong (outgoing f) = true := by
      obtain ⟨opcode, payload⟩ := f
      obtain rfl : opcode = .pong := hpong
      exact isPong_pongFor ⟨.ping, true, payload⟩
    have hmem : outgoing f ∈ pongs o.tap.messages := by
      rw [← hsound.tap.pongs, ← hsound.answered]
      exact List.mem_filter.mpr ⟨hqueued, hkind⟩
    obtain ⟨m, hm, hframe⟩ := List.mem_map.mp hmem
    have hbound := o.tap.message_bounded m (List.mem_filter.mp hm).1
    have hlength := congrArg (fun out : Outgoing => out.frame.length) hframe
    simp only [pongFor, outgoing, writeFrame, List.nil_append, List.length_append] at hlength
    have hheader : (frameHeader .pong m.payload.length).length ≤ 10 := by
      unfold frameHeader
      split_ifs <;> simp
    omega
  · exact h.short f hf hpong

theorem Audience.popped (h : o.Audience heard frames) (hsound : o.Sound) :
    ∃ sent, o.tap.conn.popped = sent.map outgoing ∧ sent.Sublist frames ∧
      (o.enqueued = o.tap.conn.popped ++ o.tap.conn.sendQueue.queue → sent <+: frames) := by
  obtain ⟨discarded, hdelivery⟩ := hsound.recorded
  have horder := hdelivery.inOrder
  rw [h.enqueued] at horder
  obtain ⟨fs, hfs, hall⟩ := List.sublist_map_iff.mp horder
  obtain ⟨sent, queued, rfl, hsent, -⟩ := List.map_eq_append_iff.mp hall.symm
  refine ⟨sent, hsent.symm, (List.sublist_append_left _ _).trans hfs, fun hnone => ?_⟩
  have hlength := congrArg List.length hnone
  rw [hall, h.enqueued, List.length_map, List.length_map] at hlength
  rw [← hfs.eq_of_length hlength.symm]
  exact List.prefix_append _ _

end Outbox

end Ppm.Server

namespace Ppm.Engine
open Wire

theorem Packet.Exact.flatten_frames {α : Type} [Zero α] {channels : ℕ} {p : Packet α}
    (h : p.Exact channels) (hcopied : p.copied ≠ none) : p.samples = p.frames.flatten := by
  rcases hc : p.copied with _ | copied
  · exact absurd hc hcopied
  simp only [Packet.frames, hc]
  rw [← List.flatMap_def, Radix.flatMap_slices, List.take_of_length_le h.length.le]

end Ppm.Engine

namespace Ppm.Plugin
open Engine Wire

theorem Emission.Faithful.payload {m : Emission} (h : m.Faithful) :
    Wire.payload m.packet.info (fun i => m.samples.getD i 0) =
      m.samples.flatMap (sampleBytes m.packet.info.format) := by
  have hsamples : (List.range m.samples.length).map (fun i => m.samples.getD i 0) = m.samples := by
    refine List.ext_getElem (by simp) fun i _ hi => ?_
    rw [List.getElem_map, List.getElem_range, List.getD_eq_getElem _ _ hi]
  rw [Wire.payload, ← h.length]
  conv_rhs => rw [← hsamples, List.flatMap_map]

namespace Sender
variable {s origin : Sender} {p : Pipeline FloatSample}

theorem engine_step (s : Sender) (ev : EngineEvent FloatSample) :
    (s.step (.engine ev)).processor.engine = s.processor.engine.step ev := by
  cases ev with
  | stream clock => exact engine_stream s clock
  | _ => rfl

theorem guarded_of_steady (hs : s.Sane) (h : s.processor.engine.Steady)
    {ev : PipelineEvent FloatSample}
    (hsound : ∀ settings, ev = .setSettings settings → settings.Sound) :
    s.Guarded (.engine ev.engine) := by
  cases ev with
  | setSettings settings => exact hsound settings rfl
  | stream clock => exact h.channelsKept hs.sampling (.stream clock)
  | pushAudio buffer | setHostPlaying isPlaying | start bound => trivial

theorem samples_outgoing (h : s.Sane) (hstage : s.processor.engine.stage = some .sendPacket)
    (clock : UInt32) : (s.processor.engine.outgoing clock).samples = s.samples := by
  have hlength := (faithful_sendPacket h hstage clock).length
  have hloaded := h.loaded hstage
  show s.processor.engine.scratch.take _ = s.samples
  rw [← hloaded.scratch, ← hloaded.length]
  exact congrArg (List.take · s.processor.engine.scratch) hlength.symm

structure Follows (origin s : Sender) (p : Pipeline FloatSample) : Prop where
  sane : s.Sane
  conserves : p.Conserves
  engine : s.processor.engine = p.engine
  start : p.start = origin.processor.engine
  samples : ∀ m ∈ s.log.drop origin.log.length, m.samples = m.packet.samples

theorem follows_of (h : origin.Sane) (hprepared : origin.processor.engine.Prepared) :
    Follows origin origin (Pipeline.of origin.processor.engine) where
  sane := h
  conserves := Pipeline.conserves_of hprepared
  engine := rfl
  start := rfl
  samples m hm := by simp at hm

theorem Follows.step (h : Follows origin s p) {ev : PipelineEvent FloatSample}
    (hsound : ∀ settings, ev = .setSettings settings → settings.Sound) :
    Follows origin (s.step (.engine ev.engine)) (p.step ev) := by
  have hsteady : s.processor.engine.Steady := h.engine ▸ h.conserves.steady
  have hsane := sane_step h.sane _ (guarded_of_steady h.sane hsteady hsound)
  refine ⟨hsane, Pipeline.conserves_step h.conserves ev, ?_, h.start, ?_⟩
  · rw [engine_step, h.engine]
    rfl
  by_cases hsend : ∃ clock, ev = .stream clock ∧ s.processor.engine.stage = some .sendPacket
  · obtain ⟨clock, rfl, hstage⟩ := hsend
    have hlog : (s.step (.engine (.stream clock))).log = s.log ++
        [⟨s.processor.engine.outgoing clock, s.processor.engine.iteration.active, s.audio,
          s.samples, s.taken, s.written clock⟩] := by
      simp only [Sender.step, stream, hstage]
    intro m hm
    rw [PipelineEvent.engine, hlog, List.drop_append] at hm
    rcases List.mem_append.mp hm with hold | hnew
    · exact h.samples m hold
    · rw [List.mem_singleton.mp (List.mem_of_mem_drop hnew)]
      exact (samples_outgoing h.sane hstage clock).symm
  · have hlog : (s.step (.engine ev.engine)).log = s.log := by
      cases ev with
      | stream clock => exact log_stream_of_ne clock fun hstage => hsend ⟨clock, rfl, hstage⟩
      | _ => rfl
    rw [hlog]
    exact h.samples

theorem Follows.run (h : Follows origin s p) {es : List (PipelineEvent FloatSample)}
    (hsound : ∀ settings, .setSettings settings ∈ es → settings.Sound) :
    Follows origin (s.run (es.map fun ev => .engine ev.engine)) (p.run es) := by
  induction es generalizing s p with
  | nil => exact h
  | cons ev es ih =>
    refine ih (h.step fun settings hev => ?_) fun settings hmem => ?_
    · exact hsound settings (hev ▸ List.mem_cons_self)
    · exact hsound settings (List.mem_cons_of_mem _ hmem)

theorem Follows.packets (h : Follows origin s p) (horigin : origin.Sane) :
    p.packets = (s.log.drop origin.log.length).map Emission.packet := by
  rw [Pipeline.packets, h.start, horigin.sent, ← h.engine, h.sane.sent, List.length_map,
    List.map_drop]

end Sender
end Ppm.Plugin

namespace Ppm.Server
open DropOldest Listen WebSocket

theorem Outbox.received (owner : Owner) {calls : List Call} (hshort : ∀ call ∈ calls, call.Short)
    {accept : List UInt8}
    (hresponse : (run owner calls).tap.conn.response = some (upgradeHead accept)) :
    ∃ frames, (run owner calls).tap.conn.wire <+: upgradeHead accept ++ framesWritten frames ∧
      (∀ f ∈ frames, Readable f) ∧ (binaries frames).Sublist (audioOf calls) ∧
      ((run owner calls).enqueued = (run owner calls).tap.conn.popped ++
        (run owner calls).tap.conn.sendQueue.queue → binaries frames <:+: audioOf calls) := by
  have hsound := sound_run owner calls
  obtain ⟨frames, haudience⟩ := audience_run owner calls hshort
  obtain ⟨sent, hpopped, hsub, hpre⟩ := haudience.popped hsound
  obtain ⟨before, after, haudio, -⟩ := haudience.audio
  obtain ⟨-, hwire, -⟩ := hsound.tap.wire.upgrade _ hresponse
  have hwritten : ((run owner calls).tap.conn.popped.map (·.frame)).flatten =
      framesWritten sent := by
    rw [hpopped, List.map_map]
    rfl
  have hmiddle : binaries frames <:+: audioOf calls := ⟨before, after, haudio.symm⟩
  rw [Connection.stream, hwritten] at hwire
  refine ⟨sent, hwire, fun f hf => haudience.readable hsound f (hsub.subset hf),
    (hsub.filterMap _).trans hmiddle.sublist, fun hnone => ?_⟩
  exact ((hpre hnone).filterMap _).isInfix.trans hmiddle

end Ppm.Server

namespace Ppm.Listen
open Engine Plugin Server Wire

def sentOf (m : Emission) (h : m.Faithful) : Sent where
  info := m.packet.info
  buffer := List.replicate (packetSize m.packet.info) 0
  interleaved := fun i => m.samples.getD i 0
  known := h.format
  size := List.length_replicate

theorem bytes_sentOf (m : Emission) (h : m.Faithful) : (sentOf m h).bytes = m.bytes := by
  rw [Sent.bytes_eq, h.bytes]
  rfl

theorem audio_sentOf (m : Emission) (h : m.Faithful) :
    (sentOf m h).audio = m.samples.flatMap (sampleBytes m.packet.info.format) := h.payload

def stored (c : Config) (q : Packet FloatSample) : List UInt8 :=
  q.samples.flatMap (sampleBytes c.format)

theorem sents_of_log {c : Config} {ms : List Emission} (hfaithful : ∀ m ∈ ms, m.Faithful)
    (hsamples : ∀ m ∈ ms, m.samples = m.packet.samples)
    (hof : ∀ m ∈ ms, m.packet.info.format = c.format ∧ m.packet.info.channels = c.channels ∧
      m.packet.info.sampleRate = c.sampleRate) :
    ∃ ps : List Sent, ps.map Sent.bytes = ms.map Emission.bytes ∧
      ps.map Sent.audio = ms.map (fun m => stored c m.packet) ∧ ∀ p ∈ ps, p.Of c := by
  refine ⟨ms.pmap sentOf hfaithful, ?_, ?_, fun p hp => ?_⟩
  · rw [List.map_pmap, ← List.pmap_eq_map hfaithful]
    exact List.pmap_congr_left ms fun m _ h _ => bytes_sentOf m h
  · rw [List.map_pmap, ← List.pmap_eq_map hfaithful]
    refine List.pmap_congr_left ms fun m hm h _ => ?_
    rw [audio_sentOf m h, hsamples m hm, (hof m hm).1, stored]
  · obtain ⟨m, hm, rfl⟩ := List.mem_pmap.mp hp
    exact hof m hm

def broadcasts (origin : Sender) (es : List (PipelineEvent FloatSample)) : List Emission :=
  (origin.run (es.map fun ev => .engine ev.engine)).log.drop origin.log.length

theorem broadcasts_config {before : List SenderEvent}
    (hbefore : Runs.Along Sender.step Sender.Guarded ({} : Sender) before)
    (hprepared : (Sender.run {} before).processor.engine.Prepared)
    (hidle : ∀ s ∈ (Sender.run {} before).processor.engine.stage, s = .enter ∨ s = .getSettings)
    {es : List (PipelineEvent FloatSample)}
    (hsettings : ∀ settings, .setSettings settings ∈ es → settings.Sound)
    (hkeeps : ∀ ev ∈ es, ev.Keeps (Sender.run {} before).processor.engine.config) :
    ∀ m ∈ broadcasts (Sender.run {} before) es,
      m.packet.info.config = (Sender.run {} before).processor.engine.config := by
  intro m hm
  have horigin : (Sender.run {} before).Sane :=
    Runs.invariant_along (I := Sender.Sane)
      (fun _ ev hs hguarded => Sender.sane_step hs ev hguarded) Sender.sane_new hbefore
  have hpackets := ((Sender.follows_of horigin hprepared).run hsettings).packets horigin
  refine Pipeline.config_run (p := .of (Sender.run {} before).processor.engine)
    (StreamEngine.current_idle hidle) (fun q hq => ?_) hkeeps m.packet ?_
  · simp [Pipeline.packets, Pipeline.of] at hq
  · rw [hpackets]
    exact List.mem_map_of_mem hm

/-- From a processor with a prepared and empty ring on, while its packets declare one format, channel
count and sample rate (`broadcasts_config`: as long as no settings change them): whatever the host
pushes, whoever else calls the connection that the packets are broadcast to, and however the bytes
reach the listener, when its process ends the file holds the samples of some of the packets in their
order, and these carry frames that the ring has accepted, in order and each at most once. As long as
the queue of the connection has discarded nothing, no packet and no frame is left out in between. -/
theorem file_holds_pushed {before : List SenderEvent}
    (hbefore : Runs.Along Sender.step Sender.Guarded ({} : Sender) before)
    (hprepared : (Sender.run {} before).processor.engine.Prepared)
    {es : List (PipelineEvent FloatSample)}
    (hsettings : ∀ settings, .setSettings settings ∈ es → settings.Sound)
    {c : Config} (hknown : c.format.Known)
    (hof : ∀ m ∈ broadcasts (Sender.run {} before) es, m.packet.info.format = c.format ∧
      m.packet.info.channels = c.channels ∧ m.packet.info.sampleRate = c.sampleRate)
    (owner : Owner) {calls : List Server.Call} (hshort : ∀ call ∈ calls, call.Short)
    (hbroadcast : Outbox.audioOf calls <:+:
      (broadcasts (Sender.run {} before) es).map Emission.bytes)
    {accept : List UInt8} (haccept : 0x0d ∉ accept)
    (hresponse : (Outbox.run owner calls).tap.conn.response = some (upgradeHead accept))
    {τ : Type} (utf8 : List UInt8 → τ) (type : τ → Option String) {events : List Event}
    (harrived : events.flatMap Event.chunk <+: (Outbox.run owner calls).tap.conn.wire) :
    let p := Pipeline.run (.of (Sender.run {} before).processor.engine) es
    let o := Outbox.run owner calls
    ∀ e, (Listener.run true type utf8 accept events).session.gone = some e →
      ∃ qs, Ends c (qs.map (stored c)) e ∧
        qs.Sublist p.packets ∧ (carried qs).Sublist p.accepted ∧
        (o.enqueued = o.tap.conn.popped ++ o.tap.conn.sendQueue.queue →
          qs <:+: p.packets ∧ carried qs <:+: p.accepted) ∧
        ∀ q ∈ qs, (q.copied ≠ none → q.samples = q.frames.flatten) ∧
          (q.copied = none → ∀ x ∈ q.samples, x = 0) := by
  intro p o e he
  have horigin : (Sender.run {} before).Sane :=
    Runs.invariant_along (I := Sender.Sane)
      (fun _ ev hs hguarded => Sender.sane_step hs ev hguarded) Sender.sane_new hbefore
  have hfollows : Sender.Follows _ _ p := (Sender.follows_of horigin hprepared).run hsettings
  have hpackets : p.packets = (broadcasts (Sender.run {} before) es).map Emission.packet :=
    hfollows.packets horigin
  obtain ⟨frames, hwire, hreadable, hsome, hmost⟩ := Outbox.received owner hshort hresponse
  -- the packets of the frames that have left the queue
  obtain ⟨ms, hms, hgapless, hbinaries⟩ : ∃ ms,
      ms.Sublist (broadcasts (Sender.run {} before) es) ∧
      (o.enqueued = o.tap.conn.popped ++ o.tap.conn.sendQueue.queue →
        ms <:+: broadcasts (Sender.run {} before) es) ∧
      binaries frames = ms.map Emission.bytes := by
    by_cases hnone : o.enqueued = o.tap.conn.popped ++ o.tap.conn.sendQueue.queue
    · obtain ⟨ms, hms, hbytes⟩ := List.infix_map_iff.mp ((hmost hnone).trans hbroadcast)
      exact ⟨ms, hms.sublist, fun _ => hms, hbytes⟩
    · obtain ⟨ms, hms, hbytes⟩ := List.sublist_map_iff.mp (hsome.trans hbroadcast.sublist)
      exact ⟨ms, hms, fun h => absurd h hnone, hbytes⟩
  obtain ⟨ps, hbytes, haudio, hps⟩ := sents_of_log (c := c)
    (fun m hm => hfollows.sane.faithful m (List.mem_of_mem_drop (hms.subset hm)))
    (fun m hm => hfollows.samples m (hms.subset hm)) (fun m hm => hof m (hms.subset hm))
  obtain ⟨heard, hheard, -, followed, hfollowed, hrecords, -⟩ :=
    (hears_run hknown haccept hreadable (hbinaries.trans hbytes.symm) hps
      (hears_new utf8 accept c ps) (harrived.trans hwire)).heard
  have hends : Ends c (followed.map Sent.audio) e := hrecords.ended e he
  -- and those of them that the listener has recorded
  have hpre := (hfollowed.trans hheard).map Sent.audio
  rw [haudio] at hpre
  obtain ⟨ns, hns, hstored⟩ := List.prefix_map_iff.mp hpre
  rw [hstored] at hends
  have hsub : (ns.map Emission.packet).Sublist p.packets := by
    rw [hpackets]
    exact (hns.sublist.trans hms).map _
  have hcarried : carried p.packets <+: p.accepted :=
    ⟨_, (List.append_assoc ..).symm.trans hfollows.conserves.conserved⟩
  refine ⟨ns.map Emission.packet, ?_, hsub, (hsub.flatMap _).trans hcarried.sublist,
    fun hnone => ?_, fun q hq => ?_⟩
  · rw [List.map_map]
    exact hends
  · have hstretch : ns.map Emission.packet <:+: p.packets := by
      rw [hpackets]
      exact (hns.isInfix.trans (hgapless hnone)).map _
    exact ⟨hstretch, (hstretch.flatMap _).trans hcarried.isInfix⟩
  · have hexact := hfollows.conserves.exact q (hsub.subset hq)
    exact ⟨hexact.flatten_frames, hexact.keepalive⟩

def started : List SenderEvent :=
  -- a processor that is prepared for mono and sends single frames as they are
  [.engine (.setSettings { format := .float32, framesPerPacket := 1 }),
    .engine (.prepare 48000 128 1), .engine (.start true)]

theorem prepared_started : (Sender.run {} started).processor.engine.Prepared :=
  Pipeline.prepared_started { format := .float32, framesPerPacket := 1 } 48000 128 1

def framePacket : List UInt8 :=
  fields { format := .float32, channels := 1, flags := 7, frames := 1, configEpoch := 2 } ++
    [0x11, 0x11, 0x11, 0x11]

def relayed : List Server.Call :=
  [.thread { read := Tap.upgradeRequest }, .thread {}, .thread { written := 4096 }, .thread {},
    .broadcastBinary ⟨framePacket, by decide⟩, .thread { ready := 0 }, .thread { ready := 0 },
    .thread {}, .thread { written := 4096 }]

theorem file_holds_frame :
    let p := Pipeline.run (.of (Sender.run {} started).processor.engine)
      (.pushAudio (Sender.frameOf 0x11111111) :: List.replicate 10 (.stream 0))
    let wire := (Outbox.run Server.Connection.emptyServer relayed).tap.conn.wire
    wire.drop 136 = [0x11, 0x11, 0x11, 0x11] ∧
      ∀ e, (Listener.run true (fun _ => none) id (ascii "k")
          [.data (wire.take 110), .data (wire.drop 110), .interrupt]).session.gone = some e →
        ∃ qs, Ends ⟨.float32, 1, 48000⟩ (qs.map (stored ⟨.float32, 1, 48000⟩)) e ∧
          carried qs <:+: p.accepted := by
  intro p wire
  refine ⟨by decide +kernel, fun e he => ?_⟩
  have harrived : [Event.data (wire.take 110), .data (wire.drop 110), .interrupt].flatMap
      Event.chunk = wire := by
    simp only [List.flatMap_cons, List.flatMap_nil, Event.chunk, List.append_nil,
      List.take_append_drop]
  have hguarded : Runs.Along Sender.step Sender.Guarded ({} : Sender) started := by decide +kernel
  have hsettings : ∀ settings, PipelineEvent.setSettings settings ∈
      .pushAudio (Sender.frameOf 0x11111111) :: List.replicate 10 (.stream 0) →
        settings.Sound := by simp
  have hshort : ∀ call ∈ relayed, call.Short := by decide +kernel
  have hbroadcast : Outbox.audioOf relayed <:+: (broadcasts (Sender.run {} started)
      (.pushAudio (Sender.frameOf 0x11111111) :: List.replicate 10 (.stream 0))).map
        Emission.bytes := by decide +kernel
  have hknown : (Config.mk .float32 1 48000).format.Known := by decide
  have hof : ∀ m ∈ broadcasts (Sender.run {} started)
      (.pushAudio (Sender.frameOf 0x11111111) :: List.replicate 10 (.stream 0)),
      m.packet.info.format = .float32 ∧ m.packet.info.channels = 1 ∧
        m.packet.info.sampleRate = 48000 := by
    intro m hm
    have hconfig := broadcasts_config hguarded prepared_started (by decide +kernel) hsettings
      (by simp [PipelineEvent.Keeps]) m hm
    exact ⟨congrArg Wire.Config.format hconfig, congrArg Wire.Config.channels hconfig,
      (congrArg Wire.Config.sampleRate hconfig).trans (by decide +kernel)⟩
  have haccept : 0x0d ∉ ascii "k" := by decide
  obtain ⟨qs, hends, -, -, hall, -⟩ := file_holds_pushed hguarded prepared_started hsettings hknown
    hof Server.Connection.emptyServer hshort hbroadcast haccept
    (by decide +kernel) id (fun _ => none) (by rw [harrived]) e he
  exact ⟨qs, hends, (hall (by decide +kernel)).2⟩

end Ppm.Listen

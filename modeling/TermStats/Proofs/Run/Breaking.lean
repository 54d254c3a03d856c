import TermStats.Proofs.Run.Sockets
import TermStats.Proofs.Wire.Truncation

/-!
Tasks on sockets that break. Whether the task would have succeeded or not, what such a socket
accepts is a beginning of what the task delivers on a socket that never fails. A reader takes it for
a stream only if it is all of it.
-/

namespace TermStats

open Wire (Encoder decodeStream)

namespace SplitTask

variable {t : SplitTask} {slot : SocketSlot}

/-- A task whose stream failed gives back what closing the stream leaves. -/
theorem socket_run_of_error {f : Fault} {stream s : OutputStream} (kept : slot.lost = false)
    (hopen : t.openStream slot.socket = .ok stream) (hw : t.writeStream stream = (.error f, s)) :
    (t.run slot).2.socket = s.closeAfterFailure.2.socket.socket := by
  simp only [run, kept, Bool.false_eq_true, if_false, hopen, hw, catchPanic]
  obtain ⟨x, s'⟩ := s.closeAfterFailure
  cases x with
  | ok _ => rfl
  | error f => cases f <;> rfl

/-- All that the task has to send has been accepted, or the stream is cut off. -/
theorem run_arrives {m : Merge Cursor} (breaks : slot.socket.Breaks) (kept : slot.lost = false)
    (fits : t.bufferSize ≤ BufferedSocket.maxCapacity)
    (hm : t.provider.mergeSplit t.split = .ok m)
    (encodable : ∀ r ∈ (t.output m.items).1, t.Encodable r) :
    ∃ s : OutputStream, (t.run slot).2.socket.sent = s.socket.socket.sent ∧
      (s.Sent slot.socket (t.streamEvents (t.output m.items).1) ∨
        s.Cut slot.socket (max t.bufferSize 1) (t.streamEvents (t.output m.items).1)) := by
  obtain ⟨stream, hopen, idle, going⟩ := exists_openStream slot.socket fits
  -- Closing a stream whose socket is broken sends nothing.
  have closed {f : Fault} {s : OutputStream} (broken : s.socket.socket.Broken)
      (hw : t.writeStream stream = (.error f, s)) :
      (t.run slot).2.socket.sent = s.socket.socket.sent := by
    rw [socket_run_of_error kept hopen hw]
    exact broken.sent (OutputStream.later_closeAfterFailure s)
  cases hx : (t.output m.items).2 with
  | ok _ =>
      have ends := writeStream_ends breaks going idle hm encodable hx
      cases hw : t.writeStream stream with
      | mk x s =>
          rw [hw] at ends
          refine ⟨s, ?_, ends.arrives⟩
          cases x with
          | ok _ => simp only [run, kept, Bool.false_eq_true, if_false, hopen, hw, catchPanic]
          | error f => exact closed (ends.broken (by simp)) hw
  | error f =>
      rcases writeStream_brings breaks going idle hm encodable hx with
        ⟨s, hw, going', inField⟩ | ⟨f', s, hw, cut⟩
      · refine ⟨s.closeAfterFailure.2, ?_,
          (OutputStream.closeAfterFailure_ends breaks going' inField).arrives⟩
        rw [socket_run_of_error kept hopen hw]
      · exact ⟨s, closed cut.broken hw, .inr (cut.mono (List.prefix_append _ _))⟩

/-- What a socket that may break accepts is a beginning of the bytes of the whole stream. -/
theorem accepted_of_breaks {c : RunContext} {name : String} {split : Nat} {whole : Bytes}
    {e : Encoder} (serves : t.Serves c name split) (breaks : slot.socket.Breaks)
    (fits : t.bufferSize ≤ BufferedSocket.maxCapacity) (some_size : 0 < t.bufferSize)
    (hevents : Encoder.start.events
      (t.streamEvents (t.output (Merge.ofSources t.mergeSources).items).1) = .ok (whole, e)) :
    ∃ accepted, (t.run slot).2.socket.sent = slot.socket.sent ++ accepted ∧ accepted <+: whole ∧
      (slot.socket.AcceptsWhole →
        accepted.length = whole.length ∨ t.bufferSize ∣ accepted.length) := by
  cases kept : slot.lost with
  | true =>
      refine ⟨[], ?_, List.nil_prefix, fun _ => .inr (Nat.dvd_zero _)⟩
      simp [run, kept]
  | false =>
      obtain ⟨s, sent, ⟨bytes, e', hbytes, all⟩ | ⟨part, bytes, e', hpart, hbytes, cut⟩⟩ :=
        run_arrives breaks kept fits (mergeSplit_eq serves) (encodable_output serves)
      · rw [hevents] at hbytes
        cases hbytes
        exact ⟨whole, sent.trans all, List.prefix_refl _, fun _ => .inl rfl⟩
      · obtain ⟨accepted, haccepted⟩ := cut.later.sent_prefix
        obtain ⟨_, _, hfirst, first⟩ := Wire.events_prefix hevents hpart
        rw [hbytes] at hfirst
        cases hfirst
        have within := cut.sent
        rw [← haccepted] at within
        refine ⟨accepted, sent.trans haccepted.symm,
          ((List.prefix_append_right_inj _).mp within).trans first, fun accepts => .inr ?_⟩
        obtain ⟨blocks, hblocks, multiple⟩ := cut.blocks accepts
        rw [← haccepted] at hblocks
        rwa [List.append_cancel_left hblocks, ← Nat.max_eq_left some_size]

end SplitTask

namespace Runner

/-- A task on a socket that breaks leaves a beginning of what it delivers on a socket that never
fails; if it is not all of that, no reader accepts it. When the write that failed accepted nothing,
it is all or a number of whole buffers. -/
theorem broken_stream_detected {s : Settings} {tables : List PackedTable} {sockets : List Socket}
    {files : FileTree} {cache cache' : MapCache} {c : RunContext} {r : Runner}
    {tasks : List SplitTask} {t : SplitTask}
    (made : RunContext.ofInputs s tables sockets files cache = (.ok c, cache'))
    (addressable : c.Addressable) (reached : Reached c r) (ht : r.tasks = .ok tasks)
    (member : t ∈ tasks) (slot : SocketSlot) (breaks : slot.socket.Breaks) (steady : Socket)
    (never : steady.behaviour.NeverFails) :
    ∃ accepted whole, (t.run slot).2.socket.sent = slot.socket.sent ++ accepted ∧
      (t.run ⟨steady, false⟩).2.socket.sent = steady.sent ++ whole ∧
      accepted <+: whole ∧
      (accepted = whole ∨ ∃ f, decodeStream accepted = .error f) ∧
      (slot.socket.AcceptsWhole →
        accepted.length = whole.length ∨ s.writerBufferSize ∣ accepted.length) := by
  obtain ⟨rfl, rfl, checked⟩ := RunContext.checked_of_ofInputs made
  have of := reached.of checked
  obtain ⟨i, hi⟩ := List.getElem?_of_mem member
  have inRange : i < c.settings.numFields * c.settings.numSplits := by
    rw [← length_tasks of ht]
    exact (List.getElem?_eq_some_iff.mp hi).1
  obtain ⟨f, split, field, hf, hs, rfl⟩ := Settings.exists_place inRange
  obtain ⟨t', htask, serves, kind, size⟩ := task_serves checked of ht hf hs
  rw [hi] at htask
  cases htask
  rw [← size]
  have some_size : 0 < t.bufferSize := size ▸ checked.valid.buffer
  by_cases fits : t.bufferSize ≤ BufferedSocket.maxCapacity
  · obtain ⟨⟨n, hn⟩, _, _⟩ := SplitTask.output_eq serves
    have never' : (⟨steady, false⟩ : SocketSlot).socket.behaviour.NeverFails := never
    obtain ⟨_, hrun, _, _, whole, e, hevents, hsent⟩ := SplitTask.run_neverFails never' rfl fits
      (SplitTask.mergeSplit_eq serves) (SplitTask.encodable_output serves)
    obtain ⟨accepted, haccepted, first, blocks⟩ :=
      SplitTask.accepted_of_breaks serves breaks fits some_size hevents
    refine ⟨accepted, whole, haccepted, by rw [hrun]; exact hsent, first, ?_, blocks⟩
    have decoded := SplitTask.decode_streamEvents checked addressable
      (List.mem_of_getElem? hf) serves kind hn hevents
    exact (Classical.em (accepted = whole)).imp_right (Wire.decodeStream_of_prefix decoded first)
  · have oversized := Nat.lt_of_not_le fits
    refine ⟨[], [], ?_, ?_, List.prefix_refl _, .inl rfl, fun _ => .inl rfl⟩
    · rw [(SplitTask.run_oversized slot oversized).2, List.append_nil]
    · rw [(SplitTask.run_oversized ⟨steady, false⟩ oversized).2, List.append_nil]

/-- One split, and room for four bytes before they are written. -/
def narrowInputs : Except Error RunContext × MapCache :=
  RunContext.ofInputs { sampleSettings with numSplits := 1, writerBufferSize := 4 } sampleTables
    [.ofBehaviour .reliable] sampleFiles .empty

def narrowContext : RunContext :=
  narrowInputs.1.toOption.getD default

def narrowTask : SplitTask :=
  ((ofContext narrowContext).tasks.toOption.getD []).headD default

/-- The socket breaks on the second buffer, of which it accepts three bytes or none. -/
theorem broken_stream_detected_second_buffer :
    (narrowTask.run ⟨.ofBehaviour .reliable, false⟩).2.socket.sent =
        [1, 1, 1, 120, 1, 2, 4, 3, 1, 2, 100, 2, 2, 1, 1, 1, 60, 3, 4] ∧
      (narrowTask.run ⟨.ofBehaviour (.breaking 2 3), false⟩).2.socket.sent =
        [1, 1, 1, 120, 1, 2, 4] ∧
      (∃ f, decodeStream [1, 1, 1, 120, 1, 2, 4] = .error f) ∧
      ∃ blocks, (narrowTask.run ⟨.ofBehaviour (.breaking 2 0), false⟩).2.socket.sent = blocks ∧
        (blocks.length = 19 ∨ 4 ∣ blocks.length) := by
  have made : narrowInputs = (.ok narrowContext, narrowInputs.2) :=
    RunContext.made_of_isOk (by decide +kernel)
  have addressable : narrowContext.Addressable := ⟨by decide +kernel, by decide +kernel⟩
  obtain ⟨_, _, checked⟩ := RunContext.checked_of_ofInputs made
  obtain ⟨tasks, ht⟩ := tasks_ok checked (of_ofContext checked) (by decide +kernel)
  have member : narrowTask ∈ tasks := by
    have count : tasks.length = 1 :=
      (length_tasks (of_ofContext checked) ht).trans (by decide +kernel)
    obtain ⟨t, rfl⟩ := List.length_eq_one_iff.mp count
    rw [narrowTask, ht]
    exact List.mem_singleton_self t
  have whole : (narrowTask.run ⟨.ofBehaviour .reliable, false⟩).2.socket.sent =
      [1, 1, 1, 120, 1, 2, 4, 3, 1, 2, 100, 2, 2, 1, 1, 1, 60, 3, 4] := by decide +kernel
  have part : (narrowTask.run ⟨.ofBehaviour (.breaking 2 3), false⟩).2.socket.sent =
      [1, 1, 1, 120, 1, 2, 4] := by decide +kernel
  obtain ⟨accepted, all, haccepted, hall, _, rejected, _⟩ :=
    broken_stream_detected made addressable .start ht member
      ⟨.ofBehaviour (.breaking 2 3), false⟩ (Socket.breaks_of_breaking rfl)
      (.ofBehaviour .reliable) SocketBehaviour.reliable_neverFails
  obtain ⟨blocks, all', hblocks, hall', _, _, multiple⟩ :=
    broken_stream_detected made addressable .start ht member
      ⟨.ofBehaviour (.breaking 2 0), false⟩ (Socket.breaks_of_breaking rfl)
      (.ofBehaviour .reliable) SocketBehaviour.reliable_neverFails
  cases part.symm.trans haccepted
  cases whole.symm.trans hall
  cases whole.symm.trans hall'
  exact ⟨whole, part, rejected.resolve_left (by decide), blocks, hblocks,
    multiple (Socket.acceptsWhole_of_breaking rfl)⟩

end Runner
end TermStats

import TermStats.Proofs.Run.Results

/-!
Runs over sockets that never fail. As long as the write buffer can be had, no task loses its socket,
and every task closes its stream, whatever the files and tables hold.
-/

namespace TermStats

open Wire (TermRecord decodeStream)

namespace Runner

variable {c : RunContext} {r : Runner} {tasks : List SplitTask}

/-- Every socket is there and never fails. -/
def Ready (r : Runner) : Prop :=
  ∀ slot ∈ r.slots, slot.lost = false ∧ slot.socket.behaviour.NeverFails

/-- Each slot after a run is what the task of some field's split left in it. -/
theorem task_of_slot (checked : c.Checked) (of : r.Of c) (ht : r.tasks = .ok tasks)
    (order : List Nat) {slot : SocketSlot} (h : slot ∈ (r.runInOrder order).2.slots) :
    ∃ (t : SplitTask) (before : SocketSlot) (name : String) (split : Nat), before ∈ r.slots ∧
      slot = (t.run before).2 ∧ t.Serves c name split ∧
      t.bufferSize = c.settings.writerBufferSize := by
  obtain ⟨i, hi⟩ := List.getElem?_of_mem h
  have inRange : i < c.settings.numStreams := by
    rw [← (of.run order).slots]
    exact (List.getElem?_eq_some_iff.mp hi).1
  obtain ⟨f, split, field, hf, hs, has, rfl⟩ := Settings.exists_streamIndex inRange
  obtain ⟨t, before, _, hbefore, hafter, serves, _, size⟩ :=
    stream_of_run checked of ht order hf hs has
  rw [hi] at hafter
  exact ⟨t, before, field.1, split, List.mem_of_getElem? hbefore, Option.some.inj hafter, serves,
    size⟩

theorem Ready.run (ready : r.Ready) (checked : c.Checked) (of : r.Of c)
    (fits : c.settings.writerBufferSize ≤ BufferedSocket.maxCapacity ∨
      UInt32.size ≤ c.shards.length) (order : List Nat) : (r.runInOrder order).2.Ready := by
  cases ht : r.tasks with
  | error e =>
      rw [runInOrder_of_error ht]
      exact ready
  | ok tasks =>
      intro slot h
      obtain ⟨t, before, name, split, hbefore, rfl, serves, size⟩ :=
        task_of_slot checked of ht order h
      have fits := fits.resolve_right (Nat.not_le.mpr serves.few)
      obtain ⟨kept, never⟩ := ready before hbefore
      obtain ⟨_, kept', never', _⟩ :=
        SplitTask.delivered_of_neverFails serves never kept (size ▸ fits)
      exact ⟨kept', never'⟩

theorem Reached.ready (reached : Reached c r) (checked : c.Checked)
    (never : ∀ socket ∈ c.sockets, socket.behaviour.NeverFails)
    (fits : c.settings.writerBufferSize ≤ BufferedSocket.maxCapacity ∨
      UInt32.size ≤ c.shards.length) : r.Ready := by
  induction reached with
  | start =>
      intro slot h
      obtain ⟨socket, hsocket, rfl⟩ := List.mem_map.mp h
      exact ⟨rfl, never socket hsocket⟩
  | run reached _ ih => exact ih.run checked (reached.of checked) fits _

/-- One split, and a document of id 3 whose group cannot be read. -/
def unreadableInputs : Except Error RunContext × MapCache :=
  RunContext.ofInputs { sampleSettings with numSplits := 1 }
    (sampleTables.modifyHead (·.unreadable [2])) [.ofBehaviour .reliable] sampleFiles .empty

def unreadableContext : RunContext :=
  unreadableInputs.1.toOption.getD default

end Runner
end TermStats

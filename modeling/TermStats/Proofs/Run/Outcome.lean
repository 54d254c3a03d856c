import TermStats.Proofs.Run.Readable
import TermStats.Proofs.Run.Sockets

/-!
Which runs succeed, when neither sockets nor tables give cause to fail: those whose shards can be
read to the end. How the ids are divided, and in what order tasks finish, does not matter.
-/

namespace TermStats

open Result

namespace RunContext

/-- Sockets never fail and tables never panic; postings can name every shard, and the number of
splits is a signed word. -/
structure Dependable (c : RunContext) : Prop where
  never : ∀ socket ∈ c.sockets, socket.behaviour.NeverFails
  total : ∀ shard ∈ c.shards, shard.table.Total
  few : c.shards.length < UInt32.size
  word : c.settings.numSplits < 2 ^ 63

/-- Opening the shards takes nothing but the fields from the settings. -/
theorem openShards_congr {s s' : Settings} (ints : s'.intFields = s.intFields)
    (strings : s'.stringFields = s.stringFields) (files : FileTree) (cache : MapCache)
    (inputs : List (Path × PackedTable)) :
    openShards s' files cache inputs = openShards s files cache inputs := by
  induction inputs generalizing cache with
  | nil => rfl
  | cons input rest ih =>
      obtain ⟨dir, table⟩ := input
      simp only [openShards, ints, strings, ih]

/-- What there is to read is the same however the run is set up. -/
theorem readable_congr {s s' : Settings} {tables : List PackedTable}
    {sockets sockets' : List Socket} {files : FileTree} {cache cache₁ cache₂ : MapCache}
    {c c' : RunContext} (made : ofInputs s tables sockets files cache = (.ok c, cache₁))
    (made' : ofInputs s' tables sockets' files cache = (.ok c', cache₂))
    (dirs : s'.shardDirs = s.shardDirs) (ints : s'.intFields = s.intFields)
    (strings : s'.stringFields = s.stringFields) (groups : s'.numGroups = s.numGroups) :
    c'.Readable ↔ c.Readable := by
  obtain ⟨_, rfl, _, hopen⟩ := ofInputs_ok made
  obtain ⟨_, rfl, _, hopen'⟩ := ofInputs_ok made'
  rw [openShards_congr ints strings, dirs, hopen] at hopen'
  rw [Readable, Readable, Settings.fields, Settings.fields, ints, strings, groups,
    Except.ok.inj (Prod.ext_iff.mp hopen').1]

end RunContext

namespace Runner

variable {c : RunContext} {r : Runner} {tasks : List SplitTask}

/-- A task succeeds when everything that its split needs can be read. -/
theorem stream_ok_iff (checked : c.Checked) (reached : Reached c r)
    (never : ∀ socket ∈ c.sockets, socket.behaviour.NeverFails)
    (fits : c.settings.writerBufferSize ≤ BufferedSocket.maxCapacity) (ht : r.tasks = .ok tasks)
    {f split : Nat} {field : String × TermKind} (hf : c.settings.fields[f]? = some field)
    (hs : split < c.settings.numSplits) (has : c.settings.HasStream f split) :
    ∃ t before, tasks[c.settings.streamIndex f split]? = some t ∧
      r.slots[c.settings.streamIndex f split]? = some before ∧
      ((t.run before).1 = .ok () ↔
        (∀ shard ∈ c.shards, firstFault? (shard.termItems field.1) = none) ∧
          ∀ id ∈ c.splitIds field.1 split, (c.record? field.1 id).isSome) := by
  obtain ⟨t, before, htask, hbefore, _, serves, _, size⟩ :=
    stream_of_run checked (reached.of checked) ht [] hf hs has
  obtain ⟨kept, never⟩ :=
    reached.ready checked never (.inl fits) before (List.mem_of_getElem? hbefore)
  exact ⟨t, before, htask, hbefore,
    (SplitTask.delivered_of_neverFails serves never kept (size ▸ fits)).1⟩

/-- No task gets past a buffer that cannot be had. -/
theorem fits_of_ok (checked : c.Checked) (of : r.Of c) (ht : r.tasks = .ok tasks)
    (fit : c.settings.StreamsFit) (ok : ∀ (i : Nat) (t : SplitTask) (slot : SocketSlot),
      tasks[i]? = some t → r.slots[i]? = some slot → (t.run slot).1 = .ok ()) :
    c.settings.fields = [] ∨ c.settings.writerBufferSize ≤ BufferedSocket.maxCapacity := by
  cases hfields : c.settings.fields with
  | nil => exact .inl rfl
  | cons field rest =>
      have first : c.settings.fields[0]? = some field := by rw [hfields]; rfl
      obtain ⟨t, before, htask, hbefore, _, _, _, size⟩ :=
        stream_of_run checked of ht [] first checked.valid.splits
          (fit.hasStream_of_field first checked.valid.splits)
      refine .inr (Nat.le_of_not_lt fun oversized => ?_)
      exact (SplitTask.run_oversized before (size ▸ oversized)).1 (ok _ t before htask hbefore)

theorem run_ok_iff_readable (checked : c.Checked) (dependable : c.Dependable)
    (reached : Reached c r) {order : List Nat} (perm : order.Perm (List.range r.slots.length)) :
    (r.runInOrder order).1 = .ok () ↔ c.settings.StreamsFit ∧
      (c.settings.fields = [] ∨ c.settings.writerBufferSize ≤ BufferedSocket.maxCapacity) ∧
        c.Readable := by
  have of := reached.of checked
  obtain ⟨tasks, ht⟩ := tasks_ok checked of dependable.few
  rw [runInOrder_eq_ok of ht perm]
  refine and_congr_right fun fit => ⟨?_, ?_⟩
  · intro ok
    have fits := fits_of_ok checked of ht fit ok
    refine ⟨fits, ?_⟩
    intro shard hshard field hf
    have fits := fits.resolve_left (List.ne_nil_of_mem hf)
    obtain ⟨f, hf'⟩ := List.getElem?_of_mem hf
    have splits := RunContext.readable_iff checked dependable.word dependable.total hf
    refine splits.mp (fun split hs => ?_) shard hshard
    obtain ⟨t, before, htask, hbefore, success⟩ :=
      stream_ok_iff checked reached dependable.never fits ht hf' hs (fit.hasStream_of_field hf' hs)
    exact success.mp (ok _ t before htask hbefore)
  · rintro ⟨fits, readable⟩ i t slot htask hslot
    have inRange : i < c.settings.numStreams :=
      of.slots ▸ (List.getElem?_eq_some_iff.mp hslot).1
    obtain ⟨f, split, field, hf, hs, has, rfl⟩ := Settings.exists_streamIndex inRange
    have member := List.mem_of_getElem? hf
    have fits := fits.resolve_left (List.ne_nil_of_mem member)
    obtain ⟨_, _, htask', hslot', success⟩ :=
      stream_ok_iff checked reached dependable.never fits ht hf hs has
    cases htask.symm.trans htask'
    cases hslot.symm.trans hslot'
    have splits := RunContext.readable_iff checked dependable.word dependable.total member
    exact success.mpr (splits.mpr (fun shard hshard => readable shard hshard field member)
      split hs)

/-- A malformed term file fails all tasks of its field. -/
theorem fails_of_malformed (checked : c.Checked) (of : r.Of c) (ht : r.tasks = .ok tasks)
    {field : String × TermKind} {shard : Shard} (hshard : shard ∈ c.shards) {e : Error}
    (malformed : .error e ∈ shard.termItems field.1) {f split : Nat}
    (hf : c.settings.fields[f]? = some field) (hs : split < c.settings.numSplits)
    (has : c.settings.HasStream f split) :
    ∃ t before, tasks[c.settings.streamIndex f split]? = some t ∧
      r.slots[c.settings.streamIndex f split]? = some before ∧ (t.run before).1 ≠ .ok () := by
  obtain ⟨t, before, htask, hbefore, _, serves, _⟩ := stream_of_run checked of ht [] hf hs has
  refine ⟨t, before, htask, hbefore, ?_⟩
  intro ok
  have sound := (SplitTask.delivered_of_ok serves ok).1 shard hshard
  exact absurd (firstFault?_eq_none.mp sound _ malformed) Bool.false_ne_true

/-- A run succeeds exactly when its streams fit, its write buffers can be had (or no task needs one)
and every shard can be read: each field summarized, and each document placed. The outcome is
therefore that of any run over the same shards, however the ids are divided and whatever order the
tasks finish in; and a malformed term file fails every split of its field. -/
theorem run_ok_iff_shards_readable {s : Settings} {tables : List PackedTable}
    {sockets : List Socket} {files : FileTree} {cache cache' : MapCache}
    (made : RunContext.ofInputs s tables sockets files cache = (.ok c, cache'))
    (dependable : c.Dependable) (reached : Reached c r) {order : List Nat}
    (perm : order.Perm (List.range r.slots.length)) :
    ((r.runInOrder order).1 = .ok () ↔ s.StreamsFit ∧
      (s.fields = [] ∨ s.writerBufferSize ≤ BufferedSocket.maxCapacity) ∧
        ∀ shard ∈ c.shards, ∀ field ∈ s.fields, shard.Readable s.numGroups field.1) ∧
    (∀ (numSplits numWorkers bufferSize : Nat) (rule : PartitionRule) (others : List Socket)
      (c' : RunContext) (cache'' : MapCache) (r' : Runner) (order' : List Nat),
      RunContext.ofInputs
        { s with
          numSplits := numSplits
          numWorkers := numWorkers
          writerBufferSize := bufferSize
          partitionRule := rule }
        tables others files cache = (.ok c', cache'') →
      c'.Dependable → Reached c' r' → order'.Perm (List.range r'.slots.length) →
      s.StreamsFit → c'.settings.StreamsFit → s.writerBufferSize ≤ BufferedSocket.maxCapacity →
      bufferSize ≤ BufferedSocket.maxCapacity →
      ((r'.runInOrder order').1 = .ok () ↔ (r.runInOrder order).1 = .ok ())) ∧
    ∀ (f split : Nat) (field : String × TermKind), s.fields[f]? = some field →
      split < s.numSplits → s.HasStream f split →
      (∃ shard ∈ c.shards, ∃ e, .error e ∈ shard.termItems field.1) →
      ∃ tasks t before, r.tasks = .ok tasks ∧ tasks[s.streamIndex f split]? = some t ∧
        r.slots[s.streamIndex f split]? = some before ∧ (t.run before).1 ≠ .ok () := by
  obtain ⟨hs, _, checked⟩ := RunContext.checked_of_ofInputs made
  have ok := run_ok_iff_readable checked dependable reached perm
  rw [hs] at ok
  refine ⟨by rw [ok, RunContext.Readable, hs], ?_, ?_⟩
  · intro numSplits numWorkers bufferSize rule others c' cache'' r' order' made' dependable'
      reached' perm' fit fit' fits fits'
    obtain ⟨hs', _, checked'⟩ := RunContext.checked_of_ofInputs made'
    have ok' := run_ok_iff_readable checked' dependable' reached' perm'
    rw [and_iff_right fit', hs'] at ok'
    rw [ok, ok', RunContext.readable_congr made made' rfl rfl rfl rfl, and_iff_right fit]
    simp only [fits, fits', or_true]
  · intro f split field hf hsplit has malformed
    subst hs
    obtain ⟨shard, hshard, e, he⟩ := malformed
    have of := reached.of checked
    obtain ⟨tasks, ht⟩ := tasks_ok checked of dependable.few
    obtain ⟨t, before, htask, hbefore, failed⟩ :=
      fails_of_malformed checked of ht hshard he hf hsplit has
    exact ⟨tasks, t, before, ht, htask, hbefore, failed⟩

/-- The sample in one split, by another rule and with a smaller buffer. -/
def wholeInputs : Except Error RunContext × MapCache :=
  RunContext.ofInputs
    { sampleSettings with
      numSplits := 1
      numWorkers := 2
      writerBufferSize := 16
      partitionRule := .hash }
    sampleTables [.ofBehaviour .reliable] sampleFiles .empty

def wholeContext : RunContext :=
  wholeInputs.1.toOption.getD default

/-- The whole field is sent as its two splits were, and what was sent could be read. -/
theorem run_ok_iff_shards_readable_sample :
    ((ofContext sampleContext).runInOrder [1, 0]).1 = .ok () ∧
      (∀ shard ∈ sampleContext.shards, ∀ field ∈ sampleSettings.fields,
        shard.Readable sampleSettings.numGroups field.1) ∧
      (ofContext wholeContext).run.1 = .ok () := by
  have made : sampleInputs = (.ok sampleContext, sampleInputs.2) :=
    RunContext.made_of_isOk (by decide +kernel)
  have madeWhole : wholeInputs = (.ok wholeContext, wholeInputs.2) :=
    RunContext.made_of_isOk (by decide +kernel)
  have tables : ∀ table ∈ sampleTables, table.Total :=
    List.forall_mem_cons.mpr ⟨(MemoryTable.filled_ofRows _ _).total,
      List.forall_mem_singleton.mpr (MemoryTable.filled_ofRows _ _).total⟩
  have dependable : sampleContext.Dependable := by
    refine ⟨?_, fun shard hs => tables _ (RunContext.table_of_ofInputs made shard hs),
      by decide +kernel, by decide +kernel⟩
    rw [(RunContext.checked_of_ofInputs made).2.1]
    intro socket hsocket
    rw [List.eq_of_mem_replicate hsocket]
    exact SocketBehaviour.reliable_neverFails
  have dependableWhole : wholeContext.Dependable := by
    refine ⟨?_, fun shard hs => tables _ (RunContext.table_of_ofInputs madeWhole shard hs),
      by decide +kernel, by decide +kernel⟩
    rw [(RunContext.checked_of_ofInputs madeWhole).2.1]
    exact List.forall_mem_singleton.mpr SocketBehaviour.reliable_neverFails
  have perm : [1, 0].Perm (List.range (ofContext sampleContext).slots.length) := by
    decide +kernel
  obtain ⟨ok, same, _⟩ := run_ok_iff_shards_readable made dependable .start perm
  have success : ((ofContext sampleContext).runInOrder [1, 0]).1 = .ok () :=
    ok_of_isOk (by decide +kernel)
  exact ⟨success, (ok.mp success).2.2, (same _ _ _ _ _ _ _ _ _ madeWhole dependableWhole .start
    (.refl _) (by decide) (by decide +kernel) (by decide) (by decide)).mpr success⟩

end Runner
end TermStats

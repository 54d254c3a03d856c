import TermStats.Proofs.Run.Outcome

/-!
Why runs fail. Over sockets that never fail, every error is that of a task, and what it names is at
fault: a term file, a posting list or a row of a shard, or the table, if it panicked. Nothing else
that the steps of a task check can come up.
-/

namespace TermStats

open Result

namespace GroupTotals

variable {numGroups numStats : Nat} {binary : Bool} {table : PackedTable} {element : String}
  {row : Int64} {f : Fault}

/-- An access to a row that the table has, in a column that it has, panics. -/
def PanicsAt (table : PackedTable) (row : Nat) (p : Panic) : Prop :=
  row < table.rowCount ∧ (table.group row = .error p ∨
    ∃ col < table.colCount, table.cell row col = .error p ∨ table.bit row col = .error p)

theorem cellValue_eq_error {row col : Nat} (h : cellValue binary table row col = .error f) :
    ∃ p, f = .panic p ∧ (table.cell row col = .error p ∨ table.bit row col = .error p) := by
  cases binary with
  | false =>
      have h : (table.cell row col).mapError .panic = .error f := h
      cases hc : table.cell row col with
      | ok v =>
          rw [hc] at h
          cases h
      | error p =>
          rw [hc] at h
          cases h
          exact ⟨p, rfl, .inl rfl⟩
  | true =>
      simp only [cellValue, contribution, if_true] at h
      cases hb : table.bit row col with
      | ok b =>
          rw [hb] at h
          cases h
      | error p =>
          rw [hb] at h
          cases h
          exact ⟨p, rfl, .inr rfl⟩

/-- What is wrong with a row that cannot be added. -/
theorem rowSample_eq_error (wide : numStats ≤ table.colCount)
    (h : rowSample numGroups numStats binary table element row = .error f) :
    (∃ fault : RowFault, groupOf numGroups table element row = .error (fault.toFault element) ∧
      f = fault.toFault element) ∨
      ∃ p, PanicsAt table row.toInt.toNat p ∧ f = .panic p := by
  simp only [rowSample, groupOf] at h ⊢
  by_cases hrow : row < 0 ∨ table.rowCount ≤ row.toInt.toNat
  · rw [if_pos hrow] at h ⊢
    cases h
    exact .inl ⟨_, rfl, rfl⟩
  · rw [if_neg hrow] at h ⊢
    have inTable : row.toInt.toNat < table.rowCount := Nat.lt_of_not_le (not_or.mp hrow).2
    cases hg : table.group row.toInt.toNat with
    | error p =>
        rw [hg] at h
        cases h
        exact .inr ⟨p, ⟨inTable, .inl hg⟩, rfl⟩
    | ok group =>
        rw [hg] at h
        dsimp only at h ⊢
        by_cases beyond : group ≠ 0 ∧ numGroups ≤ group.toNat
        · rw [if_pos beyond] at h ⊢
          cases h
          exact .inl ⟨_, rfl, rfl⟩
        · rw [if_neg beyond] at h
          dsimp only at h
          split at h
          · cases h
          · cases hv : (List.range numStats).mapM (cellValue binary table row.toInt.toNat) with
            | ok values =>
                rw [hv] at h
                cases h
            | error f' =>
                rw [hv] at h
                cases h
                obtain ⟨col, hcol, hcell⟩ := mapM_eq_error hv
                obtain ⟨p, rfl, hp⟩ := cellValue_eq_error hcell
                have inTable' := Nat.lt_of_lt_of_le (List.mem_range.mp hcol) wide
                exact .inr ⟨p, ⟨inTable, .inr ⟨col, inTable', hp⟩⟩, rfl⟩

end GroupTotals

namespace RunContext

/-- Why a stream of the field can fail, and with which error. -/
inductive Spoils (c : RunContext) (name : String) : Error → Prop where
  /-- A term file cannot be read to its end. -/
  | terms {shard : Shard} {f : TermFault} (member : shard ∈ c.shards)
      (fault : .error (.invalidFormat (fieldElement shard.directory name) f.message) ∈
        shard.termItems name) :
      Spoils c name (.invalidFormat (fieldElement shard.directory name) f.message)
  /-- The posting list of a term cannot be read to its end. -/
  | postings {shard : Shard} {t : Term} {f : PostingFault} (member : shard ∈ c.shards)
      (term : t ∈ shard.terms name)
      (fault : (shard.table, .error f) ∈ shard.documents name t.offset t.freq) :
      Spoils c name (.invalidFormat (fieldElement shard.directory name) f.toError.message)
  /-- A document has no row in the table, or one in a group that there is not. -/
  | row {shard : Shard} {t : Term} {doc : Int64} {f : RowFault} (member : shard ∈ c.shards)
      (term : t ∈ shard.terms name)
      (document : (shard.table, .ok doc) ∈ shard.documents name t.offset t.freq)
      (fault : GroupTotals.groupOf c.settings.numGroups shard.table
        (fieldElement shard.directory name) doc =
          .error (f.toFault (fieldElement shard.directory name))) :
      Spoils c name (.invalidFormat (fieldElement shard.directory name) f.message)
  /-- The table panics at the row of a document. -/
  | table {shard : Shard} {t : Term} {doc : Int64} {p : Panic} (member : shard ∈ c.shards)
      (term : t ∈ shard.terms name)
      (document : (shard.table, .ok doc) ∈ shard.documents name t.offset t.freq)
      (panics : GroupTotals.PanicsAt shard.table doc.toInt.toNat p) :
      Spoils c name (.panicked p.text)

end RunContext

section Documents

variable {shard : Shard} {field : String} {files : FieldFiles} {offset : Int64} {freq : Int32}

theorem Shard.documents_of_located (hfield : shard.field field = .ok files) {ids : DocIds}
    (hl : DocIds.locate files.docs.bytes offset freq = .ok ids) :
    shard.documents field offset freq = ids.items.map (shard.table, ·) := by
  simp only [documents, hfield, hl]

theorem Shard.documents_of_unlocated (hfield : shard.field field = .ok files) {f : PostingFault}
    (hl : DocIds.locate files.docs.bytes offset freq = .error f) :
    shard.documents field offset freq = [(shard.table, .error f)] := by
  simp only [documents, hfield, hl]

end Documents

theorem Cursor.error_of_next {c c' : Cursor} {e : Error} (h : c.next = (some (.error e), c')) :
    ∃ file ∈ c.file, ∃ f : TermFault,
      e = .invalidFormat (fieldElement file.directory file.field) f.message := by
  simp only [next] at h
  split at h
  · rename_i file _ hfile
    split at h
    · cases h
      exact ⟨file, hfile, _, rfl⟩
    · cases h
    · split at h
      · cases h
        exact ⟨file, hfile, _, rfl⟩
      · cases h
  · cases h

/-- A cursor's fault names its shard and field. -/
theorem Cursor.error_of_toList {c : Cursor} {e : Error} (h : .error e ∈ TermSource.toList c) :
    ∃ file ∈ c.file, ∃ f : TermFault,
      e = .invalidFormat (fieldElement file.directory file.field) f.message := by
  induction c using TermSource.induction with
  | finished c c' hn =>
      rw [TermSource.toList_of_none hn] at h
      cases h
  | faulted c c' e' hn ih | yielded c c' t hn ih =>
      rw [TermSource.toList_of_some hn] at h
      rcases List.mem_cons.mp h with same | h
      · rw [← same] at hn
        exact error_of_next hn
      · rw [← file_of_next hn]
        exact ih h

namespace SplitTask

variable {t : SplitTask} {c : RunContext} {name : String} {split : Nat} {f : Fault}

theorem output_eq_error {items : List (Except Error Descriptor)}
    (h : (t.output items).2 = .error f) :
    (∃ e, .error e ∈ items ∧ f = .error e) ∨ ∃ d, .ok d ∈ items ∧ t.recordOf d = .error f := by
  induction items with
  | nil => cases h
  | cons item rest ih =>
      cases item with
      | error e =>
          cases h
          exact .inl ⟨e, List.mem_cons_self, rfl⟩
      | ok d =>
          simp only [output] at h
          cases hr : t.recordOf d with
          | error f' =>
              rw [hr] at h
              cases h
              exact .inr ⟨d, List.mem_cons_self, hr⟩
          | ok r =>
              rw [hr] at h
              rcases ih h with ⟨e, he, hf⟩ | ⟨d', hd, hf⟩
              · exact .inl ⟨e, List.mem_cons_of_mem _ he, hf⟩
              · exact .inr ⟨d', List.mem_cons_of_mem _ hd, hf⟩

/-- A document of the task whose sample cannot be had. -/
theorem spoils_of_sampleOf (checked : c.Checked) (serves : t.Serves c name split) {shard : Shard}
    {term : Term} (member : shard ∈ c.shards) (hterm : term ∈ shard.terms name)
    {item : Except PostingFault Int64}
    (document : (shard.table, item) ∈ shard.documents name term.offset term.freq)
    (h : t.sampleOf shard item = .error f) : c.Spoils name f.caught := by
  cases item with
  | error fault =>
      simp only [sampleOf, serves.field] at h
      cases h
      exact .postings member hterm document
  | ok doc =>
      simp only [sampleOf, serves.field, serves.numGroups, serves.numStats] at h
      rcases GroupTotals.rowSample_eq_error (checked.columns shard member) h with
        ⟨fault, hgroup, rfl⟩ | ⟨p, panics, rfl⟩
      · exact .row member hterm document hgroup
      · exact .table member hterm document panics

theorem spoils_of_recordOf (checked : c.Checked) (serves : t.Serves c name split) {d : Descriptor}
    (hd : d ∈ t.descriptors) (h : t.recordOf d = .error f) : c.Spoils name f.caught := by
  obtain ⟨p, hp, hread⟩ := mapM_eq_error (map_eq_error.mp (map_eq_error.mp h))
  obtain ⟨shard, cursor, term, mem, hshard, hterm, haddress, hfreq⟩ := term_of_posting serves hd hp
  obtain ⟨files, _, hfield, _⟩ := serves.cursors _ mem
  have member : shard ∈ c.shards := serves.shards ▸ List.mem_map_of_mem mem
  have known : term ∈ shard.terms name := by
    rw [Shard.terms, ← serves.reads.toList_cursor mem]
    exact hterm
  simp only [samplesAt, locate, hshard, serves.field, hfield, haddress, hfreq] at hread
  cases hl : DocIds.locate files.docs.bytes term.offset term.freq with
  | error fault =>
      rw [hl] at hread
      cases hread
      refine .postings member known ?_
      rw [Shard.documents_of_unlocated hfield hl]
      exact List.mem_singleton_self _
  | ok ids =>
      rw [hl] at hread
      obtain ⟨item, hitem, hsample⟩ := mapM_eq_error hread
      refine spoils_of_sampleOf checked serves member known ?_ hsample
      rw [Shard.documents_of_located hfield hl]
      exact List.mem_map_of_mem hitem

theorem spoils_of_faults (serves : t.Serves c name split) {e : Error}
    (h : e ∈ (Merge.ofSources t.mergeSources).faults) : c.Spoils name e := by
  obtain ⟨source, hsource, fault⟩ := Merge.mem_faults_ofSources h
  obtain ⟨⟨⟨shard, cursor⟩, i⟩, hi, rfl⟩ := List.mem_map.mp hsource
  have mem := List.fst_mem_of_mem_zipIdx hi
  obtain ⟨files, opening, _, hcursor⟩ := serves.cursors _ mem
  obtain ⟨file, hfile, f, rfl⟩ := Cursor.error_of_toList fault
  have same : file = ⟨opening, shard.directory, name, files.kind, files.terms.bytes⟩ := by
    have hcursor : cursor = _ := hcursor
    rw [hcursor] at hfile
    exact (Option.some.inj hfile).symm
  rw [same] at fault ⊢
  refine .terms (serves.shards ▸ List.mem_map_of_mem mem) ?_
  rw [← serves.reads.toList_cursor mem]
  exact fault

/-- What stops a task is at fault in a shard. -/
theorem spoils_of_output (checked : c.Checked) (serves : t.Serves c name split)
    (h : (t.output (Merge.ofSources t.mergeSources).items).2 = .error f) :
    c.Spoils name f.caught := by
  obtain ⟨ds, fault?, hitems, hpre, _, _, hfaults⟩ :=
    Merge.items_eq_append (serves.reads.ordered_mergeSources t.share)
  have hitems : (Merge.ofSources t.mergeSources).items = _ := hitems
  rcases output_eq_error h with ⟨e, he, rfl⟩ | ⟨d, hd, hrecord⟩
  · refine spoils_of_faults serves (hfaults e ?_)
    simpa [hitems] using he
  · refine spoils_of_recordOf checked serves (hpre.subset ?_) hrecord
    simpa [hitems] using hd

/-- A task over a socket that never fails reports what is at fault. -/
theorem error_of_run (checked : c.Checked) (serves : t.Serves c name split) {slot : SocketSlot}
    (never : slot.socket.behaviour.NeverFails) (kept : slot.lost = false)
    (fits : t.bufferSize ≤ BufferedSocket.maxCapacity) {e : Error}
    (h : catchPanic (t.run slot).1 = .error e) :
    ∃ cause, e = .task name split cause ∧ c.Spoils name cause := by
  obtain ⟨slot', hrun, _⟩ :=
    run_neverFails never kept fits (mergeSplit_eq serves) (encodable_output serves)
  rw [hrun] at h
  cases hx : (t.output (Merge.ofSources t.mergeSources).items).2 with
  | ok _ =>
      rw [hx] at h
      cases h
  | error f =>
      rw [hx, outcome, serves.field, serves.split_eq] at h
      cases h
      exact ⟨f.caught, rfl, spoils_of_output checked serves hx⟩

end SplitTask

namespace RunContext

/-- Sockets never fail; postings can name every shard, and the number of splits is a signed word. -/
structure Sheltered (c : RunContext) : Prop where
  never : ∀ socket ∈ c.sockets, socket.behaviour.NeverFails
  few : c.shards.length < UInt32.size
  word : c.settings.numSplits < 2 ^ 63

end RunContext

namespace Runner

variable {c : RunContext} {r : Runner} {tasks : List SplitTask}

/-- What a run reports, but for a panic of its own, is the outcome of the task of some field's
split. -/
theorem task_of_error (checked : c.Checked) (of : r.Of c) (ht : r.tasks = .ok tasks)
    {order : List Nat} {e : Error} (h : (r.runInOrder order).1 = .error (.error e)) :
    ∃ field ∈ c.settings.fields, ∃ split < c.settings.numSplits,
      ∃ t : SplitTask, ∃ slot ∈ r.slots, t.Serves c field.1 split ∧
        t.bufferSize = c.settings.writerBufferSize ∧ catchPanic (t.run slot).1 = .error e := by
  obtain ⟨i, t, slot, htask, hslot, outcome⟩ := task_of_runInOrder of ht h
  have inRange : i < c.settings.numStreams :=
    of.slots ▸ (List.getElem?_eq_some_iff.mp hslot).1
  obtain ⟨f, split, field, hf, hs, has, rfl⟩ := Settings.exists_streamIndex inRange
  obtain ⟨t', htask', serves, _, size⟩ := task_of_hasStream checked of ht hf hs has
  rw [htask] at htask'
  cases htask'
  exact ⟨field, List.mem_of_getElem? hf, split, hs, t, slot, List.mem_of_getElem? hslot, serves,
    size, outcome⟩

/-- A run whose streams fit does not panic itself. -/
theorem error_of_fault (of : r.Of c) (ht : r.tasks = .ok tasks) (fit : c.settings.StreamsFit)
    {order : List Nat} {f : Fault} (h : (r.runInOrder order).1 = .error f) :
    ∃ e, f = .error e := by
  rw [runInOrder_eq of ht, if_pos fit] at h
  obtain ⟨e, _, rfl⟩ := mapError_eq_error.mp h
  exact ⟨e, rfl⟩

/-- Every failure of a run over sockets that never fail is the error of a task, and names what is at
fault in a shard, as long as the streams fit and the write buffers can be had (or no task needs
one). Where only the buffers cannot be had, the run reports the panic of a task; where the streams
do not fit it panics itself, over the first stream that is not there. -/
theorem failed_run_names_fault {s : Settings} {tables : List PackedTable} {sockets : List Socket}
    {files : FileTree} {cache cache' : MapCache}
    (made : RunContext.ofInputs s tables sockets files cache = (.ok c, cache'))
    (sheltered : c.Sheltered) (reached : Reached c r) {order : List Nat}
    (perm : order.Perm (List.range r.slots.length)) :
    (s.StreamsFit → s.fields = [] ∨ s.writerBufferSize ≤ BufferedSocket.maxCapacity →
      ∀ f, (r.runInOrder order).1 = .error f → ∃ field ∈ s.fields, ∃ split < s.numSplits,
        ∃ cause, f = .error (.task field.1 split cause) ∧ c.Spoils field.1 cause) ∧
      (s.StreamsFit → s.fields ≠ [] → BufferedSocket.maxCapacity < s.writerBufferSize →
        ∃ p : Panic, (r.runInOrder order).1 = .error (.error (.panicked p.text))) ∧
      (¬ s.StreamsFit → (r.runInOrder order).1 = .error
        (.panic (.ofText (TableFault.index s.numStreams s.numStreams).message))) := by
  obtain ⟨rfl, rfl, checked⟩ := RunContext.checked_of_ofInputs made
  have of := reached.of checked
  obtain ⟨tasks, ht⟩ := tasks_ok checked of sheltered.few
  refine ⟨fun fit fits f h => ?_, fun fit some_fields oversized => ?_, fun unfit => ?_⟩
  · obtain ⟨e, rfl⟩ := error_of_fault of ht fit h
    obtain ⟨field, hfield, split, hs, t, slot, hslot, serves, size, outcome⟩ :=
      task_of_error checked of ht h
    have fits := fits.resolve_left (List.ne_nil_of_mem hfield)
    obtain ⟨kept, never⟩ := reached.ready checked sheltered.never (.inl fits) slot hslot
    obtain ⟨cause, rfl, spoils⟩ :=
      SplitTask.error_of_run checked serves never kept (size ▸ fits) outcome
    exact ⟨field, hfield, split, hs, cause, rfl, spoils⟩
  · cases hx : (r.runInOrder order).1 with
    | ok _ =>
        obtain ⟨_, succeed⟩ := (runInOrder_eq_ok of ht perm).mp hx
        exact absurd oversized (Nat.not_lt.mpr
          ((fits_of_ok checked of ht fit succeed).resolve_left some_fields))
    | error f =>
        obtain ⟨e, rfl⟩ := error_of_fault of ht fit hx
        obtain ⟨_, _, _, _, t, slot, _, _, size, outcome⟩ := task_of_error checked of ht hx
        obtain ⟨p, hrun⟩ := SplitTask.run_oversized_eq slot (size ▸ oversized)
        rw [hrun] at outcome
        cases outcome
        exact ⟨p, rfl⟩
  · rw [runInOrder_unfit of order ht unfit, noSlot, of.slots]

/-- The sample in one split, with a buffer that no allocation can have. -/
def oversizedInputs : Except Error RunContext × MapCache :=
  RunContext.ofInputs { sampleSettings with numSplits := 1, writerBufferSize := 2 ^ 63 }
    sampleTables [.ofBehaviour .reliable] sampleFiles .empty

def oversizedContext : RunContext :=
  oversizedInputs.1.toOption.getD default

/-- Four fields of 2^62 splits, for which no socket is asked. -/
def unfitInputs : Except Error RunContext × MapCache :=
  RunContext.ofInputs
    { sampleSettings with
      shardDirs := ["a"]
      intFields := ["w", "x", "y", "z"]
      numSplits := 2 ^ 62 }
    (sampleTables.take 1) []
    (["w", "x", "y", "z"].foldl (fun files name =>
      (files.provide s!"a/fld-{name}.intterms" []).provide s!"a/fld-{name}.intdocs" []) .empty)
    .empty

def unfitContext : RunContext :=
  unfitInputs.1.toOption.getD default

theorem failed_run_names_fault_unreadable :
    (∃ f cause, (ofContext unreadableContext).run.1 = .error f ∧ f = .error (.task "x" 0 cause) ∧
        unreadableContext.Spoils "x" cause) ∧
      (∃ p : Panic, (ofContext oversizedContext).run.1 = .error (.error (.panicked p.text))) ∧
      (ofContext unfitContext).run.1 = .error
        (.panic (.ofText "index out of bounds: the len is 0 but the index is 0")) := by
  have made : unreadableInputs = (.ok unreadableContext, unreadableInputs.2) :=
    RunContext.made_of_isOk (by decide +kernel)
  have madeOversized : oversizedInputs = (.ok oversizedContext, oversizedInputs.2) :=
    RunContext.made_of_isOk (by decide +kernel)
  have madeUnfit : unfitInputs = (.ok unfitContext, unfitInputs.2) :=
    RunContext.made_of_isOk (by decide +kernel)
  have reliable : ∀ socket ∈ [Socket.ofBehaviour .reliable], socket.behaviour.NeverFails :=
    List.forall_mem_singleton.mpr SocketBehaviour.reliable_neverFails
  have sheltered : unreadableContext.Sheltered := by
    refine ⟨?_, by decide +kernel, by decide +kernel⟩
    rw [(RunContext.checked_of_ofInputs made).2.1]
    exact reliable
  have shelteredOversized : oversizedContext.Sheltered := by
    refine ⟨?_, by decide +kernel, by decide +kernel⟩
    rw [(RunContext.checked_of_ofInputs madeOversized).2.1]
    exact reliable
  have shelteredUnfit : unfitContext.Sheltered := by
    refine ⟨?_, by decide +kernel, by decide +kernel⟩
    rw [(RunContext.checked_of_ofInputs madeUnfit).2.1]
    exact List.forall_mem_nil _
  have fails : (ofContext unreadableContext).run.1.isOk = false := by decide +kernel
  obtain ⟨names, _⟩ := failed_run_names_fault made sheltered .start (.refl _)
  obtain ⟨_, panics, _⟩ := failed_run_names_fault madeOversized shelteredOversized .start (.refl _)
  obtain ⟨_, _, indexed⟩ := failed_run_names_fault madeUnfit shelteredUnfit .start (.refl _)
  refine ⟨?_, panics (by decide) (by decide) (by decide), indexed (by decide)⟩
  cases hx : (ofContext unreadableContext).run.1 with
  | ok _ =>
      rw [hx] at fails
      cases fails
  | error f =>
      obtain ⟨field, hfield, split, hs, cause, hf, spoils⟩ :=
        names (by decide) (.inr (by decide)) f hx
      obtain rfl : field = ("x", .int) := List.mem_singleton.mp hfield
      obtain rfl : split = 0 := Nat.lt_one_iff.mp hs
      exact ⟨f, cause, rfl, hf, spoils⟩

end Runner
end TermStats

import TermStats.Proofs.Run.Checked
import TermStats.Proofs.Run.SplitRecords
import TermStats.Proofs.Term.CursorLength

/-!
What a reader makes of the stream of a task: the records of the reference in their order, all of
them when the task succeeded. A stream that a failed task closed has those of the first ids.
-/

namespace TermStats

open Wire (Encoder Event TermRecord Leads Allowed decodeStream)

/-- The events of a stream that holds one field. -/
def Wire.fieldStream (field : String × TermKind) (numStats : Nat) (rs : List TermRecord) :
    List Event :=
  .fieldStart field.1 field.2 numStats :: rs.map .term ++ [.fieldEnd, .streamEnd]

theorem Wire.leads_fieldStream {field : String × TermKind} {numStats : Nat} {rs : List TermRecord}
    (nameFits : (Text.encode field.1).length < 2 ^ 64) (statsFit : numStats < 2 ^ 64)
    (h : ∀ r ∈ rs, Allowed (.inField field.2 numStats) (.term r) (.inField field.2 numStats)) :
    Leads .outside (fieldStream field numStats rs) .ended := by
  have terms : Leads (.inField field.2 numStats) (rs.map .term) (.inField field.2 numStats) := by
    induction rs with
    | nil => exact .nil _
    | cons r rest ih =>
        obtain ⟨hr, hrest⟩ := List.forall_mem_cons.mp h
        exact .cons hr (ih hrest)
  refine .cons (.fieldStart _ _ _ nameFits statsFit) (terms.append ?_)
  exact .cons .fieldEnd (.cons .streamEnd (.nil _))

theorem Settings.Valid.stats_lt {s : Settings} (valid : s.Valid) : s.numStats < 2 ^ 64 := by
  have wide : s.numStats ≤ s.numGroups * max s.numStats 1 :=
    Nat.le_trans (Nat.le_max_left _ _) (Nat.le_mul_of_pos_left _ valid.groups)
  have cells := Nat.le_trans wide valid.cells
  simp only [Settings.maxCells] at cells
  omega

namespace RunContext

/-- What holds of a context in memory: a word counts the bytes of each field's name and of each term
file. -/
structure Addressable (c : RunContext) : Prop where
  names : ∀ field ∈ c.settings.fields, (Text.encode field.1).length < 2 ^ 64
  files : ∀ shard ∈ c.shards, ∀ files ∈ shard.fields, files.terms.bytes.length < 2 ^ 64

variable {c : RunContext} {name : String} {split : Nat}

/-- The ids of a field are of its kind, and their lengths are words. -/
theorem encodable_of_mem_ids (checked : c.Checked) (addressable : c.Addressable)
    {field : String × TermKind} (hf : field ∈ c.settings.fields) {id : TermId}
    (h : id ∈ c.ids field.1) : id.kind = field.2 ∧ Wire.IdFits id := by
  obtain ⟨shard, hs, t, ht, rfl⟩ := mem_ids.mp h
  obtain ⟨files, hfiles, hkind⟩ := checked.fields shard hs field hf
  rw [Shard.terms, Shard.termItems_eq hfiles] at ht
  refine ⟨?_, ?_⟩
  · rw [← hkind]
    exact (Cursor.mem_toList (Cursor.Reachable.ofFile _).sound ht).2 _ rfl
  · have within := Cursor.within_of_mem (c := .ofFile _) (Nat.zero_le _) ht _ rfl
    have short := addressable.files shard hs files (Shard.mem_of_field hfiles)
    cases hid : t.id with
    | int _ => trivial
    | bytes bs =>
        rw [hid] at within
        exact Nat.lt_of_le_of_lt within short

end RunContext

namespace SplitTask

variable {t : SplitTask} {c : RunContext} {name : String} {split : Nat}

theorem streamEvents_eq (serves : t.Serves c name split) (rs : List TermRecord) :
    t.streamEvents rs = Wire.fieldStream (name, t.provider.kind) c.settings.numStats
      (rs.filter (·.groups ≠ [])) := by
  rw [streamEvents, termEvents, serves.field, serves.numStats]
  rfl

/-- A stream with the records of ids of the field is read as it was written. -/
theorem decode_streamEvents (checked : c.Checked) (addressable : c.Addressable)
    {field : String × TermKind} (hf : field ∈ c.settings.fields)
    (serves : t.Serves c field.1 split) (kind : t.provider.kind = field.2) {n : Nat}
    {rs : List TermRecord}
    (hrs : ((c.splitIds field.1 split).take n).mapM (c.record? field.1) = some rs) {bytes : Bytes}
    {e : Encoder} (h : Encoder.start.events (t.streamEvents rs) = .ok (bytes, e)) :
    decodeStream bytes =
      .ok (Wire.fieldStream field c.settings.numStats (rs.filter (·.groups ≠ []))) := by
  rw [streamEvents_eq serves, kind] at h
  refine Wire.decodeStream_encode (Wire.leads_fieldStream (addressable.names field hf)
    checked.valid.stats_lt fun r hr => ?_) h
  obtain ⟨id, hid, hr⟩ := mem_of_mapM hrs (List.mem_filter.mp hr).1
  have hid := (List.mem_filter.mp (List.mem_of_mem_take hid)).1
  obtain ⟨hterm, ascends, widths⟩ := RunContext.groups_of_record? hr
  obtain ⟨hkind, fits⟩ := RunContext.encodable_of_mem_ids checked addressable hf hid
  exact .term r (hterm ▸ hkind) (hterm ▸ fits) ascends widths

/-- A task that succeeded has read everything and delivered the records of its split. -/
theorem delivered_of_ok (serves : t.Serves c name split) {slot : SocketSlot}
    (h : (t.run slot).1 = .ok ()) :
    (∀ shard ∈ c.shards, firstFault? (shard.termItems name) = none) ∧
      (∀ id ∈ c.splitIds name split, (c.record? name id).isSome) ∧
      ∃ rs bytes e, (c.splitIds name split).mapM (c.record? name) = some rs ∧
        Encoder.start.events (t.streamEvents rs) = .ok (bytes, e) ∧
        (t.run slot).2.socket.sent = slot.socket.sent ++ bytes := by
  obtain ⟨all, bytes, e, hevents, hsent⟩ := run_ok (mergeSplit_eq serves) (Prod.ext h rfl)
  obtain ⟨_, hok, hrecords⟩ := output_eq serves
  obtain ⟨sound, read⟩ := hok.mp all
  exact ⟨sound, read, _, bytes, e, hrecords all, hevents, hsent⟩

theorem encodable_output (serves : t.Serves c name split) :
    ∀ r ∈ (t.output (Merge.ofSources t.mergeSources).items).1, t.Encodable r := by
  intro r hr
  obtain ⟨⟨n, hn⟩, _, _⟩ := output_eq serves
  obtain ⟨id, _, hid⟩ := mem_of_mapM hn hr
  obtain ⟨_, ascends, widths⟩ := RunContext.groups_of_record? hid
  rw [← serves.numStats] at widths
  exact ⟨ascends, widths⟩

/-- On a socket that never fails, a task delivers the records of the first ids, and succeeds when
there is nothing that it could not read. -/
theorem delivered_of_neverFails (serves : t.Serves c name split) {slot : SocketSlot}
    (never : slot.socket.behaviour.NeverFails) (kept : slot.lost = false)
    (fits : t.bufferSize ≤ BufferedSocket.maxCapacity) :
    ((t.run slot).1 = .ok () ↔ (∀ shard ∈ c.shards, firstFault? (shard.termItems name) = none) ∧
        ∀ id ∈ c.splitIds name split, (c.record? name id).isSome) ∧
      (t.run slot).2.lost = false ∧ (t.run slot).2.socket.behaviour.NeverFails ∧
      ∃ n rs bytes e, ((c.splitIds name split).take n).mapM (c.record? name) = some rs ∧
        Encoder.start.events (t.streamEvents rs) = .ok (bytes, e) ∧
        (t.run slot).2.socket.sent = slot.socket.sent ++ bytes := by
  obtain ⟨⟨n, hn⟩, hok, _⟩ := output_eq serves
  obtain ⟨slot', hrun, hkept, never', bytes, e, hevents, hsent⟩ :=
    run_neverFails never kept fits (mergeSplit_eq serves) (encodable_output serves)
  rw [hrun]
  exact ⟨outcome_eq_ok.trans hok, hkept, never', n, _, bytes, e, hn, hevents, hsent⟩

end SplitTask
end TermStats

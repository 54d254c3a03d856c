import TermStats.Proofs.Run.Schedule
import TermStats.Proofs.Run.Sockets
import TermStats.Proofs.Term.Listed

/-!
Streams that do not interfere. What the streams of a field depend on is a view of the context: a few
settings, and of each shard the table and the field's own files. In two contexts with the same view
of a field the task of a split does the same work, whatever else the contexts hold.
-/

namespace TermStats

open Result

namespace Shard

variable {s s' : Shard} {name : String}

theorem field_of_view (same : s'.view name = s.view name) :
    (∃ e, s.field name = .error e ∧ s'.field name = .error e) ∨
      ∃ f f', s.field name = .ok f ∧ s'.field name = .ok f' ∧ f'.kind = f.kind ∧
        f'.terms.bytes = f.terms.bytes ∧ f'.docs.bytes = f.docs.bytes := by
  have files : (s'.view name).files = (s.view name).files := congrArg FieldView.files same
  cases hf : s.field name with
  | error e =>
      have none : (s.view name).files = .error e := by
        rw [view, hf]
        rfl
      exact .inl ⟨e, rfl, view_files_error (files.trans none)⟩
  | ok f =>
      have held : (s.view name).files = .ok (f.kind, f.terms.bytes, f.docs.bytes) := by
        rw [view, hf]
        rfl
      obtain ⟨f', hf', alike⟩ := view_files_ok (files.trans held)
      exact .inr ⟨f, f', rfl, hf', alike⟩

theorem termItems_of_view (same : s'.view name = s.view name) :
    s'.termItems name = s.termItems name := by
  have directory : s'.directory = s.directory := congrArg FieldView.directory same
  rcases field_of_view same with ⟨e, hf, hf'⟩ | ⟨f, f', hf, hf', hkind, hterms, _⟩
  · simp only [termItems, termCursor, hf, hf', bind, Except.bind]
  · rw [termItems_eq hf, termItems_eq hf', directory, hkind, hterms]

end Shard

/-- Two contexts that the streams of a field cannot tell apart. -/
structure RunContext.AgreeOn (name : String) (c c' : RunContext) : Prop where
  numGroups : c'.settings.numGroups = c.settings.numGroups
  numStats : c'.settings.numStats = c.settings.numStats
  numSplits : c'.settings.numSplits = c.settings.numSplits
  binaryMetrics : c'.settings.binaryMetrics = c.settings.binaryMetrics
  partitionRule : c'.settings.partitionRule = c.settings.partitionRule
  writerBufferSize : c'.settings.writerBufferSize = c.settings.writerBufferSize
  shards : c'.shards.map (·.view name) = c.shards.map (·.view name)

namespace RunContext

variable {c c' : RunContext} {name : String}

/-- Whether an item of a field's terms comes up in a split. -/
def passes (c : RunContext) (split : Nat) : Except Error Term → Bool
  | .ok t => c.inSplit split t.id
  | .error _ => true

theorem AgreeOn.shard_cases (agree : c.AgreeOn name c') (i : Nat) :
    (c.shards[i]? = none ∧ c'.shards[i]? = none) ∨
      ∃ s s', c.shards[i]? = some s ∧ c'.shards[i]? = some s' ∧ s'.view name = s.view name := by
  have same := congrArg (·[i]?) agree.shards
  simp only [List.getElem?_map] at same
  cases hs : c.shards[i]? with
  | none =>
      rw [hs, Option.map_none, Option.map_eq_none_iff] at same
      exact .inl ⟨rfl, same⟩
  | some s =>
      rw [hs, Option.map_some, Option.map_eq_some_iff] at same
      obtain ⟨s', hs', view⟩ := same
      exact .inr ⟨s, s', rfl, hs', view⟩

theorem AgreeOn.termItems_eq (agree : c.AgreeOn name c') :
    c'.shards.map (·.termItems name) = c.shards.map (·.termItems name) := by
  refine List.ext_getElem? fun i => ?_
  rw [List.getElem?_map, List.getElem?_map]
  rcases agree.shard_cases i with ⟨hs, hs'⟩ | ⟨s, s', hs, hs', view⟩
  · rw [hs, hs']
  · rw [hs, hs']
    exact congrArg some (Shard.termItems_of_view view)

end RunContext

namespace SplitTask

variable {t t' : SplitTask} {c c' : RunContext} {name : String} {split : Nat}

section Agree

variable (serves : t.Serves c name split) (serves' : t'.Serves c' name split)
  (agree : c.AgreeOn name c')

include serves serves' agree

end Agree

end SplitTask

namespace Runner

variable {c c' : RunContext} {r r' : Runner} {tasks tasks' : List SplitTask}

section Agree

variable (checked : c.Checked) (checked' : c'.Checked) (of : r.Of c) (of' : r'.Of c')
  {field : String × TermKind} (agree : c.AgreeOn field.1 c') {f f' split : Nat}
  (hf : c.settings.fields[f]? = some field) (hf' : c'.settings.fields[f']? = some field)
  (hs : split < c.settings.numSplits) (has : c.settings.HasStream f split)
  (has' : c'.settings.HasStream f' split)
  (same : r'.slots[c'.settings.streamIndex f' split]? = r.slots[c.settings.streamIndex f split]?)

include checked checked' of of' agree hf hf' hs has has' same

end Agree

end Runner
end TermStats

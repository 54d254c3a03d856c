import TermStats.Proofs.Run.Totals
import TermStats.Proofs.Term.Items
import TermStats.Run.Context
import TermStats.Wire.Event

/-!
What the stream of a field's split is to hold, taken straight from the terms and posting lists of
all shards: for each id the sum of its doc freqs, and the sums of its documents' rows by group. No
merge and no split filter takes part in it. Where a file has a fault, the terms are those before it.
-/

namespace TermStats

open Wire (TermRecord GroupRow)

namespace Shard

/-- What a cursor yields over the field: its terms, and a fault at the end if there is one. -/
def termItems (s : Shard) (name : String) : List (Except Error Term) :=
  match s.termCursor name default with
  | .ok cursor => TermSource.toList cursor
  | .error _ => []

def terms (s : Shard) (name : String) : List Term :=
  beforeFault (s.termItems name)

/-- The documents of a posting list, and a fault at the end if the list has one. -/
def documents (s : Shard) (name : String) (offset : Int64) (freq : Int32) : List Document :=
  match s.field name with
  | .error _ => []
  | .ok files =>
      match DocIds.locate files.docs.bytes offset freq with
      | .ok ids => ids.items.map (s.table, ·)
      | .error f => [(s.table, .error f)]

theorem termItems_eq {s : Shard} {name : String} {files : FieldFiles}
    (h : s.field name = .ok files) : s.termItems name = TermSource.toList
      (Cursor.ofFile ⟨default, s.directory, name, files.kind, files.terms.bytes⟩) := by
  rw [termItems, termCursor, h]
  rfl

end Shard

namespace RunContext

variable (c : RunContext) (name : String)

/-- The terms of an id in all shards, shard by shard. -/
def termsOf (id : TermId) : List (Shard × Term) :=
  c.shards.flatMap fun s => ((s.terms name).filter (·.id = id)).map (s, ·)

def documentsOf (id : TermId) : List Document :=
  (c.termsOf name id).flatMap fun (s, t) => s.documents name t.offset t.freq

def readDoc : Document → Option Sample :=
  TermStats.readDoc c.settings.numGroups c.settings.numStats c.settings.binaryMetrics

/-- The sum of the doc freqs of an id. -/
def docFreq (id : TermId) : Nat :=
  ((c.termsOf name id).map (·.2.freq.toInt.toNat)).sum

/-- The ids of a field in any shard, ascending. -/
def ids : List TermId :=
  distinct (c.shards.flatMap fun s => (s.terms name).map (·.id))

/-- Whether the partitioner gives an id to a split. A single split has them all. -/
def inSplit (split : Nat) (id : TermId) : Bool :=
  c.settings.numSplits = 1 ∨
    c.settings.partitionRule.partitioner.splitOf? id c.settings.numSplits = some split

def splitIds (split : Nat) : List TermId :=
  (c.ids name).filter (c.inSplit split)

/-- The record of an id, when all its documents can be read. -/
def record? (id : TermId) : Option TermRecord :=
  ((c.documentsOf name id).mapM c.readDoc).map fun samples =>
    ⟨id, (c.docFreq name id).toUInt64,
      (groupSums c.settings.numStats samples).map fun e => ⟨e.1, e.2⟩⟩

/-- The records of a split: those of its ids that have a document in a counted group. -/
def records (split : Nat) : List TermRecord :=
  (c.splitIds name split).filterMap fun id => (c.record? name id).filter (·.groups ≠ [])

variable {c name}

theorem mem_ids {id : TermId} :
    id ∈ c.ids name ↔ ∃ shard ∈ c.shards, ∃ t ∈ shard.terms name, t.id = id := by
  rw [ids, mem_distinct]
  simp only [List.mem_flatMap, List.mem_map]

/-- A record is of its id; its groups ascend, and each has the stats of all columns. -/
theorem groups_of_record? {id : TermId} {r : TermRecord} (h : c.record? name id = some r) :
    r.term = id ∧ (r.groups.map (·.group)).Pairwise (· < ·) ∧
      ∀ row ∈ r.groups, row.stats.length = c.settings.numStats := by
  obtain ⟨samples, _, rfl⟩ := Option.map_eq_some_iff.mp h
  have groups : ((groupSums c.settings.numStats samples).map fun e =>
      (⟨e.1, e.2⟩ : GroupRow)).map (·.group) = countedGroups samples := by
    rw [groupSums, List.map_map, List.map_map]
    exact List.map_id _
  refine ⟨rfl, groups ▸ pairwise_distinct _, ?_⟩
  intro row hrow
  obtain ⟨_, hentry, rfl⟩ := List.mem_map.mp hrow
  obtain ⟨group, _, rfl⟩ := List.mem_map.mp hentry
  simp [columnSums]

end RunContext
end TermStats

import Mathlib.Algebra.Group.Int.Defs
import Mathlib.Algebra.GroupWithZero.Nat
import TermStats.Proofs.Storage.Mapped
import TermStats.Shard.Basic

/-!
Shards as they are opened. Every field that is asked for is there, over the bytes that its own two
files are mapped to; the fields share a cache, and none depends on the files of another.
-/

namespace TermStats

/-- What is mapped for both files of a field. -/
def MapCache.MapsField (cache : MapCache) (files : FileTree) (directory : Path) (name : String)
    (kind : TermKind) (held : Bytes × Bytes) : Prop :=
  cache.Maps files (termFilePath directory name kind) held.1 ∧
    cache.Maps files (docFilePath directory name kind) held.2

instance {cache : MapCache} {files : FileTree} {directory : Path} {name : String} {kind : TermKind}
    {held : Bytes × Bytes} : Decidable (cache.MapsField files directory name kind held) :=
  inferInstanceAs (Decidable (_ ∧ _))

/-- The part of a shard that the streams of one field depend on. -/
structure FieldView where
  directory : Path
  table : PackedTable
  files : Except Error (TermKind × Bytes × Bytes)

namespace Shard

def view (s : Shard) (name : String) : FieldView :=
  ⟨s.directory, s.table, (s.field name).map fun f => (f.kind, f.terms.bytes, f.docs.bytes)⟩

section View

variable {s : Shard} {name : String}

theorem view_files_ok {held : TermKind × Bytes × Bytes} (h : (s.view name).files = .ok held) :
    ∃ f, s.field name = .ok f ∧ f.kind = held.1 ∧ f.terms.bytes = held.2.1 ∧
      f.docs.bytes = held.2.2 := by
  simp only [view] at h
  cases hf : s.field name with
  | error e =>
      rw [hf] at h
      cases h
  | ok f =>
      rw [hf] at h
      cases h
      exact ⟨f, rfl, rfl, rfl, rfl⟩

theorem view_files_error {e : Error} (h : (s.view name).files = .error e) :
    s.field name = .error e := by
  simp only [view] at h
  cases hf : s.field name with
  | error e' =>
      rw [hf] at h
      cases h
      rfl
  | ok f =>
      rw [hf] at h
      cases h

end View

theorem mem_of_field {s : Shard} {name : String} {files : FieldFiles}
    (h : s.field name = .ok files) : files ∈ s.fields := by
  simp only [field] at h
  split at h
  · rename_i hfound
    cases h
    exact List.mem_of_find?_eq_some hfound
  · cases h

theorem name_of_field {s : Shard} {name : String} {f : FieldFiles} (h : s.field name = .ok f) :
    f.name = name := by
  simp only [field] at h
  split at h
  · rename_i found
    cases h
    simpa using List.find?_some found
  · cases h

/-- What happens to the first field when all are opened: it is new, and both its files are mapped.
-/
theorem mapFields_cons {files : FileTree} {directory : Path} {cache cache' : MapCache}
    {opened result : List FieldFiles} {name : String} {kind : TermKind}
    {rest : List (String × TermKind)}
    (h : mapFields files directory cache opened ((name, kind) :: rest) = (.ok result, cache')) :
    ∃ terms docs cache₁ cache₂, (∀ f ∈ opened, f.name ≠ name) ∧
      cache.getOrMap files.read (termFilePath directory name kind) = (.ok terms, cache₁) ∧
      cache₁.getOrMap files.read (docFilePath directory name kind) = (.ok docs, cache₂) ∧
      mapFields files directory cache₂ (opened ++ [⟨name, kind, terms, docs⟩]) rest =
        (.ok result, cache') := by
  simp only [mapFields] at h
  split at h
  · cases h
  · rename_i hnew
    split at h
    · cases h
    · rename_i hterms
      split at h
      · cases h
      · rename_i hdocs
        refine ⟨_, _, _, _, fun f hf same => ?_, hterms, hdocs, h⟩
        exact hnew (List.any_eq_true.mpr ⟨f, hf, by simpa using same⟩)

theorem mapFields_ok {files : FileTree} {directory : Path} {cache cache' : MapCache}
    {opened result : List FieldFiles} {fields : List (String × TermKind)}
    (h : mapFields files directory cache opened fields = (.ok result, cache'))
    (distinct : opened.Pairwise (·.name ≠ ·.name)) :
    result.Pairwise (·.name ≠ ·.name) ∧
      result.map (fun f => (f.name, f.kind)) =
        opened.map (fun f => (f.name, f.kind)) ++ fields := by
  induction fields generalizing cache opened with
  | nil =>
      cases h
      exact ⟨distinct, (List.append_nil _).symm⟩
  | cons field rest ih =>
      obtain ⟨terms, docs, cache₁, cache₂, hnew, _, _, h⟩ := mapFields_cons h
      obtain ⟨hdistinct, hresult⟩ := ih h (by
        refine List.pairwise_append.mpr ⟨distinct, List.pairwise_singleton _ _, ?_⟩
        intro f hf g hg
        rw [List.mem_singleton.mp hg]
        exact hnew f hf)
      refine ⟨hdistinct, ?_⟩
      rw [hresult, List.map_append, List.append_assoc]
      rfl

/-- How a shard is opened: its fields are mapped, none being open before. -/
theorem openIn_ok {files : FileTree} {cache cache' : MapCache} {directory : Path}
    {intFields stringFields : List String} {table : PackedTable} {s : Shard}
    (h : openIn files cache directory intFields stringFields table = (.ok s, cache')) :
    ∃ fields, mapFields files directory cache [] (typedFields intFields stringFields) =
      (.ok fields, cache') ∧ s = ⟨directory, intFields, stringFields, fields, table⟩ := by
  simp only [openIn] at h
  cases hm : mapFields files directory cache [] (typedFields intFields stringFields) with
  | mk x cache₁ =>
      rw [hm] at h
      cases x with
      | error e => cases h
      | ok fields =>
          cases h
          exact ⟨fields, rfl, rfl⟩

/-- Where the names differ, each field is found under its own. -/
theorem find?_of_distinct {fields : List FieldFiles} (distinct : fields.Pairwise (·.name ≠ ·.name))
    {f : FieldFiles} (hf : f ∈ fields) : fields.find? (·.name = f.name) = some f := by
  induction fields with
  | nil => cases hf
  | cons g rest ih =>
      obtain ⟨hg, hrest⟩ := List.pairwise_cons.mp distinct
      rcases List.mem_cons.mp hf with rfl | hf
      · simp
      · simp [hg f hf, ih hrest hf]

/-- Every field asked for is there, in its kind. -/
theorem field_of_openIn {files : FileTree} {cache cache' : MapCache} {directory : Path}
    {intFields stringFields : List String} {table : PackedTable} {shard : Shard}
    (h : openIn files cache directory intFields stringFields table = (.ok shard, cache')) :
    shard.table = table ∧ ∀ field ∈ typedFields intFields stringFields,
      ∃ found, shard.field field.1 = .ok found ∧ found.kind = field.2 := by
  obtain ⟨fields, hm, rfl⟩ := openIn_ok h
  obtain ⟨distinct, all⟩ := mapFields_ok hm List.Pairwise.nil
  rw [List.map_nil, List.nil_append] at all
  refine ⟨rfl, fun field hfield => ?_⟩
  rw [← all] at hfield
  obtain ⟨f, hf, rfl⟩ := List.mem_map.mp hfield
  refine ⟨f, ?_, rfl⟩
  rw [Shard.field, find?_of_distinct distinct hf]

section Opening

variable {files : FileTree} {directory : Path} {cache cache' : MapCache}

theorem maps_of_mapFields {opened result : List FieldFiles} {fields : List (String × TermKind)}
    (h : mapFields files directory cache opened fields = (.ok result, cache')) {path : Path}
    {bytes : Bytes} (maps : cache.Maps files path bytes) : cache'.Maps files path bytes := by
  induction fields generalizing cache opened with
  | nil =>
      cases h
      exact maps
  | cons field rest ih =>
      obtain ⟨_, _, _, _, _, hterms, hdocs, h⟩ := mapFields_cons h
      exact ih h ((maps.after hterms).after hdocs)

/-- The files that are opened are those that the cache then has. -/
theorem cached_of_mapFields {opened result : List FieldFiles} {fields : List (String × TermKind)}
    (h : mapFields files directory cache opened fields = (.ok result, cache'))
    (cached : ∀ f ∈ opened, cache.get? (termFilePath directory f.name f.kind) = some f.terms ∧
      cache.get? (docFilePath directory f.name f.kind) = some f.docs) :
    ∀ f ∈ result, cache'.get? (termFilePath directory f.name f.kind) = some f.terms ∧
      cache'.get? (docFilePath directory f.name f.kind) = some f.docs := by
  induction fields generalizing cache opened with
  | nil =>
      cases h
      exact cached
  | cons field rest ih =>
      obtain ⟨terms, docs, cache₁, cache₂, _, hterms, hdocs, h⟩ := mapFields_cons h
      refine ih h fun f hf => ?_
      rcases List.mem_append.mp hf with hf | hf
      · obtain ⟨found_terms, found_docs⟩ := cached f hf
        exact ⟨MapCache.get?_after (MapCache.get?_after found_terms hterms) hdocs,
          MapCache.get?_after (MapCache.get?_after found_docs hterms) hdocs⟩
      · rw [List.mem_singleton.mp hf]
        exact ⟨MapCache.get?_after (MapCache.get?_of_getOrMap hterms) hdocs,
          MapCache.get?_of_getOrMap hdocs⟩

/-- A shard holds of a field what was mapped for its files before any were opened. -/
theorem view_of_openIn {intFields stringFields : List String} {table : PackedTable} {s : Shard}
    (h : openIn files cache directory intFields stringFields table = (.ok s, cache'))
    {name : String} {kind : TermKind} (listed : (name, kind) ∈ typedFields intFields stringFields)
    {held : Bytes × Bytes} (maps : cache.MapsField files directory name kind held) :
    s.view name = ⟨directory, table, .ok (kind, held)⟩ := by
  obtain ⟨_, all⟩ := field_of_openIn h
  obtain ⟨f, found, hkind⟩ := all _ listed
  obtain ⟨fields, hm, rfl⟩ := openIn_ok h
  obtain ⟨terms, docs⟩ := cached_of_mapFields hm nofun f (mem_of_field found)
  rw [name_of_field found, hkind] at terms docs
  have ht := (maps_of_mapFields hm maps.1).bytes_of_get? terms
  have hd := (maps_of_mapFields hm maps.2).bytes_of_get? docs
  rw [view, found]
  simp only [Except.map, hkind, ht, hd]

end Opening

end Shard
end TermStats

import TermStats.Proofs.Run.Reference
import TermStats.Shard.Summary

/-!
When a field can be summarized: its term file and all its posting lists can be read to their ends.
-/

namespace TermStats

open Result

namespace FieldSummary

theorem addDocs_ok {s : FieldSummary} {items : List (Except PostingFault Int64)} :
    (∃ s', s.addDocs items = .ok s') ↔ ∀ item ∈ items, item.isOk := by
  induction items generalizing s with
  | nil => exact ⟨fun _ => nofun, fun _ => ⟨s, rfl⟩⟩
  | cons item rest ih =>
      cases item with
      | error f => simp [addDocs, Except.isOk, Except.toBool]
      | ok doc => simp [addDocs, ih, Except.isOk, Except.toBool]

/-- The posting list at a term's place can be read to its end. -/
def Readable (docs : Bytes) (t : Term) : Prop :=
  ∃ ids, DocIds.locate docs t.offset t.freq = .ok ids ∧ ∀ item ∈ ids.items, item.isOk

theorem addTerms_ok {docs : Bytes} {s : FieldSummary} {items : List (Except Error Term)} :
    (∃ s', addTerms docs s items = .ok s') ↔
      firstFault? items = none ∧ ∀ t ∈ beforeFault items, Readable docs t := by
  induction items generalizing s with
  | nil => exact ⟨fun _ => ⟨rfl, nofun⟩, fun _ => ⟨s, rfl⟩⟩
  | cons item rest ih =>
      cases item with
      | error e => simp [addTerms, firstFault?]
      | ok t =>
          simp only [addTerms, firstFault?, beforeFault, List.forall_mem_cons]
          cases hl : DocIds.locate docs t.offset t.freq with
          | error f => simp [Readable, hl]
          | ok ids =>
              have readable : Readable docs t ↔ ∃ s', (s.addTerm t).addDocs ids.items = .ok s' := by
                rw [addDocs_ok, Readable, hl]
                simp
              rw [readable]
              cases hd : (s.addTerm t).addDocs ids.items with
              | error e => simp [hd]
              | ok s' => simp [hd, ih]

end FieldSummary

namespace Shard

theorem readable_iff {s : Shard} {name : String} {files : FieldFiles}
    (h : s.field name = .ok files) (t : Term) :
    FieldSummary.Readable files.docs.bytes t ↔
      ∀ d ∈ s.documents name t.offset t.freq, d.2.isOk := by
  simp only [FieldSummary.Readable, documents, h]
  cases DocIds.locate files.docs.bytes t.offset t.freq with
  | error f => simp [Except.isOk, Except.toBool]
  | ok ids => simp

theorem summarize_eq {s : Shard} {name : String} {files : FieldFiles}
    (h : s.field name = .ok files) : s.summarize name =
      FieldSummary.addTerms files.docs.bytes .empty (s.termItems name) := by
  rw [summarize, termCursor, h, termItems_eq h]
  rfl

theorem summarize_ok {s : Shard} {name : String} {files : FieldFiles}
    (h : s.field name = .ok files) :
    (∃ summary, s.summarize name = .ok summary) ↔ firstFault? (s.termItems name) = none ∧
      ∀ t ∈ s.terms name, ∀ d ∈ s.documents name t.offset t.freq, d.2.isOk := by
  rw [summarize_eq h, FieldSummary.addTerms_ok, terms]
  simp only [readable_iff h]

end Shard
end TermStats

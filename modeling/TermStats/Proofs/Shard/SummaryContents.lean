import Mathlib.Algebra.Ring.Int.Defs
import Mathlib.Order.Bounds.Defs
import TermStats.Proofs.Field.PostingList
import TermStats.Proofs.Shard.Summary
import TermStats.Proofs.Term.CursorOrder

/-!
What a summary of a field says: the number of its terms and the least and greatest of their ids, the
maximum and the sum of their doc freqs, and the least and greatest document id in all their posting
lists, wherever these lie. The sum of the doc freqs is the number of ids in the lists.
-/

namespace TermStats

section Extrema

variable {α : Type} [LE α]

/-- The least member of a list, if it has one. -/
def LeastOf (xs : List α) : Option α → Prop
  | none => xs = []
  | some m => IsLeast {x | x ∈ xs} m

/-- The greatest member of a list, if it has one. -/
def GreatestOf (xs : List α) : Option α → Prop
  | none => xs = []
  | some m => IsGreatest {x | x ∈ xs} m

variable [Std.IsLinearOrder α] {xs : List α} {m? : Option α} {m x : α}

theorem isLeast_singleton_list (x : α) : IsLeast {y | y ∈ [x]} x := by
  refine ⟨List.mem_singleton_self x, fun y hy => ?_⟩
  rw [List.mem_singleton.mp hy]
  exact Std.le_refl x

theorem isGreatest_singleton_list (x : α) : IsGreatest {y | y ∈ [x]} x := by
  refine ⟨List.mem_singleton_self x, fun y hy => ?_⟩
  rw [List.mem_singleton.mp hy]
  exact Std.le_refl x

/-- A last member that is not below any other is the greatest. -/
theorem isGreatest_concat_of_le (above : ∀ y ∈ xs, y ≤ x) :
    IsGreatest {y | y ∈ xs ++ [x]} x := by
  refine ⟨List.mem_concat_self, fun y hy => ?_⟩
  rcases List.mem_append.mp hy with hy | hy
  · exact above y hy
  · rw [List.mem_singleton.mp hy]
    exact Std.le_refl x

theorem LeastOf.concat_of_le (h : LeastOf xs m?) (above : ∀ y ∈ xs, y ≤ x) :
    LeastOf (xs ++ [x]) (m?.or (some x)) := by
  cases m? with
  | none =>
      obtain rfl : xs = [] := h
      exact isLeast_singleton_list x
  | some m =>
      refine ⟨List.mem_append_left _ h.1, fun y hy => ?_⟩
      rcases List.mem_append.mp hy with hy | hy
      · exact h.2 hy
      · rw [List.mem_singleton.mp hy]
        exact above m h.1

variable [LT α] [Std.LawfulOrderLT α] [DecidableLT α]

theorem isLeast_concat (h : IsLeast {y | y ∈ xs} m) (x : α) :
    IsLeast {y | y ∈ xs ++ [x]} (if x < m then x else m) := by
  obtain ⟨mem, least⟩ := h
  refine ⟨?_, fun y hy => ?_⟩
  · split
    · exact List.mem_concat_self
    · exact List.mem_append_left _ mem
  · rcases List.mem_append.mp hy with hy | hy
    · have := least hy
      grind
    · rw [List.mem_singleton.mp hy]
      grind

theorem isGreatest_concat (h : IsGreatest {y | y ∈ xs} m) (x : α) :
    IsGreatest {y | y ∈ xs ++ [x]} (if m < x then x else m) := by
  obtain ⟨mem, greatest⟩ := h
  refine ⟨?_, fun y hy => ?_⟩
  · split
    · exact List.mem_concat_self
    · exact List.mem_append_left _ mem
  · rcases List.mem_append.mp hy with hy | hy
    · have := greatest hy
      grind
    · rw [List.mem_singleton.mp hy]
      grind

theorem LeastOf.concat (h : LeastOf xs m?) (x : α) :
    LeastOf (xs ++ [x]) (some (m?.elim x fun m => if x < m then x else m)) := by
  cases m? with
  | none =>
      obtain rfl : xs = [] := h
      exact isLeast_singleton_list x
  | some m => exact isLeast_concat h x

theorem GreatestOf.concat (h : GreatestOf xs m?) (x : α) :
    GreatestOf (xs ++ [x]) (some (m?.elim x fun m => if m < x then x else m)) := by
  cases m? with
  | none =>
      obtain rfl : xs = [] := h
      exact isGreatest_singleton_list x
  | some m => exact isGreatest_concat h x

end Extrema

namespace DocIds

theorem nonneg_freq {data : Bytes} {offset : Int64} {freq : Int32} {d : DocIds}
    (located : locate data offset freq = .ok d) : 0 ≤ freq := by
  have zero : (0 : Int32).toInt = 0 := rfl
  rw [Int32.le_iff_toInt_le, zero, ← (behind_of_locate located).2.2.1]
  exact Int.natCast_nonneg d.remaining

/-- A list that is read without a fault has as many ids as were asked for. -/
theorem length_read {docs : Bytes} {offset : Int64} {freq : Int32}
    (sound : firstFault? (read docs offset freq) = none) :
    ((beforeFault (read docs offset freq)).length : Int) = freq.toInt := by
  rw [read] at sound ⊢
  split at sound
  · rename_i ids located
    obtain ⟨behind, _, count, _⟩ := behind_of_locate located
    obtain ⟨found, fault?, _, _, items, _, _, whole, _⟩ := reads_from behind
    rw [items, firstFault?_append] at sound
    have all : fault? = none := by
      cases fault? with
      | none => rfl
      | some f => cases sound
    rw [items, beforeFault_append, List.length_append, whole all, all, ← count]
    rfl
  · cases sound

end DocIds

/-- The ids of the posting lists of some terms, term by term. -/
def postedIds (docs : Bytes) (terms : List Term) : List Int64 :=
  terms.flatMap fun t => beforeFault (DocIds.read docs t.offset t.freq)

theorem postedIds_append (docs : Bytes) (l l' : List Term) :
    postedIds docs (l ++ l') = postedIds docs l ++ postedIds docs l' :=
  List.flatMap_append

theorem length_postedIds {docs : Bytes} {terms : List Term}
    (sound : ∀ t ∈ terms, firstFault? (DocIds.read docs t.offset t.freq) = none) :
    ((postedIds docs terms).length : Int) = (terms.map (·.freq.toInt)).sum := by
  induction terms with
  | nil => rfl
  | cons t rest ih =>
      obtain ⟨first, others⟩ := List.forall_mem_cons.mp sound
      rw [postedIds, List.flatMap_cons, List.length_append, Int.natCast_add,
        DocIds.length_read first, ← postedIds, ih others, List.map_cons, List.sum_cons]

namespace FieldSummary

theorem readable_iff_read {docs : Bytes} {t : Term} :
    Readable docs t ↔ firstFault? (DocIds.read docs t.offset t.freq) = none := by
  rw [firstFault?_eq_none, Readable, DocIds.read]
  cases DocIds.locate docs t.offset t.freq with
  | error f => simp [Except.isOk, Except.toBool]
  | ok ids => simp

/-- What a summary says of the terms of a field, and of the ids in their posting lists. A sum of doc
freqs wraps around. -/
structure Summarizes (s : FieldSummary) (terms : List Term) (docs : List Int64) : Prop where
  termCount : s.termCount = terms.length
  minId : LeastOf (terms.map (·.id)) s.minId
  maxId : GreatestOf (terms.map (·.id)) s.maxId
  maxFreq : IsGreatest {f | f ∈ terms.map (·.freq)} s.maxFreq ∨ terms = [] ∧ s.maxFreq = 0
  totalFreq : s.totalFreq = Int64.ofInt (terms.map (·.freq.toInt)).sum
  minDoc : LeastOf docs s.minDoc
  maxDoc : GreatestOf docs s.maxDoc

variable {s s' : FieldSummary} {terms : List Term} {docs : List Int64}

theorem summarizes_empty : empty.Summarizes [] [] :=
  ⟨rfl, rfl, rfl, .inr ⟨rfl, rfl⟩, rfl, rfl, rfl⟩

theorem Summarizes.addTerm (h : s.Summarizes terms docs) {t : Term}
    (above : ∀ u ∈ terms, u.id ≤ t.id) (nonneg : 0 ≤ t.freq) :
    (s.addTerm t).Summarizes (terms ++ [t]) docs := by
  have ids : ∀ id ∈ terms.map (·.id), id ≤ t.id := by
    intro id hid
    obtain ⟨u, hu, rfl⟩ := List.mem_map.mp hid
    exact above u hu
  refine ⟨?_, ?_, ?_, .inl ?_, ?_, h.minDoc, h.maxDoc⟩
  · rw [List.length_append, ← h.termCount]
    rfl
  · rw [List.map_append]
    exact h.minId.concat_of_le ids
  · rw [List.map_append]
    exact isGreatest_concat_of_le ids
  · rw [List.map_append]
    obtain greatest | ⟨rfl, zero⟩ := h.maxFreq
    · exact isGreatest_concat greatest t.freq
    · -- Before the first term, the maximum stands at 0.
      have first : (s.addTerm t).maxFreq = t.freq := by
        simp only [FieldSummary.addTerm, zero]
        split
        · rfl
        · exact Std.le_antisymm nonneg (Std.not_lt.mp ‹_›)
      rw [first]
      exact isGreatest_singleton_list t.freq
  · rw [List.map_append, List.sum_append, Int64.ofInt_add, ← h.totalFreq]
    simp [FieldSummary.addTerm]

theorem Summarizes.addDoc (h : s.Summarizes terms docs) (doc : Int64) :
    (s.addDoc doc).Summarizes terms (docs ++ [doc]) :=
  ⟨h.termCount, h.minId, h.maxId, h.maxFreq, h.totalFreq, h.minDoc.concat doc, h.maxDoc.concat doc⟩

theorem Summarizes.addDocs (h : s.Summarizes terms docs)
    {items : List (Except PostingFault Int64)} (added : s.addDocs items = .ok s') :
    s'.Summarizes terms (docs ++ beforeFault items) := by
  induction items generalizing s docs with
  | nil =>
      cases added
      simpa [beforeFault] using h
  | cons item rest ih =>
      cases item with
      | error f => cases added
      | ok doc =>
          rw [beforeFault, List.append_cons]
          exact ih (h.addDoc doc) added

/-- Terms whose ids ascend, added to those before them. -/
theorem Summarizes.addTerms (h : s.Summarizes terms docs) {data : Bytes}
    {items : List (Except Error Term)} (added : addTerms data s items = .ok s')
    (ascends : (terms ++ beforeFault items).Pairwise (·.id ≤ ·.id)) :
    s'.Summarizes (terms ++ beforeFault items)
      (docs ++ postedIds data (beforeFault items)) := by
  induction items generalizing s terms docs with
  | nil =>
      cases added
      simpa [beforeFault, postedIds] using h
  | cons item rest ih =>
      cases item with
      | error e => cases added
      | ok t =>
          simp only [FieldSummary.addTerms] at added
          split at added
          · cases added
          · rename_i ids located
            split at added
            · cases added
            · rename_i s₁ hdocs
              -- As the ids ascend, the term that is added has the greatest one so far.
              have above := (List.pairwise_append.mp ascends).2.2
              have posted : postedIds data [t] = beforeFault ids.items := by
                rw [postedIds, List.flatMap_singleton, DocIds.read, located]
              have first : s₁.Summarizes (terms ++ [t]) (docs ++ postedIds data [t]) := by
                rw [posted]
                exact (h.addTerm (fun u hu => above u hu t List.mem_cons_self)
                  (DocIds.nonneg_freq located)).addDocs hdocs
              rw [beforeFault, List.append_cons] at ascends ⊢
              have all := ih first added ascends
              rwa [List.append_assoc docs, ← postedIds_append] at all

end FieldSummary

namespace Shard

variable {s : Shard} {name : String} {files : FieldFiles}

/-- For any bytes in the files of a field: there is a summary exactly if its terms, and the posting
lists of all of them, are read to their ends without a fault. It is then that of all its terms and
of all ids in their lists. The doc freqs sum up to the number of these ids, and so does the total
when it does not wrap around. -/
theorem summarize_all (h : s.field name = .ok files) :
    ((∃ summary, s.summarize name = .ok summary) ↔ firstFault? (s.termItems name) = none ∧
      ∀ t ∈ s.terms name, firstFault? (DocIds.read files.docs.bytes t.offset t.freq) = none) ∧
    ∀ summary, s.summarize name = .ok summary →
      summary.Summarizes (s.terms name) (postedIds files.docs.bytes (s.terms name)) ∧
      ((s.terms name).map (·.freq.toInt)).sum = (postedIds files.docs.bytes (s.terms name)).length ∧
      ((postedIds files.docs.bytes (s.terms name)).length < 2 ^ 63 →
        summary.totalFreq.toInt = (postedIds files.docs.bytes (s.terms name)).length) := by
  have exact : (∃ summary, s.summarize name = .ok summary) ↔
      firstFault? (s.termItems name) = none ∧
        ∀ t ∈ s.terms name, firstFault? (DocIds.read files.docs.bytes t.offset t.freq) = none := by
    rw [summarize_eq h, FieldSummary.addTerms_ok, terms]
    simp only [FieldSummary.readable_iff_read]
  refine ⟨exact, fun summary made => ?_⟩
  have lengths := length_postedIds (exact.mp ⟨summary, made⟩).2
  rw [summarize_eq h] at made
  have ascends : (s.terms name).Pairwise (·.id ≤ ·.id) := by
    rw [terms, termItems_eq h]
    exact (Cursor.ascending_toList (Cursor.Reachable.ofFile _).sound).1
  have all : summary.Summarizes (s.terms name) (postedIds files.docs.bytes (s.terms name)) :=
    FieldSummary.summarizes_empty.addTerms made ascends
  refine ⟨all, lengths.symm, fun fits => ?_⟩
  rw [all.totalFreq, ← lengths]
  exact Int64.toInt_ofInt_of_le (by omega) (by omega)

/-- A shard with two terms, of which the second has its posting list inside that of the first. -/
def overlapping : Shard :=
  ⟨"s0", ["x"], [], [⟨"x", .int, .owned [1, 0, 2, 2, 1, 1], .owned [5, 3]⟩], noTable⟩

/-- The summary counts and compares all three ids. -/
theorem summarize_all_overlapping :
    ∃ summary, overlapping.summarize "x" = .ok summary ∧
      summary.Summarizes [⟨.int 1, 0, 2⟩, ⟨.int 3, 1, 1⟩] [5, 8, 3] ∧
      summary.totalFreq.toInt = 3 := by
  have terms : overlapping.terms "x" = [⟨.int 1, 0, 2⟩, ⟨.int 3, 1, 1⟩] := by decide +kernel
  have posted : postedIds [5, 3] [⟨.int 1, 0, 2⟩, ⟨.int 3, 1, 1⟩] = [5, 8, 3] := by decide +kernel
  have field : overlapping.field "x" =
      .ok ⟨"x", .int, .owned [1, 0, 2, 2, 1, 1], .owned [5, 3]⟩ := rfl
  obtain ⟨readable, contents⟩ := summarize_all field
  rw [terms] at readable contents
  obtain ⟨summary, made⟩ := readable.mpr ⟨by decide +kernel, by decide +kernel⟩
  obtain ⟨all, _, total⟩ := contents summary made
  have count := total (by decide +kernel)
  rw [← posted]
  exact ⟨summary, made, all, count.trans (congrArg (fun ids => (ids.length : Int)) posted)⟩

end Shard

end TermStats

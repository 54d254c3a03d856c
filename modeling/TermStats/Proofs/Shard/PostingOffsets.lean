import Mathlib.Data.List.Forall2
import TermStats.Proofs.Field.Pushes
import TermStats.Proofs.Storage.Written

/-!
Posting lists that are written back to back, and the offsets that entries may give for them.
-/

namespace TermStats

open Result

namespace FieldWriter

variable {w w' : FieldWriter}

/-- What no push changes is as it was behind all of them. -/
theorem pushAll_keeps {α β γ : Type} {push : FieldWriter → α → Except WriteFault β × FieldWriter}
    {items : List α} {results : List β} (pushed : w.pushAll push items = .ok (results, w'))
    (part : FieldWriter → γ) (keeps : ∀ w a, part (push w a).2 = part w) : part w' = part w := by
  induction items generalizing w results with
  | nil =>
      cases pushed
      rfl
  | cons a rest ih =>
      obtain ⟨b, w₁, others, h, later, _⟩ := pushAll_cons_iff.mp pushed
      have step := keeps w a
      rw [h] at step
      exact (ih later).trans step

theorem kind_pushDocs (w : FieldWriter) (ids : List Int64) : (w.pushDocs ids).2.kind = w.kind := by
  rcases w.pushDocs_cases ids with ⟨f, h⟩ | ⟨_, _, h⟩ <;> rw [h]

theorem kind_docs_pushIntEntry (w : FieldWriter) (id offset docFreq : Int64) :
    let after := (w.pushIntEntry id offset docFreq).2
    (after.kind, after.docs) = (w.kind, w.docs) := by
  rw [pushIntEntry]
  split <;> rfl

/-- Lists that are pushed one after the other are each listed at their own offset, also when more
comes behind them. -/
theorem listedAt_of_pushAll {postings : List (List Int64)} {offsets : List Int64}
    (pushed : w.pushAll pushDocs postings = .ok (offsets, w')) :
    (∀ ids ∈ postings, IsPostings ids) ∧ w.docs <+: w'.docs ∧
      ∀ docs, w'.docs <+: docs → docs.length < 2 ^ 63 →
        List.Forall₂ (DocIds.ListedAt docs) offsets postings := by
  induction postings generalizing w offsets with
  | nil =>
      cases pushed
      exact ⟨nofun, List.prefix_rfl, fun _ _ _ => .nil⟩
  | cons ids rest ih =>
      obtain ⟨offset, w₁, others, h, later, rfl⟩ := pushAll_cons_iff.mp pushed
      obtain ⟨all, grown, listed⟩ := ih later
      by_cases postings : IsPostings ids
      · rw [w.pushDocs_of_isPostings postings] at h
        cases h
        refine ⟨List.forall_mem_cons.mpr ⟨postings, all⟩, (List.prefix_append _ _).trans grown, ?_⟩
        intro docs further short
        exact .cons (DocIds.listedAt_of_prefix postings (grown.trans further) short)
          (listed docs further short)
      · obtain ⟨f, refused⟩ := w.pushDocs_of_not_isPostings postings
        rw [refused] at h
        cases h

theorem exists_pushAll_pushDocs {postings : List (List Int64)}
    (all : ∀ ids ∈ postings, IsPostings ids) (w : FieldWriter) :
    ∃ offsets w', w.pushAll pushDocs postings = .ok (offsets, w') := by
  induction postings generalizing w with
  | nil => exact ⟨[], w, rfl⟩
  | cons ids rest ih =>
      obtain ⟨postings, all⟩ := List.forall_mem_cons.mp all
      obtain ⟨offsets, w', pushed⟩ := ih all { w with docs := w.docs ++ encodePostings 0 ids }
      exact ⟨_, w', pushAll_cons_iff.mpr
        ⟨_, _, offsets, w.pushDocs_of_isPostings postings, pushed, rfl⟩⟩

theorem read_of_writeTo {files files' : FileTree} {directory : Path} {field : String}
    (written : w.writeTo files directory field = .ok files') :
    files'.read (docFilePath directory field w.kind) = .ok w.docs := by
  simp only [writeTo, bind_eq_ok, mapError_eq_ok] at written
  obtain ⟨_, _, docs⟩ := written
  exact FileTree.read_of_write docs

end FieldWriter

namespace ShardDirectory

open FieldWriter

variable {files files' : FileTree} {directory : Path} {field : String} {entries : List RawEntry}
  {postings : List (List Int64)}

theorem postingOffsets_isOk_iff :
    (postingOffsets postings).isOk = true ↔ ∀ ids ∈ postings, IsPostings ids := by
  refine ⟨fun h => ?_, fun all => ?_⟩
  · obtain ⟨offsets, h⟩ := exists_of_isOk h
    simp only [postingOffsets, bind_eq_ok] at h
    obtain ⟨⟨_, w⟩, pushed, _⟩ := h
    exact (listedAt_of_pushAll pushed).1
  · obtain ⟨offsets, w, pushed⟩ := exists_pushAll_pushDocs all (.ofKind .int)
    rw [postingOffsets, pushed]
    rfl

/-- The doc ids that are written for a field made of entries are those of its posting lists. -/
theorem listedAt_of_addIntEntries
    (written : addIntEntries files directory field entries postings = .ok files') :
    ∃ offsets, ∃ w : FieldWriter, postingOffsets postings = .ok offsets ∧
      w.writeTo files directory field = .ok files' ∧
      files'.read (docFilePath directory field .int) = .ok w.docs ∧
      (w.docs.length < 2 ^ 63 → List.Forall₂ (DocIds.ListedAt w.docs) offsets postings) := by
  simp only [addIntEntries, bind_eq_ok, mapError_eq_ok] at written
  obtain ⟨⟨offsets, w⟩, pushed, ⟨units, w'⟩, entered, written⟩ := written
  have kept := pushAll_keeps entered (fun w => (w.kind, w.docs))
    fun w e => w.kind_docs_pushIntEntry e.id e.offset e.docFreq
  obtain ⟨kind, docs⟩ := Prod.mk.inj kept
  have start := pushAll_keeps pushed FieldWriter.kind kind_pushDocs
  have read := read_of_writeTo written
  rw [kind, start] at read
  have listed := (listedAt_of_pushAll pushed).2.2 w.docs List.prefix_rfl
  refine ⟨offsets, w', ?_, written, read, by rwa [docs]⟩
  rw [postingOffsets, pushed]
  rfl

/-- A writer takes just the ids that ascend from 0 or more, and is left alone by all others. A list
that it takes is found at the offset it was given, whatever is pushed later and however many of its
ids are asked for. So the offsets of lists written back to back are places of theirs in the doc ids
that are handed to the file. -/
theorem posting_lists_read_back (w : FieldWriter) (ids : List Int64) :
    ((w.pushDocs ids).1.isOk = true ↔ IsPostings ids) ∧
    (∀ f w', w.pushDocs ids = (.error f, w') → w' = w) ∧
    (∀ offset w', w.pushDocs ids = (.ok offset, w') → ∀ later,
      (w'.afterPushes later).docs.length < 2 ^ 63 →
        DocIds.ListedAt (w'.afterPushes later).docs offset ids) ∧
    ∀ postings, ((postingOffsets postings).isOk = true ↔ ∀ ids ∈ postings, IsPostings ids) ∧
      ∀ files files' directory field entries,
        addIntEntries files directory field entries postings = .ok files' →
          ∃ offsets, ∃ all : FieldWriter, postingOffsets postings = .ok offsets ∧
            all.writeTo files directory field = .ok files' ∧
            files'.read (docFilePath directory field .int) = .ok all.docs ∧
            (all.docs.length < 2 ^ 63 →
              List.Forall₂ (DocIds.ListedAt all.docs) offsets postings) := by
  refine ⟨?_, ?_, fun _ _ => listedAt_afterPushes, fun _ =>
    ⟨postingOffsets_isOk_iff, fun _ _ _ _ _ => listedAt_of_addIntEntries⟩⟩
  · by_cases postings : IsPostings ids
    · rw [w.pushDocs_of_isPostings postings]
      exact ⟨fun _ => postings, fun _ => rfl⟩
    · obtain ⟨f, refused⟩ := w.pushDocs_of_not_isPostings postings
      rw [refused]
      exact ⟨nofun, fun taken => absurd taken postings⟩
  · intro f w' refused
    rcases w.pushDocs_cases ids with ⟨_, h⟩ | ⟨_, _, h⟩ <;> rw [h] at refused <;> cases refused
    rfl

/-- Lists between other pushes, of which two are refused, and lists that share an offset. -/
theorem posting_lists_read_back_sample :
    let w := (FieldWriter.ofKind .string).afterPushes
      [.call (.docs [7]), .entry ⟨.bytes [97], -1, 0⟩]
    let ids : List Int64 := [0, 5, 9223372036854775807]
    let later : List WriterPush := [.call (.stringTerm [98] [0, 1]), .call (.docs [2, 1]),
      .entry ⟨.int 4, 0, 0⟩, .call (.docs [0])]
    let postings : List (List Int64) := [[0, 5], [], [3]]
    let files : FileTree :=
      ⟨[], [["s"]], [(["s", "fld-x.intdocs"], [0, 5, 3]), (["s", "fld-x.intterms"], [1, 0, 2])]⟩
    (∃ w', w.pushDocs ids = (.ok 1, w') ∧ DocIds.ListedAt (w'.afterPushes later).docs 1 ids) ∧
      addIntEntries (FileTree.empty.addDirectory "s") "s" "x" [⟨1, 0, 2⟩] postings = .ok files ∧
      List.Forall₂ (DocIds.ListedAt [0, 5, 3]) [0, 2, 2] postings := by
  intro w ids later postings files
  obtain ⟨_, _, listed, back⟩ := posting_lists_read_back w ids
  have first : (w.pushDocs ids).1 = .ok 1 := ok_of_toOption (by decide +kernel)
  have taken : w.pushDocs ids = (.ok 1, (w.pushDocs ids).2) := Prod.ext first rfl
  have made : addIntEntries (FileTree.empty.addDirectory "s") "s" "x" [⟨1, 0, 2⟩] postings =
      .ok files := ok_of_toOption (by decide +kernel)
  obtain ⟨offsets, all, hoffsets, -, hdocs, hlisted⟩ := (back postings).2 _ _ _ _ _ made
  have places : postingOffsets postings = .ok [0, 2, 2] := ok_of_toOption (by decide +kernel)
  have contents : files.read (docFilePath "s" "x" .int) = .ok [0, 5, 3] :=
    ok_of_toOption (by decide +kernel)
  cases hoffsets.symm.trans places
  have docs : all.docs = [0, 5, 3] := Except.ok.inj (hdocs.symm.trans contents)
  rw [docs] at hlisted
  exact ⟨⟨_, taken, listed 1 _ taken later (by decide +kernel)⟩, made, hlisted (by decide)⟩

end ShardDirectory
end TermStats

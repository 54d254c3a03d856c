import TermStats.Proofs.Field.Calls
import TermStats.Proofs.Field.PostingList
import TermStats.Proofs.Field.RawEntries

/-!
Posting lists in a doc-id file that grows. What is pushed later comes behind them, so each is read
from where it starts, up to as many of its ids as are asked for.
-/

namespace TermStats

namespace DocIds

/-- At the offset there is a list that starts with the ids: as many of them as are asked for are
read, and nothing more. -/
def ListedAt (docs : Bytes) (offset : Int64) (ids : List Int64) : Prop :=
  ∀ freq : Int32, 0 ≤ freq → freq.toInt ≤ ids.length → ∃ d, locate docs offset freq = .ok d ∧
    ∀ i, (d.after i).next.1 = ((ids.take freq.toInt.toNat).map .ok)[i]?

theorem listedAt_of_prefix {before docs : Bytes} {ids : List Int64} (postings : IsPostings ids)
    (grown : before ++ encodePostings 0 ids <+: docs) (short : docs.length < 2 ^ 63) :
    ListedAt docs (Int64.ofNat before.length) ids := by
  intro freq count few
  obtain ⟨later, rfl⟩ := grown
  have short : before.length < 2 ^ 63 := by
    rw [List.length_append, List.length_append] at short
    omega
  have few : freq.toInt.toNat ≤ ids.length := by omega
  rw [List.append_assoc]
  refine ⟨_, locate_append short _ count, fun i => ?_⟩
  rw [next_after, items_of_count_le postings few]

end DocIds

/-- Anything that can be pushed to a writer. -/
inductive WriterPush where
  | call (c : WriterCall)
  | entry (e : PushedEntry)
  deriving Repr, DecidableEq

namespace FieldWriter

def push (w : FieldWriter) : WriterPush → Except WriteFault Unit × FieldWriter
  | .call c => w.call c
  | .entry e => w.pushEntry e

/-- The writer after some pushes, accepted or not. -/
def afterPushes (w : FieldWriter) : List WriterPush → FieldWriter
  | [] => w
  | p :: rest => (w.push p).2.afterPushes rest

variable {w : FieldWriter} {ids : List Int64}

theorem pushDocs_of_isPostings (w : FieldWriter) (postings : IsPostings ids) :
    w.pushDocs ids =
      (.ok (Int64.ofNat w.docs.length), { w with docs := w.docs ++ encodePostings 0 ids }) := by
  have sorted : ascending ids = true := (ascending_iff Int64.lt_trans).mpr postings.ascends
  have nonneg : ids.head?.any (· < 0) = false := by
    rw [Option.any_eq_false]
    intro first hfirst
    simpa using (isPostings_iff_head.mp postings).2 first hfirst
  rw [pushDocs, sorted, nonneg]
  rfl

theorem pushDocs_of_not_isPostings (w : FieldWriter) (postings : ¬ IsPostings ids) :
    ∃ f, w.pushDocs ids = (.error f, w) := by
  rcases w.pushDocs_cases ids with refused | ⟨ascends, nonneg, _⟩
  · exact refused
  · exact absurd (isPostings_iff_head.mpr ⟨ascends, nonneg⟩) postings

theorem docs_pushEntry (w : FieldWriter) (e : PushedEntry) : (w.pushEntry e).2.docs = w.docs := by
  obtain ⟨id, offset, docFreq⟩ := e
  cases id <;> simp only [pushEntry, pushIntEntry, pushStringEntry] <;> split <;> rfl

theorem docs_prefix_push (w : FieldWriter) (p : WriterPush) : w.docs <+: (w.push p).2.docs := by
  cases p with
  | call c => exact (w.extends_afterCalls [c]).2
  | entry e =>
      have same : (w.push (.entry e)).2.docs = w.docs := w.docs_pushEntry e
      exact same.symm ▸ List.prefix_rfl

theorem docs_prefix_afterPushes (w : FieldWriter) (pushes : List WriterPush) :
    w.docs <+: (w.afterPushes pushes).docs := by
  induction pushes generalizing w with
  | nil => exact List.prefix_rfl
  | cons p rest ih => exact (w.docs_prefix_push p).trans (ih (w.push p).2)

/-- A posting list that was taken is listed where it was put, whatever is pushed later. -/
theorem listedAt_afterPushes {offset : Int64} {w' : FieldWriter}
    (taken : w.pushDocs ids = (.ok offset, w')) (later : List WriterPush)
    (short : (w'.afterPushes later).docs.length < 2 ^ 63) :
    DocIds.ListedAt (w'.afterPushes later).docs offset ids := by
  by_cases postings : IsPostings ids
  · rw [w.pushDocs_of_isPostings postings] at taken
    cases taken
    have grown := docs_prefix_afterPushes { w with docs := w.docs ++ encodePostings 0 ids } later
    exact DocIds.listedAt_of_prefix postings grown short
  · obtain ⟨f, refused⟩ := w.pushDocs_of_not_isPostings postings
    rw [refused] at taken
    cases taken

end FieldWriter
end TermStats

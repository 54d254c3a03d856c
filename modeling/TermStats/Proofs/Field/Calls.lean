import TermStats.Proofs.Field.Delta
import TermStats.Proofs.Order

/-!
Sequences of calls on a writer. A call either adds a term with its posting list or leaves all but
the doc-id file as it was; what is already in the two files never changes.
-/

namespace TermStats

inductive WriterCall where
  | docs (ids : List Int64)
  | intTerm (id : Int64) (ids : List Int64)
  | stringTerm (term : Bytes) (ids : List Int64)
  deriving Repr, DecidableEq

namespace WriterCall

def postings : WriterCall → List Int64
  | docs ids => ids
  | intTerm _ ids => ids
  | stringTerm _ ids => ids

/-- The term, with its posting list, that the call is to add to a field of a kind. -/
def term? (kind : TermKind) : WriterCall → Option (TermId × List Int64)
  | docs _ => none
  | intTerm id ids => if kind = .int then some (.int id, ids) else none
  | stringTerm term ids => if kind = .string then some (.bytes term, ids) else none

end WriterCall

namespace FieldWriter

def call (w : FieldWriter) : WriterCall → Except WriteFault Unit × FieldWriter
  | .docs ids => ((w.pushDocs ids).1.map fun _ => (), (w.pushDocs ids).2)
  | .intTerm id ids => w.pushIntTerm id ids
  | .stringTerm term ids => w.pushStringTerm term ids

/-- The writer after some calls, accepted or not. -/
def afterCalls (w : FieldWriter) : List WriterCall → FieldWriter
  | [] => w
  | c :: rest => (w.call c).2.afterCalls rest

/-- The terms of the calls that are accepted. -/
def written (w : FieldWriter) : List WriterCall → List (TermId × List Int64)
  | [] => []
  | c :: rest =>
      match w.call c with
      | (.ok _, w') => (c.term? w.kind).toList ++ w'.written rest
      | (.error _, w') => w'.written rest

/-- The id of the last term. -/
def lastId? (w : FieldWriter) : Option TermId :=
  if w.count = 0 then none
  else
    match w.kind with
    | .int => some (.int w.prevId)
    | .string => some (.bytes w.prevTerm)

/-- What an entry starts with: the id, against the one before it. -/
def key (w : FieldWriter) : TermId → Bytes
  | .int id => Varint.encodeInt (id - w.prevId)
  | .bytes term =>
      Varint.encodeNat (w.prevTerm.length - commonLength w.prevTerm term) ++
        (Varint.encodeNat (term.length - commonLength w.prevTerm term) ++
          term.drop (commonLength w.prevTerm term))

/-- The entry of a term whose posting list comes at the end of the doc-id file. -/
def entry (w : FieldWriter) (id : TermId) (ids : List Int64) : Bytes :=
  w.key id ++ (Varint.encodeInt (Int64.ofNat w.docs.length - w.prevOffset) ++
    Varint.encodeInt (Int64.ofNat ids.length))

/-- The writer with one more term. -/
def addTerm (w : FieldWriter) (id : TermId) (ids : List Int64) : FieldWriter :=
  { w with
    terms := w.terms ++ w.entry id ids
    docs := w.docs ++ encodePostings 0 ids
    prevId := id.int?.getD w.prevId
    prevTerm := id.bytes?.getD w.prevTerm
    prevOffset := Int64.ofNat w.docs.length
    count := w.count + 1 }

/-- A term that the writer takes. -/
structure Accepts (w : FieldWriter) (id : TermId) (ids : List Int64) : Prop where
  kind : id.kind = w.kind
  some_docs : ids ≠ []
  ascends : ids.Pairwise (· < ·)
  nonneg : ∀ first ∈ ids.head?, 0 ≤ first
  above : ∀ last ∈ w.lastId?, last < id

theorem lastId?_of_started {w : FieldWriter} (h : w.count ≠ 0) :
    w.lastId? = some (match w.kind with
      | .int => .int w.prevId
      | .string => .bytes w.prevTerm) := by
  rw [lastId?, if_neg h]
  cases w.kind <;> rfl

theorem Accepts.prevId_lt {w : FieldWriter} {v : Int64} {ids : List Int64}
    (accepts : w.Accepts (.int v) ids) (started : w.count ≠ 0) : w.prevId < v := by
  have kind : w.kind = .int := accepts.kind.symm
  have last := lastId?_of_started started
  rw [kind] at last
  exact TermId.int_lt_int.mp (accepts.above _ last)

theorem Accepts.prevTerm_lt {w : FieldWriter} {term : Bytes} {ids : List Int64}
    (accepts : w.Accepts (.bytes term) ids) (started : w.count ≠ 0) : w.prevTerm < term := by
  have kind : w.kind = .string := accepts.kind.symm
  have last := lastId?_of_started started
  rw [kind] at last
  exact TermId.bytes_lt_bytes.mp (accepts.above _ last)

theorem Accepts.lastId?_addTerm {w : FieldWriter} {id : TermId} {ids : List Int64}
    (accepts : w.Accepts id ids) : (w.addTerm id ids).lastId? = some id := by
  have kind : (w.addTerm id ids).kind = id.kind := accepts.kind.symm
  rw [lastId?_of_started (Nat.succ_ne_zero w.count), kind]
  cases id <;> rfl

theorem pushDocs_cases (w : FieldWriter) (ids : List Int64) :
    (∃ f, w.pushDocs ids = (.error f, w)) ∨
      ids.Pairwise (· < ·) ∧ (∀ first ∈ ids.head?, 0 ≤ first) ∧ w.pushDocs ids =
        (.ok (Int64.ofNat w.docs.length), { w with docs := w.docs ++ encodePostings 0 ids }) := by
  simp only [pushDocs]
  split
  · exact .inl ⟨_, rfl⟩
  · rename_i hsorted
    split
    · exact .inl ⟨_, rfl⟩
    · rename_i hfirst
      refine .inr ⟨(ascending_iff Int64.lt_trans).mp (by simpa using hsorted), ?_, rfl⟩
      intro first hf
      rw [Option.mem_def.mp hf] at hfirst
      simpa using hfirst

/-- Terms of both kinds are taken alike: after the checks comes the posting list, then the entry. -/
theorem pushTerm_cases (w : FieldWriter) (ids : List Int64) (blocked : Prop) [Decidable blocked]
    (fault : WriteFault) (entry : Int64 → FieldWriter → Except WriteFault Unit × FieldWriter) :
    let result := if ids.isEmpty then (.error .emptyPostings, w)
      else if blocked then (.error fault, w)
      else
        match w.pushDocs ids with
        | (.error f, w) => (.error f, w)
        | (.ok offset, w) => entry offset w
    (∃ f, result = (.error f, w)) ∨
      ids ≠ [] ∧ ¬ blocked ∧ ids.Pairwise (· < ·) ∧ (∀ first ∈ ids.head?, 0 ≤ first) ∧
        result = entry (Int64.ofNat w.docs.length)
          { w with docs := w.docs ++ encodePostings 0 ids } := by
  intro result
  by_cases hempty : ids.isEmpty = true
  · exact .inl ⟨_, if_pos hempty⟩
  · by_cases hblocked : blocked
    · exact .inl ⟨_, (if_neg hempty).trans (if_pos hblocked)⟩
    · have goes : result = match w.pushDocs ids with
          | (.error f, w) => (.error f, w)
          | (.ok offset, w) => entry offset w := (if_neg hempty).trans (if_neg hblocked)
      rcases w.pushDocs_cases ids with ⟨f, h⟩ | ⟨ascends, nonneg, h⟩
      · exact .inl ⟨f, by rw [goes, h]⟩
      · exact .inr ⟨by simpa using hempty, hblocked, ascends, nonneg, by rw [goes, h]⟩

theorem pushIntTerm_cases (w : FieldWriter) (id : Int64) (ids : List Int64) :
    (∃ f more, w.pushIntTerm id ids = (.error f, { w with docs := w.docs ++ more })) ∨
      w.Accepts (.int id) ids ∧ w.pushIntTerm id ids = (.ok (), w.addTerm (.int id) ids) := by
  rcases w.pushTerm_cases ids (0 < w.count ∧ id ≤ w.prevId) (.idOrder id w.prevId)
      (fun offset w => w.pushIntEntry id offset (Int64.ofNat ids.length)) with
    ⟨f, h⟩ | ⟨some_docs, inOrder, ascends, nonneg, h⟩
  · exact .inl ⟨f, [], by rw [List.append_nil]; exact h⟩
  · have h : w.pushIntTerm id ids = _ := h
    by_cases kind : w.kind = .int
    · refine .inr ⟨⟨kind.symm, some_docs, ascends, nonneg, fun last hlast => ?_⟩, ?_⟩
      · by_cases started : w.count = 0
        · simp [lastId?, started] at hlast
        · rw [lastId?_of_started started, kind] at hlast
          cases hlast
          have above : ¬ id ≤ w.prevId := fun le => inOrder ⟨Nat.pos_of_ne_zero started, le⟩
          exact TermId.int_lt_int.mpr (Std.not_le.mp above)
      · simp [h, pushIntEntry, kind, addTerm, FieldWriter.entry, key, TermId.int?, TermId.bytes?]
    · rw [pushIntEntry, if_neg kind] at h
      exact .inl ⟨_, _, h⟩

theorem pushStringTerm_cases (w : FieldWriter) (term : Bytes) (ids : List Int64) :
    (∃ f more, w.pushStringTerm term ids = (.error f, { w with docs := w.docs ++ more })) ∨
      w.Accepts (.bytes term) ids ∧
        w.pushStringTerm term ids = (.ok (), w.addTerm (.bytes term) ids) := by
  rcases w.pushTerm_cases ids (0 < w.count ∧ term ≤ w.prevTerm) (.termOrder term w.prevTerm)
      (fun offset w => w.pushStringEntry term offset (Int64.ofNat ids.length)) with
    ⟨f, h⟩ | ⟨some_docs, inOrder, ascends, nonneg, h⟩
  · exact .inl ⟨f, [], by rw [List.append_nil]; exact h⟩
  · have h : w.pushStringTerm term ids = _ := h
    by_cases kind : w.kind = .string
    · refine .inr ⟨⟨kind.symm, some_docs, ascends, nonneg, fun last hlast => ?_⟩, ?_⟩
      · by_cases started : w.count = 0
        · simp [lastId?, started] at hlast
        · rw [lastId?_of_started started, kind] at hlast
          cases hlast
          have above : ¬ term ≤ w.prevTerm := fun le => inOrder ⟨Nat.pos_of_ne_zero started, le⟩
          exact TermId.bytes_lt_bytes.mpr (Std.not_le.mp above)
      · simp [h, pushStringEntry, kind, addTerm, FieldWriter.entry, key, TermId.int?, TermId.bytes?]
    · rw [pushStringEntry, if_neg kind] at h
      exact .inl ⟨_, _, h⟩

/-- What a call can do: it leaves the terms alone, or it adds one. -/
theorem call_cases (w : FieldWriter) (c : WriterCall) :
    (∃ x more, w.call c = (x, { w with docs := w.docs ++ more }) ∧
        (x.isOk = true → c.term? w.kind = none)) ∨
      ∃ id, c.term? w.kind = some (id, c.postings) ∧ w.Accepts id c.postings ∧
        w.call c = (.ok (), w.addTerm id c.postings) := by
  cases c with
  | docs ids =>
      rcases w.pushDocs_cases ids with ⟨f, h⟩ | ⟨_, _, h⟩
      · exact .inl ⟨.error f, [], by rw [call, h, List.append_nil]; rfl, nofun⟩
      · exact .inl ⟨.ok (), _, by rw [call, h]; rfl, fun _ => rfl⟩
  | intTerm id ids =>
      rcases w.pushIntTerm_cases id ids with ⟨f, more, h⟩ | ⟨accepts, h⟩
      · exact .inl ⟨.error f, more, h, nofun⟩
      · exact .inr ⟨.int id, if_pos accepts.kind.symm, accepts, h⟩
  | stringTerm term ids =>
      rcases w.pushStringTerm_cases term ids with ⟨f, more, h⟩ | ⟨accepts, h⟩
      · exact .inl ⟨.error f, more, h, nofun⟩
      · exact .inr ⟨.bytes term, if_pos accepts.kind.symm, accepts, h⟩

/-- The first of some calls: the terms written are those of the other calls, after its own if it
adds one. -/
theorem cons_cases (w : FieldWriter) (c : WriterCall) (rest : List WriterCall) :
    (∃ more, w.afterCalls (c :: rest) = afterCalls { w with docs := w.docs ++ more } rest ∧
        w.written (c :: rest) = written { w with docs := w.docs ++ more } rest) ∨
      ∃ id ids, w.Accepts id ids ∧
        w.afterCalls (c :: rest) = (w.addTerm id ids).afterCalls rest ∧
        w.written (c :: rest) = (id, ids) :: (w.addTerm id ids).written rest := by
  rcases w.call_cases c with ⟨x, more, h, hterm⟩ | ⟨id, hterm, accepts, h⟩
  · refine .inl ⟨more, by rw [afterCalls, h], ?_⟩
    rw [written, h]
    cases x with
    | error f => rfl
    | ok _ =>
        rw [hterm rfl]
        rfl
  · refine .inr ⟨id, c.postings, accepts, by rw [afterCalls, h], ?_⟩
    rw [written, h, hterm]
    rfl

/-- What has been written stays. -/
theorem extends_afterCalls (w : FieldWriter) (calls : List WriterCall) :
    w.terms <+: (w.afterCalls calls).terms ∧ w.docs <+: (w.afterCalls calls).docs := by
  induction calls generalizing w with
  | nil => exact ⟨List.prefix_rfl, List.prefix_rfl⟩
  | cons c rest ih =>
      rcases w.cons_cases c rest with ⟨more, h, _⟩ | ⟨id, ids, _, h, _⟩
      · obtain ⟨terms, docs⟩ := ih { w with docs := w.docs ++ more }
        rw [h]
        exact ⟨terms, (List.prefix_append w.docs more).trans docs⟩
      · obtain ⟨terms, docs⟩ := ih (w.addTerm id ids)
        rw [h]
        exact ⟨(List.prefix_append w.terms _).trans terms,
          (List.prefix_append w.docs _).trans docs⟩

theorem kind_afterCalls (w : FieldWriter) (calls : List WriterCall) :
    (w.afterCalls calls).kind = w.kind := by
  induction calls generalizing w with
  | nil => rfl
  | cons c rest ih =>
      rcases w.cons_cases c rest with ⟨more, h, _⟩ | ⟨id, ids, _, h, _⟩
      · rw [h, ih]
      · rw [h, ih]
        rfl

theorem kind_of_written {w : FieldWriter} {calls : List WriterCall} {e : TermId × List Int64}
    (h : e ∈ w.written calls) : e.1.kind = w.kind := by
  induction calls generalizing w with
  | nil => cases h
  | cons c rest ih =>
      rcases w.cons_cases c rest with ⟨more, _, hwritten⟩ | ⟨id, ids, accepts, _, hwritten⟩
      · rw [hwritten] at h
        exact @ih { w with docs := w.docs ++ more } h
      · rw [hwritten] at h
        rcases List.mem_cons.mp h with rfl | h
        · exact accepts.kind
        · exact @ih (w.addTerm id ids) h

end FieldWriter
end TermStats

import TermStats.Proofs.Field.Calls
import TermStats.Proofs.Field.RawEntries
import TermStats.Proofs.Term.CursorOrder
import TermStats.Shard.Basic

/-!
Reading the files that a writer made. A cursor that stands where the writer stood, and keeps what
the writer kept of the last term, reads the next term as it was written, and its posting list from
the doc-id file. There is one exception: the writer takes an int id that is 2^63 or more above the
one before it, and the cursor refuses the difference, which is negative as a signed word.
-/

namespace TermStats

namespace TermDecoder

theorem next_end (kind : TermKind) (data term : Bytes) :
    next ⟨kind, data, data.length, term⟩ = (.ok none, ⟨kind, data, data.length, term⟩) := by
  have h := Reader.atOffset_append data []
  rw [List.append_nil] at h
  simp only [next, h, Reader.isEmpty, List.isEmpty_nil, if_true]

end TermDecoder

namespace FieldWriter

/-- What the entry of a term holds. -/
def deltas (w : FieldWriter) (id : TermId) (ids : List Int64) : EntryDeltas where
  idDelta :=
    match id with
    | .int v => v - w.prevId
    | .bytes _ => 0
  offsetDelta := Int64.ofNat w.docs.length - w.prevOffset
  docFreq := Int64.ofNat ids.length

/-- The term as it is to be read. -/
def term (w : FieldWriter) (id : TermId) (ids : List Int64) : Term :=
  ⟨id, Int64.ofNat w.docs.length, (Int64.ofNat ids.length).toInt32⟩

/-- What a writer keeps for the next entry: a place in the doc-id file, and a term of a length that
can be stored. -/
structure Placed (w : FieldWriter) : Prop where
  nonneg : 0 ≤ w.prevOffset.toInt
  le_length : w.prevOffset.toInt ≤ w.docs.length
  short : w.prevTerm.length < 2 ^ 64

theorem placed_ofKind (kind : TermKind) : (ofKind kind).Placed :=
  ⟨Int.le_refl 0, Int.le_refl 0, Nat.two_pow_pos 64⟩

theorem Placed.withDocs {w : FieldWriter} (placed : w.Placed) (more : Bytes) :
    Placed { w with docs := w.docs ++ more } where
  nonneg := placed.nonneg
  le_length := by
    have := placed.le_length
    simp only [List.length_append]
    omega
  short := placed.short

theorem Placed.addTerm {w : FieldWriter} (placed : w.Placed) (short : w.docs.length < 2 ^ 63)
    {id : TermId} (storable : ∀ term ∈ id.bytes?, term.length < 2 ^ 64) (ids : List Int64) :
    (w.addTerm id ids).Placed where
  nonneg := by
    rw [FieldWriter.addTerm, Int64.toInt_ofNat_of_lt short]
    exact Int.natCast_nonneg _
  le_length := by
    rw [FieldWriter.addTerm, Int64.toInt_ofNat_of_lt short, List.length_append]
    omega
  short := by
    cases id with
    | int _ => exact placed.short
    | bytes term => exact storable term rfl

theorem Placed.toInt_offsetDelta {w : FieldWriter} (placed : w.Placed)
    (short : w.docs.length < 2 ^ 63) (id : TermId) (ids : List Int64) :
    (w.deltas id ids).offsetDelta.toInt = w.docs.length - w.prevOffset.toInt := by
  have := placed.nonneg
  have := placed.le_length
  have start := Int64.toInt_ofNat_of_lt short
  rw [← start]
  exact toInt_sub_of_lt (Int64.le_iff_toInt_le.mpr (by omega)) (by omega)

theorem Accepts.docFreq_inRange {w : FieldWriter} {id : TermId} {ids : List Int64}
    (accepts : w.Accepts id ids) (few : ids.length ≤ 2147483647) :
    ¬ ((w.deltas id ids).docFreq < Cursor.leastFreq ∨
      Cursor.greatestFreq < (w.deltas id ids).docFreq) := by
  have some_docs := List.length_pos_iff.mpr accepts.some_docs
  have freq := Int64.toInt_ofNat_of_lt (show ids.length < 2 ^ 63 by omega)
  have least : Cursor.leastFreq.toInt = 1 := rfl
  have greatest : Cursor.greatestFreq.toInt = 2147483647 := rfl
  simp only [deltas, Int64.lt_iff_toInt_lt, freq, least, greatest]
  omega

/-- The entry of a term is what is written for one with its offset and doc freq. -/
theorem entry_eq {w : FieldWriter} {id : TermId} (kind : id.kind = w.kind) (ids : List Int64) :
    w.entry id ids =
      w.entryBytes ⟨id, Int64.ofNat w.docs.length, Int64.ofNat ids.length⟩ := by
  rw [entryBytes, ← kind]
  cases id with
  | int v => rfl
  | bytes term => simp only [entry, key, List.append_assoc]; rfl

/-- A decoder behind the last entry reads the one that is added. -/
theorem next_addTerm {w : FieldWriter} {id : TermId} (kind : id.kind = w.kind)
    (short : w.prevTerm.length < 2 ^ 64) (storable : ∀ term ∈ id.bytes?, term.length < 2 ^ 64)
    (ids : List Int64) (rest : Bytes) :
    TermDecoder.next ⟨w.kind, (w.addTerm id ids).terms ++ rest, w.terms.length, w.prevTerm⟩ =
      (.ok (some (w.deltas id ids)), ⟨w.kind, (w.addTerm id ids).terms ++ rest,
        (w.addTerm id ids).terms.length, (w.addTerm id ids).prevTerm⟩) := by
  have entry := isEntry_entryBytes (e := ⟨id, Int64.ofNat w.docs.length, Int64.ofNat ids.length⟩)
    kind short storable
  rw [← entry_eq kind ids] at entry
  rw [addTerm, List.append_assoc, List.length_append]
  have within : w.terms.length ≤ (w.terms ++ (w.entry id ids ++ rest)).length :=
    (List.prefix_append w.terms _).length_le
  exact (TermDecoder.next_eq_some_iff within).mpr
    ⟨w.entry id ids, rest, _, List.drop_left, entry, rfl⟩

end FieldWriter

/-- The difference of the ids does not fit: as a signed word it is negative, though the second id is
above the first. -/
def TermId.leaps : TermId → TermId → Bool
  | .int a, .int b => 2 ^ 63 ≤ b.toInt - a.toInt
  | _, _ => false

theorem TermId.leaps_bytes (last : TermId) (term : Bytes) : last.leaps (.bytes term) = false := by
  cases last <;> rfl

namespace Cursor

/-- The cursor stands where the writer stood, and keeps what the writer kept of the last term. -/
structure Tracks (c : Cursor) (file : TermFile) (w : FieldWriter) : Prop where
  file_eq : c.file = some file
  active : c.exhausted = false
  kind : file.kind = w.kind
  pos : c.pos = w.terms.length
  bytes : c.bytes = w.prevTerm
  started : c.started = decide (0 < w.count)
  offset : c.current.offset = w.prevOffset
  int : w.kind = .int → c.current.id.int?.getD 0 = w.prevId
  string : w.kind = .string → c.current.id.bytes?.getD [] = w.prevTerm

variable {c : Cursor} {file : TermFile} {w : FieldWriter} {id : TermId} {ids : List Int64}

theorem tracks_ofFile {kind : TermKind} (h : file.kind = kind) :
    (ofFile file).Tracks file (.ofKind kind) where
  file_eq := rfl
  active := rfl
  kind := h
  pos := rfl
  bytes := rfl
  started := rfl
  offset := rfl
  int _ := rfl
  string _ := rfl

/-- The cursor when the entry of a term has been decoded. -/
def behind (c : Cursor) (w : FieldWriter) : Cursor :=
  { c with pos := w.terms.length, bytes := w.prevTerm }

/-- The id of an added term is the one that its entry leads to. -/
theorem Tracks.nextId_deltas (tracks : c.Tracks file w) (accepts : w.Accepts id ids) :
    (c.behind (w.addTerm id ids)).nextId file.kind (w.deltas id ids) =
      if w.lastId?.any (·.leaps id) then
        .error (.negativeId (w.deltas id ids).idDelta c.current)
      else .ok id := by
  have started : (c.behind (w.addTerm id ids)).started = decide (0 < w.count) := tracks.started
  have current : (c.behind (w.addTerm id ids)).current = c.current := rfl
  rw [tracks.kind]
  cases id with
  | int v =>
      have kind : w.kind = .int := accepts.kind.symm
      simp only [nextId, started, current, kind, tracks.int kind, FieldWriter.deltas]
      by_cases hcount : w.count = 0
      · have sum : w.prevId + (v - w.prevId) = v := by
          rw [Int64.add_comm, Int64.sub_add_cancel]
        simp [FieldWriter.lastId?, hcount, sum]
      · have lt := accepts.prevId_lt hcount
        simp only [FieldWriter.lastId?_of_started hcount, kind, Nat.pos_of_ne_zero hcount,
          decide_true, Bool.not_true, Bool.false_eq_true, if_false, Option.any_some, TermId.leaps,
          decide_eq_true_eq]
        by_cases far : 2 ^ 63 ≤ v.toInt - w.prevId.toInt
        · rw [if_pos far, if_pos (sub_neg_of_le far)]
        · have delta := toInt_sub_of_lt (Std.le_of_lt lt) (Int.not_le.mp far)
          have sum : addExact? w.prevId (v - w.prevId) = some v := addExact?_of_toInt (by omega)
          have nonneg : ¬ v - w.prevId < 0 := by
            have := Int64.lt_iff_toInt_lt.mp lt
            have zero : (0 : Int64).toInt = 0 := rfl
            rw [Int64.lt_iff_toInt_lt]
            omega
          rw [if_neg far, if_neg nonneg, sum]
  | bytes term =>
      have kind : w.kind = .string := accepts.kind.symm
      have bytes : (c.behind (w.addTerm (.bytes term) ids)).bytes = term := rfl
      have ascends : ¬ (decide (0 < w.count) = true ∧ term < w.prevTerm) := by
        rintro ⟨hcount, lt⟩
        have above := accepts.prevTerm_lt (Nat.ne_of_gt (of_decide_eq_true hcount))
        exact Std.lt_irrefl (Std.lt_trans lt above)
      simp only [nextId, started, current, bytes, kind, tracks.string kind, if_neg ascends,
        TermId.leaps_bytes, Option.any_false, Bool.false_eq_true, if_false]

theorem Tracks.ne_current (tracks : c.Tracks file w) (accepts : w.Accepts id ids)
    (started : c.started = true) : id ≠ c.current.id := by
  rw [tracks.started, decide_eq_true_eq] at started
  rintro rfl
  cases hid : c.current.id with
  | int v =>
      rw [hid] at accepts
      have last := tracks.int accepts.kind.symm
      rw [hid] at last
      exact Std.lt_irrefl (last ▸ accepts.prevId_lt (Nat.ne_of_gt started))
  | bytes term =>
      rw [hid] at accepts
      have last := tracks.string accepts.kind.symm
      rw [hid] at last
      exact Std.lt_irrefl (last ▸ accepts.prevTerm_lt (Nat.ne_of_gt started))

theorem Tracks.accumulate_deltas (tracks : c.Tracks file w) (accepts : w.Accepts id ids)
    (placed : w.Placed) (short : w.docs.length < 2 ^ 63) (few : ids.length ≤ 2147483647) :
    (c.behind (w.addTerm id ids)).accumulate file.kind (w.deltas id ids) =
      if w.lastId?.any (·.leaps id) then
        .error (.negativeId (w.deltas id ids).idDelta c.current)
      else .ok (w.term id ids) := by
  have offset := placed.toInt_offsetDelta short id ids
  have reached := placed.le_length
  have forward : ¬ (w.deltas id ids).offsetDelta < 0 := by
    have zero : (0 : Int64).toInt = 0 := rfl
    rw [Int64.lt_iff_toInt_lt]
    omega
  have sum : addExact? (c.behind (w.addTerm id ids)).current.offset (w.deltas id ids).offsetDelta =
      some (Int64.ofNat w.docs.length) := by
    have last : (c.behind (w.addTerm id ids)).current.offset = w.prevOffset := tracks.offset
    refine addExact?_of_toInt ?_
    rw [last, Int64.toInt_ofNat_of_lt short]
    omega
  have new : ¬ ((c.behind (w.addTerm id ids)).started = true ∧
      id = (c.behind (w.addTerm id ids)).current.id ∧ (w.deltas id ids).offsetDelta = 0) :=
    fun ⟨started, same, _⟩ => tracks.ne_current accepts started same
  unfold accumulate
  rw [if_neg (accepts.docFreq_inRange few), if_neg forward, sum, tracks.nextId_deltas accepts]
  by_cases far : w.lastId?.any (·.leaps id) = true
  · simp only [if_pos far]
  · simp only [if_neg far, if_neg new]
    rfl

/-- The cursor behind a term that was added. -/
def past (c : Cursor) (w : FieldWriter) (id : TermId) (ids : List Int64) : Cursor :=
  { c.behind (w.addTerm id ids) with current := w.term id ids, started := true }

/-- The next step reads the term that was added, unless its id leaps. -/
theorem Tracks.next_eq (tracks : c.Tracks file w) (accepts : w.Accepts id ids) (placed : w.Placed)
    (short : w.docs.length < 2 ^ 63) (few : ids.length ≤ 2147483647)
    (storable : ∀ term ∈ id.bytes?, term.length < 2 ^ 64)
    (stored : (w.addTerm id ids).terms <+: file.data) :
    c.next =
      if w.lastId?.any (·.leaps id) then
        (some (.error (.invalidFormat (fieldElement file.directory file.field)
          (TermFault.negativeId (w.deltas id ids).idDelta c.current).message)),
          (c.behind (w.addTerm id ids)).finish)
      else (some (.ok (w.term id ids)), c.past w id ids) := by
  obtain ⟨rest, hrest⟩ := stored
  have decoded := FieldWriter.next_addTerm accepts.kind placed.short storable ids rest
  have accumulated := tracks.accumulate_deltas accepts placed short few
  rw [hrest] at decoded
  simp only [behind, tracks.active, tracks.file_eq, tracks.kind] at accumulated
  simp only [next, past, behind, tracks.active, tracks.file_eq, tracks.kind, tracks.pos,
    tracks.bytes, decoded, accumulated]
  by_cases far : w.lastId?.any (·.leaps id) = true
  · simp only [if_pos far]
  · simp only [if_neg far]

theorem Tracks.past (tracks : c.Tracks file w) (kind : id.kind = w.kind) :
    (c.past w id ids).Tracks file (w.addTerm id ids) where
  file_eq := tracks.file_eq
  active := tracks.active
  kind := tracks.kind
  pos := rfl
  bytes := rfl
  started := (decide_eq_true (Nat.succ_pos w.count)).symm
  offset := rfl
  int h := by
    have kind := kind.trans h
    cases id with
    | int _ => rfl
    | bytes _ => cases kind
  string h := by
    have kind := kind.trans h
    cases id with
    | int _ => cases kind
    | bytes _ => rfl

end Cursor

/-- The entries before the first whose id leaps from the one before it. -/
def withinReach : Option TermId → List (TermId × List Int64) → List (TermId × List Int64)
  | _, [] => []
  | last, e :: rest => if last.any (·.leaps e.1) then [] else e :: withinReach (some e.1) rest

theorem withinReach_of_bytes {last : Option TermId} {entries : List (TermId × List Int64)}
    (strings : ∀ e ∈ entries, e.1.kind = .string) : withinReach last entries = entries := by
  induction entries generalizing last with
  | nil => rfl
  | cons e rest ih =>
      obtain ⟨string, strings⟩ := List.forall_mem_cons.mp strings
      have near : last.any (·.leaps e.1) = false := by
        rw [TermId.bytes?_getD string]
        simp only [TermId.leaps_bytes, Option.any_false]
      rw [withinReach, near, ih strings]
      rfl

/-- A term with what is found at the place of its posting list. -/
def Term.read (docs : Bytes) (t : Term) : TermId × List (Except PostingFault Int64) :=
  (t.id, DocIds.read docs t.offset t.freq)

theorem FieldWriter.Accepts.read_term {w : FieldWriter} {id : TermId} {ids : List Int64}
    (accepts : w.Accepts id ids) (short : w.docs.length < 2 ^ 63) (few : ids.length ≤ 2147483647)
    {docs : Bytes} (stored : (w.addTerm id ids).docs <+: docs) :
    (w.term id ids).read docs = (id, ids.map .ok) := by
  obtain ⟨after, rfl⟩ := stored
  have found := DocIds.read_encodePostings accepts.ascends accepts.nonneg short few after
  rw [← List.append_assoc] at found
  exact congrArg (Prod.mk id) found

namespace Cursor

/-- Everything that the cursor yields, with the posting lists. -/
def contents (c : Cursor) (docs : Bytes) :
    List (Except Error (TermId × List (Except PostingFault Int64))) :=
  (TermSource.toList c).map (·.map (Term.read docs))

variable {c : Cursor} {file : TermFile} {w : FieldWriter}

theorem toList_finish (c : Cursor) : TermSource.toList c.finish = [] :=
  TermSource.toList_of_none (next_of_exhausted rfl)

/-- A cursor that starts where a writer stood reads what the writer's later calls have written: all
of it, or what comes before a leap, and then the fault. -/
theorem Tracks.contents_eq {calls : List WriterCall} (tracks : c.Tracks file w) (placed : w.Placed)
    (stored : file.data = (w.afterCalls calls).terms)
    (short : (w.afterCalls calls).docs.length < 2 ^ 63)
    (few : ∀ e ∈ w.written calls, e.2.length ≤ 2147483647)
    (storable : ∀ e ∈ w.written calls, ∀ term ∈ e.1.bytes?, term.length < 2 ^ 64) :
    ∃ fault? : Option TermFault,
      c.contents (w.afterCalls calls).docs =
        (withinReach w.lastId? (w.written calls)).map (fun e => .ok (e.1, e.2.map .ok)) ++
          fault?.toList.map (fun f =>
            .error (.invalidFormat (fieldElement file.directory file.field) f.message)) ∧
      (fault? = Option.none ↔ withinReach w.lastId? (w.written calls) = w.written calls) ∧
      ∀ f ∈ fault?, ∃ delta after, f = .negativeId delta after := by
  induction calls generalizing c w with
  | nil =>
      have ended : c.next = (Option.none, c.finish) := by
        have hdata : file.data = w.terms := stored
        simp only [next, tracks.active, tracks.file_eq, tracks.pos, hdata, TermDecoder.next_end]
      refine ⟨Option.none, ?_, ⟨fun _ => rfl, fun _ => rfl⟩,
        fun f hf => absurd hf (Option.not_mem_none f)⟩
      rw [contents, TermSource.toList_of_none ended]
      rfl
  | cons call rest ih =>
      rcases w.cons_cases call rest with
        ⟨more, hafter, hwritten⟩ | ⟨id, ids, accepts, hafter, hwritten⟩
      · rw [hafter] at stored short ⊢
        rw [hwritten] at few storable ⊢
        exact ih (w := { w with docs := w.docs ++ more }) { tracks with } (placed.withDocs more)
          stored short few storable
      · rw [hafter] at stored short ⊢
        rw [hwritten] at few storable ⊢
        obtain ⟨few_ids, few⟩ := List.forall_mem_cons.mp few
        obtain ⟨storable_id, storable⟩ := List.forall_mem_cons.mp storable
        obtain ⟨terms, docs⟩ := (w.addTerm id ids).extends_afterCalls rest
        have short' : w.docs.length < 2 ^ 63 :=
          Nat.lt_of_le_of_lt ((List.prefix_append w.docs _).trans docs).length_le short
        have hnext := tracks.next_eq accepts placed short' few_ids storable_id (stored ▸ terms)
        simp only [withinReach]
        by_cases far : w.lastId?.any (·.leaps id) = true
        · simp only [if_pos far] at hnext ⊢
          refine ⟨some (.negativeId (w.deltas id ids).idDelta c.current), ?_, by simp, ?_⟩
          · rw [contents, TermSource.toList_of_some hnext, toList_finish]
            rfl
          · rintro f ⟨⟩
            exact ⟨_, _, rfl⟩
        · simp only [if_neg far] at hnext ⊢
          obtain ⟨fault?, hrest, hall, hfault⟩ := ih (tracks.past accepts.kind)
            (placed.addTerm short' storable_id ids) stored short few storable
          rw [accepts.lastId?_addTerm] at hrest hall
          refine ⟨fault?, ?_, by simpa using hall, hfault⟩
          rw [contents, TermSource.toList_of_some hnext, List.map_cons, List.map_cons,
            List.cons_append, ← hrest]
          exact congrArg (· :: _) (congrArg Except.ok (accepts.read_term short' few_ids docs))

end Cursor

end TermStats

import TermStats.Proofs.Field.Grammar
import TermStats.Proofs.Order
import TermStats.Term.Basic

/-!
Which bytes are a term file, and the terms of its entries. Each entry is one that may come after the
terms before it: its doc freq is positive, and neither the id nor the place of the postings goes
back or stays as a pair. Some beginning of any bytes is a term file that no further entry extends.
-/

namespace TermStats

/-- The place of a pair of an id and a doc offset before another. -/
def Term.Before (a b : Term) : Prop :=
  a.id < b.id ∨ a.id = b.id ∧ a.offset < b.offset

/-- The bytes that the entry after a term, if there is one, removes from and adds to. -/
def lastBytes (previous : Option Term) : Bytes :=
  (previous.bind (·.id.bytes?)).getD []

/-- The id of an entry that leads to the string term `bytes`, if its file is one of strings. The
first id of a file may be any. -/
inductive NextId (entry : EntryDeltas) (bytes : Bytes) :
    TermKind → (previous : Option Term) → TermId → Prop where
  | firstInt : NextId entry bytes .int none (.int entry.idDelta)
  | int {last : Term} {value id : Int64} : last.id = .int value → 0 ≤ entry.idDelta →
      id.toInt = value.toInt + entry.idDelta.toInt → NextId entry bytes .int (some last) (.int id)
  | firstString : NextId entry bytes .string none (.bytes bytes)
  | string {last : Term} {value : Bytes} : last.id = .bytes value → value ≤ bytes →
      NextId entry bytes .string (some last) (.bytes bytes)

/-- What an entry adds to a file behind a term, if there is one. -/
structure Adds (kind : TermKind) (previous : Option Term) (entry : EntryDeltas) (bytes : Bytes)
    (t : Term) : Prop where
  frequent : 1 ≤ entry.docFreq.toInt ∧ entry.docFreq.toInt ≤ Int32.maxValue.toInt
  freq : t.freq.toInt = entry.docFreq.toInt
  advances : 0 ≤ entry.offsetDelta
  offset : t.offset.toInt = (previous.elim 0 (·.offset.toInt)) + entry.offsetDelta.toInt
  id : NextId entry bytes kind previous t.id
  distinct : ∀ last ∈ previous, t.id = last.id → entry.offsetDelta ≠ 0

/-- The bytes of an entry that may come behind a term, if there is one, and the term it adds. -/
def Admits (kind : TermKind) (previous : Option Term) (taken : Bytes) (t : Term) : Prop :=
  ∃ entry bytes, IsEntry kind (lastBytes previous) taken entry bytes ∧
    Adds kind previous entry bytes t

/-- What is left of a term file behind a term, if there is one, and the terms of its entries. -/
inductive IsTermFile (kind : TermKind) : Option Term → Bytes → List Term → Prop where
  | nil {previous : Option Term} : IsTermFile kind previous [] []
  | cons {previous : Option Term} {taken rest : Bytes} {t : Term} {ts : List Term} :
      Admits kind previous taken t → IsTermFile kind (some t) rest ts →
      IsTermFile kind previous (taken ++ rest) (t :: ts)

/-- No entry that may come behind the term starts the bytes. -/
def Stuck (kind : TermKind) (previous : Option Term) (bytes : Bytes) : Prop :=
  ∀ taken rest t, bytes = taken ++ rest → ¬ Admits kind previous taken t

variable {kind : TermKind} {previous : Option Term} {entry : EntryDeltas} {bytes taken : Bytes}
  {t last : Term} {ts : List Term}

theorem NextId.kind_eq {id : TermId} (h : NextId entry bytes kind previous id) :
    id.kind = kind := by
  cases h <;> rfl

theorem NextId.le {id : TermId} (h : NextId entry bytes kind (some last) id) : last.id ≤ id := by
  cases h with
  | int value delta sum =>
      have := Int64.le_iff_toInt_le.mp delta
      have zero : (0 : Int64).toInt = 0 := rfl
      rw [value, TermId.int_le_int, Int64.le_iff_toInt_le]
      omega
  | string value le =>
      rwa [value, TermId.bytes_le_bytes]

/-- The string term that an entry leads to is what the next one starts from. -/
theorem Adds.lastBytes_eq (h : Adds kind previous entry bytes t)
    (he : IsEntry kind (lastBytes previous) taken entry bytes) : lastBytes (some t) = bytes := by
  have id := h.id
  cases he with
  | int _ _ _ =>
      generalize hid : t.id = v at id
      cases id with
      | firstInt => simp [lastBytes, hid, TermId.bytes?]
      | int hlast _ _ => simp [lastBytes, hid, hlast, TermId.bytes?]
  | string _ _ _ _ _ _ =>
      generalize hid : t.id = v at id
      cases id <;> simp [lastBytes, hid, TermId.bytes?]

/-- How a term stands to the next one of a file. -/
structure Term.Precedes (a b : Term) : Prop where
  before : a.Before b
  offset : a.offset ≤ b.offset

theorem Adds.precedes (h : Adds kind (some last) entry bytes t) : last.Precedes t := by
  have advances := Int64.le_iff_toInt_le.mp h.advances
  have sum := h.offset
  have zero : (0 : Int64).toInt = 0 := rfl
  simp only [Option.elim_some] at sum
  have offset : last.offset ≤ t.offset := Int64.le_iff_toInt_le.mpr (by omega)
  refine ⟨?_, offset⟩
  by_cases same : t.id = last.id
  · have moved := h.distinct last rfl same
    have : entry.offsetDelta.toInt ≠ 0 := fun h0 => moved (Int64.toInt_inj.mp h0)
    exact .inr ⟨same.symm, Int64.lt_iff_toInt_lt.mpr (by omega)⟩
  · exact .inl (Std.lt_of_le_of_ne h.id.le (Ne.symm same))

theorem Term.Precedes.trans {a b c : Term} (hab : a.Precedes b) (hbc : b.Precedes c) :
    a.Precedes c := by
  refine ⟨?_, Int64.le_trans hab.offset hbc.offset⟩
  rcases hab.before with lt | ⟨eq, lt⟩
  · rcases hbc.before with lt' | ⟨eq', _⟩
    · exact .inl (Std.lt_trans lt lt')
    · exact .inl (eq' ▸ lt)
  · rcases hbc.before with lt' | ⟨eq', lt'⟩
    · exact .inl (eq ▸ lt')
    · exact .inr ⟨eq.trans eq', Int64.lt_trans lt lt'⟩

theorem Admits.length_ge (h : Admits kind previous taken t) : 3 ≤ taken.length := by
  obtain ⟨_, _, he, _⟩ := h
  exact he.length_ge

theorem stuck_nil (kind : TermKind) (previous : Option Term) : Stuck kind previous [] := by
  intro taken rest t nothing admits
  have := admits.length_ge
  rw [(List.append_eq_nil_iff.mp nothing.symm).1] at this
  contradiction

namespace IsTermFile

theorem length_ge (h : IsTermFile kind previous bytes ts) : 3 * ts.length ≤ bytes.length := by
  induction h with
  | nil => exact Nat.le_refl _
  | cons admits _ ih =>
      have := admits.length_ge
      simp only [List.length_cons, List.length_append]
      omega

/-- Every term is of the file's kind, has a posting, and does not go back in the doc ids. -/
theorem mem (h : IsTermFile kind previous bytes ts) (ht : t ∈ ts) :
    t.id.kind = kind ∧ 1 ≤ t.freq.toInt ∧ previous.elim 0 (·.offset.toInt) ≤ t.offset.toInt := by
  induction h with
  | nil => cases ht
  | cons admits _ ih =>
      obtain ⟨entry, _, _, adds⟩ := admits
      have freq := adds.freq
      have frequent := adds.frequent.1
      have offset := adds.offset
      have advances := Int64.le_iff_toInt_le.mp adds.advances
      have zero : (0 : Int64).toInt = 0 := rfl
      rcases List.mem_cons.mp ht with rfl | ht
      · exact ⟨adds.id.kind_eq, by omega, by omega⟩
      · obtain ⟨kind, freq, above⟩ := ih ht
        rw [Option.elim_some] at above
        exact ⟨kind, freq, by omega⟩

theorem pairwise (h : IsTermFile kind previous bytes ts) :
    (previous.toList ++ ts).Pairwise Term.Precedes := by
  induction h with
  | @nil previous => cases previous <;> simp
  | @cons previous _ _ t ts admits _ ih =>
      obtain ⟨_, _, _, adds⟩ := admits
      cases previous with
      | none => exact ih
      | some last =>
          refine List.pairwise_cons.mpr ⟨fun u hu => ?_, ih⟩
          rcases List.mem_cons.mp hu with rfl | hu
          · exact adds.precedes
          · exact adds.precedes.trans ((List.pairwise_cons.mp ih).1 u hu)

end IsTermFile

/-- The entries at the start of any bytes, up to the first that may not come. -/
theorem exists_isTermFile_stuck (kind : TermKind) (previous : Option Term) (bytes : Bytes) :
    ∃ before rest ts, bytes = before ++ rest ∧ IsTermFile kind previous before ts ∧
      Stuck kind (ts.getLast?.or previous) rest := by
  induction hn : bytes.length using Nat.strongRecOn generalizing previous bytes with
  | ind n ih =>
      by_cases stuck : Stuck kind previous bytes
      · exact ⟨[], bytes, [], rfl, .nil, stuck⟩
      · simp only [Stuck, not_forall, not_not] at stuck
        obtain ⟨taken, rest, t, rfl, admits⟩ := stuck
        have shorter : rest.length < n := by
          have := admits.length_ge
          rw [← hn, List.length_append]
          omega
        obtain ⟨before, left, ts, rfl, file, stuck⟩ := ih _ shorter (some t) rest rfl
        refine ⟨taken ++ before, left, t :: ts, (List.append_assoc ..).symm, .cons admits file, ?_⟩
        cases ts with
        | nil => exact stuck
        | cons u us => rwa [List.getLast?_cons_cons]

end TermStats

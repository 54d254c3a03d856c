import TermStats.Proofs.Term.CursorOrder
import TermStats.Proofs.Term.FileGrammar

/-!
What a cursor makes of the bytes of a term file. It yields the terms of the entries up to the first
that may not come, then a fault if there is one, and it is at its end from then on.
-/

namespace TermStats

open Result

variable {kind : TermKind} {previous : Option Term} {entry : EntryDeltas} {t : Term}

namespace Cursor

/-- The cursor after some steps. -/
def after (c : Cursor) : (steps : Nat) → Cursor
  | 0 => c
  | steps + 1 => c.next.2.after steps

theorem after_add (c : Cursor) (m n : Nat) : c.after (m + n) = (c.after m).after n := by
  induction m generalizing c with
  | zero => rw [Nat.zero_add]; rfl
  | succ m ih =>
      rw [Nat.succ_add]
      exact ih c.next.2

theorem after_of_next_eq_self {c : Cursor} {x : Option (Except Error Term)} (h : c.next = (x, c))
    (steps : Nat) : c.after steps = c := by
  induction steps with
  | zero => rfl
  | succ steps ih => rwa [after, h]

/-- The steps give the items one by one, and then nothing. -/
theorem next_after (c : Cursor) (steps : Nat) :
    (c.after steps).next.1 = (TermSource.toList c)[steps]? := by
  induction steps generalizing c with
  | zero =>
      cases hn : c.next with
      | mk x c' =>
          cases x with
          | none => rw [TermSource.toList_of_none hn, after, hn]; rfl
          | some x => rw [TermSource.toList_of_some hn, after, hn]; rfl
  | succ steps ih =>
      cases hn : c.next with
      | mk x c' =>
          cases x with
          | none =>
              have stays := exhausted_of_none hn
              rw [TermSource.toList_of_none hn, after, hn, after_of_next_eq_self stays, stays]
              rfl
          | some x =>
              rw [TermSource.toList_of_some hn, after, hn, ih]
              rfl

/-- The cursor stands in a file behind a term, if there is one, with `rest` still to be read. -/
structure Stands (c : Cursor) (file : TermFile) (previous : Option Term) (rest : Bytes) :
    Prop where
  opened : c.file = some file
  unfinished : c.exhausted = false
  within : c.pos ≤ file.data.length
  remains : file.data.drop c.pos = rest
  bytes : c.bytes = lastBytes previous
  current : c.current = previous.getD .empty
  started : c.started = previous.isSome
  kind : ∀ last ∈ previous, last.id.kind = file.kind

theorem stands_ofFile (file : TermFile) :
    (ofFile file).Stands file Option.none file.data :=
  ⟨rfl, rfl, Nat.zero_le _, rfl, rfl, rfl, rfl, nofun⟩

section Accumulation

variable {c : Cursor}

theorem nextId_eq_ok_iff (hcurrent : c.current = previous.getD .empty)
    (hstarted : c.started = previous.isSome) (hkind : ∀ last ∈ previous, last.id.kind = kind)
    {id : TermId} : c.nextId kind entry = .ok id ↔ NextId entry c.bytes kind previous id := by
  cases previous with
  | none =>
      have unstarted : c.started = false := hstarted
      have start : c.current = .empty := hcurrent
      have zero : (0 : Int64) + entry.idDelta = entry.idDelta := Int64.zero_add _
      cases kind with
      | int =>
          simp only [nextId, unstarted, start, Term.empty, TermId.int?, Option.getD_some, zero,
            Bool.not_false, if_true, Except.ok.injEq]
          exact ⟨fun h => h ▸ .firstInt, fun h => by cases h; rfl⟩
      | string =>
          simp only [nextId, unstarted, Bool.false_eq_true, false_and, if_false, Except.ok.injEq]
          exact ⟨fun h => h ▸ .firstString, fun h => by cases h; rfl⟩
  | some last =>
      have started : c.started = true := hstarted
      have current : c.current = last := hcurrent
      have ofKind := hkind last rfl
      cases hid : last.id with
      | int value =>
          have : kind = .int := by rw [← ofKind, hid]; rfl
          subst this
          have zero : (0 : Int64).toInt = 0 := rfl
          simp only [nextId, started, current, hid, TermId.int?, Option.getD_some, Bool.not_true,
            Bool.false_eq_true, if_false]
          refine ⟨fun h => ?_, fun h => ?_⟩
          · split at h
            · cases h
            · rename_i advances
              split at h
              · rename_i hsum
                cases h
                exact .int hid (Std.not_lt.mp advances) (addExact?_eq_some hsum)
              · cases h
          · cases h with
            | int hid' advances sum =>
                cases hid.symm.trans hid'
                rw [if_neg (Std.not_lt.mpr advances), addExact?_of_toInt sum]
      | bytes value =>
          have : kind = .string := by rw [← ofKind, hid]; rfl
          subst this
          simp only [nextId, started, current, hid, TermId.bytes?, Option.getD_some, true_and]
          refine ⟨fun h => ?_, fun h => ?_⟩
          · split at h
            · cases h
            · rename_i ascends
              cases h
              exact .string hid (Std.not_lt.mp ascends)
          · cases h with
            | string hid' ascends =>
                cases hid.symm.trans hid'
                rw [if_neg (Std.not_lt.mpr ascends)]

/-- The checks on an entry are those of the grammar. -/
theorem accepts_iff_adds (hcurrent : c.current = previous.getD .empty)
    (hstarted : c.started = previous.isSome) (hkind : ∀ last ∈ previous, last.id.kind = kind) :
    c.Accepts kind entry t ↔ Adds kind previous entry c.bytes t := by
  have offset : c.current.offset.toInt = previous.elim 0 (·.offset.toInt) := by
    rw [hcurrent]
    cases previous <;> rfl
  have repeated : (c.started = true ∧ t.id = c.current.id ∧ entry.offsetDelta = 0) ↔
      ∃ last ∈ previous, t.id = last.id ∧ entry.offsetDelta = 0 := by
    rw [hcurrent, hstarted]
    cases previous <;> simp
  have hid : c.nextId kind entry = .ok t.id ↔ NextId entry c.bytes kind previous t.id :=
    nextId_eq_ok_iff hcurrent hstarted hkind
  refine ⟨fun h => ?_, fun h => ?_⟩
  · obtain ⟨least, most, exact32⟩ := toInt_docFreq h.frequent
    refine ⟨⟨least, most⟩, h.freq ▸ exact32, h.advances, ?_, hid.mp h.id, ?_⟩
    · rw [← offset]
      exact addExact?_eq_some h.offset
    · exact fun last hlast same stays => h.moves (repeated.mpr ⟨last, hlast, same, stays⟩)
  · have frequent : leastFreq ≤ entry.docFreq ∧ entry.docFreq ≤ greatestFreq := by
      rw [Int64.le_iff_toInt_le, Int64.le_iff_toInt_le]
      exact h.frequent
    obtain ⟨_, _, exact32⟩ := toInt_docFreq frequent
    refine ⟨frequent, h.advances, addExact?_of_toInt (by rw [offset, h.offset]), hid.mpr h.id, ?_,
      Int32.toInt_inj.mp (h.freq.trans exact32.symm)⟩
    rw [repeated]
    rintro ⟨last, hlast, same, stays⟩
    exact h.distinct last hlast same stays

/-- The term of an entry, if it may come. -/
theorem accumulate_eq_ok_iff_adds (hcurrent : c.current = previous.getD .empty)
    (hstarted : c.started = previous.isSome) (hkind : ∀ last ∈ previous, last.id.kind = kind) :
    c.accumulate kind entry = .ok t ↔ Adds kind previous entry c.bytes t :=
  accumulate_eq_ok_iff.trans (accepts_iff_adds hcurrent hstarted hkind)

end Accumulation

/-- A fault in a file, as it is reported. -/
def faultIn (file : TermFile) (f : TermFault) : Error :=
  .invalidFormat (fieldElement file.directory file.field) f.message

variable {c : Cursor} {file : TermFile} {rest taken : Bytes}

/-- An entry that may come makes the cursor yield its term and go behind it. -/
theorem next_of_admits (stands : c.Stands file previous (taken ++ rest))
    (admits : Admits file.kind previous taken t) :
    ∃ c', c.next = (some (.ok t), c') ∧ c'.Stands file (some t) rest := by
  obtain ⟨entry, bytes, he, adds⟩ := admits
  obtain ⟨opened, unfinished, within, remains, hbytes, current, started, kind⟩ := stands
  have decoded := (TermDecoder.next_eq_some_iff within).mpr ⟨taken, rest, bytes, remains, he, rfl⟩
  have accumulated := (accumulate_eq_ok_iff_adds
    (c := { c with pos := c.pos + taken.length, bytes := bytes }) current started kind).mpr adds
  refine ⟨{ c with pos := c.pos + taken.length, bytes := bytes, current := t, started := true },
    ?_, ?_⟩
  · simp only [opened, unfinished] at accumulated
    simp only [next, unfinished, opened, hbytes, decoded, accumulated]
  · have moved : file.data.drop (c.pos + taken.length) = rest := by
      rw [← List.drop_drop, remains, List.drop_left]
    have within' : c.pos + taken.length ≤ file.data.length := by
      have lengths := congrArg List.length remains
      rw [List.length_drop, List.length_append] at lengths
      omega
    have ofKind : ∀ last ∈ some t, last.id.kind = file.kind := by
      rintro _ ⟨⟩
      exact adds.id.kind_eq
    exact ⟨opened, unfinished, within', moved, (adds.lastBytes_eq he).symm, rfl, rfl, ofKind⟩

/-- Where no entry may come, the cursor ends, with a fault unless it is the end of the file. -/
theorem next_of_stuck (stands : c.Stands file previous rest)
    (stuck : Stuck file.kind previous rest) : ∃ c',
      c'.exhausted = true ∧ c'.current = .empty ∧
        ((rest = [] ∧ c.next = (Option.none, c')) ∨
          (rest ≠ [] ∧ ∃ f, c.next = (some (.error (faultIn file f)), c'))) := by
  obtain ⟨opened, unfinished, within, remains, hbytes, current, started, kind⟩ := stands
  have none_iff := TermDecoder.next_eq_none_iff file.kind (lastBytes previous) within
  rcases hd : TermDecoder.next ⟨file.kind, file.data, c.pos, lastBytes previous⟩ with
    ⟨f | (_ | entry), d⟩ <;>
    rw [hd, remains] at none_iff <;> simp only [next, unfinished, opened, hbytes, hd]
  · have more : rest ≠ [] := fun h => by cases none_iff.mpr h
    exact ⟨_, rfl, rfl, .inr ⟨more, _, rfl⟩⟩
  · exact ⟨_, rfl, rfl, .inl ⟨none_iff.mp rfl, rfl⟩⟩
  · have more : rest ≠ [] := fun h => by cases none_iff.mpr h
    obtain ⟨taken, left, term, hdrop, he, rfl⟩ := (TermDecoder.next_eq_some_iff within).mp hd
    rw [remains] at hdrop
    have refused : ∀ t, accumulate { c with pos := c.pos + taken.length, bytes := term }
        file.kind entry ≠ .ok t := by
      intro t ha
      have adds := (accumulate_eq_ok_iff_adds
        (c := { c with pos := c.pos + taken.length, bytes := term }) current started kind).mp ha
      exact stuck taken left t hdrop ⟨entry, term, he, adds⟩
    simp only [opened, unfinished] at refused
    split
    · exact ⟨_, rfl, rfl, .inr ⟨more, _, rfl⟩⟩
    · rename_i ha
      exact absurd ha (refused _)

/-- Where no entry may come, the cursor yields a fault, unless it is the end of the file, and is
finished from then on. -/
theorem ends_of_stuck (stands : c.Stands file previous rest)
    (stuck : Stuck file.kind previous rest) :
    (∃ fault? : Option TermFault,
      TermSource.toList c = fault?.toList.map (.error <| faultIn file ·) ∧
        (fault? = Option.none ↔ rest = [])) ∧
      ∀ steps, (c.after (steps + 1)).isExhausted = true ∧
        (c.after (steps + 1)).current = .empty := by
  obtain ⟨c', exhausted, current, last⟩ := next_of_stuck stands stuck
  have stays := next_of_exhausted exhausted
  refine ⟨?_, fun steps => ?_⟩
  · rcases last with ⟨hrest, hn⟩ | ⟨hrest, f, hn⟩
    · exact ⟨Option.none, TermSource.toList_of_none hn, by simp [hrest]⟩
    · refine ⟨some f, ?_, by simp [hrest]⟩
      rw [TermSource.toList_of_some hn, TermSource.toList_of_none stays]
      rfl
  · have hn : c.next.2 = c' := by
      rcases last with ⟨_, hn⟩ | ⟨_, _, hn⟩ <;> rw [hn]
    rw [after, hn, after_of_next_eq_self stays, isExhausted, exhausted]
    exact ⟨rfl, current⟩

/-- A term file at the start of what remains is read to its end. -/
theorem after_of_isTermFile {ts : List Term} {before : Bytes}
    (stands : c.Stands file previous (before ++ rest))
    (wellFormed : IsTermFile file.kind previous before ts) :
    (c.after ts.length).Stands file (ts.getLast?.or previous) rest ∧
      TermSource.toList c = ts.map .ok ++ TermSource.toList (c.after ts.length) := by
  induction wellFormed generalizing c with
  | nil => exact ⟨stands, rfl⟩
  | @cons previous taken more t ts admits _ ih =>
      rw [List.append_assoc] at stands
      obtain ⟨c', hn, stands'⟩ := next_of_admits stands admits
      obtain ⟨there, items⟩ := ih stands'
      have goes : c.after (ts.length + 1) = c'.after ts.length := by rw [after, hn]
      rw [List.length_cons, goes, TermSource.toList_of_some hn, items]
      refine ⟨?_, rfl⟩
      cases ts with
      | nil => exact there
      | cons u us => rwa [List.getLast?_cons_cons]

/-- A well-formed file is read without a fault. -/
theorem toList_of_isTermFile {ts : List Term}
    (wellFormed : IsTermFile file.kind Option.none file.data ts) :
    TermSource.toList (ofFile file) = ts.map .ok := by
  have start := stands_ofFile file
  rw [← List.append_nil file.data] at start
  obtain ⟨stands, items⟩ := after_of_isTermFile start wellFormed
  obtain ⟨⟨fault?, last, hfault⟩, _⟩ := ends_of_stuck stands (stuck_nil _ _)
  rw [items, last, hfault.mpr rfl]
  exact List.append_nil _

/-- For any bytes of a term file, the terms and the fault that its cursor yields, which tell whether
the file is well formed and where it stops being so. -/
theorem reads_term_file (file : TermFile) : ∃ (ts : List Term) (fault? : Option TermFault),
    (∀ i, ((ofFile file).after i).next.1 =
      (ts.map .ok ++ fault?.toList.map (.error <| faultIn file ·))[i]?) ∧
    (∀ i, ts.length < i → ((ofFile file).after i).isExhausted = true ∧
      ((ofFile file).after i).current = .empty) ∧
    (∀ t ∈ ts, t.id.kind = file.kind ∧ 0 ≤ t.offset ∧
      1 ≤ t.freq.toInt ∧ t.freq.toInt ≤ Int32.maxValue.toInt) ∧
    ts.Pairwise Term.Before ∧ ts.Pairwise (·.offset ≤ ·.offset) ∧
    ts.length ≤ file.data.length / 3 ∧
    (fault? = Option.none ↔ ∃ terms, IsTermFile file.kind Option.none file.data terms) ∧
    ∃ before rest, file.data = before ++ rest ∧ IsTermFile file.kind Option.none before ts ∧
      Stuck file.kind ts.getLast? rest ∧ (fault? = Option.none ↔ rest = []) := by
  obtain ⟨before, rest, ts, data, wellFormed, stuck⟩ :=
    exists_isTermFile_stuck file.kind Option.none file.data
  rw [Option.or_none] at stuck
  have start := stands_ofFile file
  rw [data] at start
  obtain ⟨stands, items⟩ := after_of_isTermFile start wellFormed
  rw [Option.or_none] at stands
  obtain ⟨⟨fault?, last, hfault⟩, finished⟩ := ends_of_stuck stands stuck
  rw [last] at items
  have precedes := wellFormed.pairwise
  refine ⟨ts, fault?, fun i => by rw [next_after, items], fun i hi => ?_, fun t ht => ?_,
    precedes.imp (·.before), precedes.imp (·.offset), ?_, ⟨fun h => ?_, ?_⟩,
    before, rest, data, wellFormed, stuck, hfault⟩
  · obtain ⟨k, rfl⟩ := Nat.exists_eq_add_of_lt hi
    rw [Nat.add_assoc, after_add]
    exact finished k
  · obtain ⟨kind, freq, offset⟩ := wellFormed.mem ht
    exact ⟨kind, Int64.le_iff_toInt_le.mpr offset, freq, t.freq.toInt_le⟩
  · have enough := wellFormed.length_ge
    rw [Nat.le_div_iff_mul_le (by decide), data, List.length_append]
    omega
  · rw [data, hfault.mp h, List.append_nil]
    exact ⟨ts, wellFormed⟩
  · rintro ⟨terms, whole⟩
    have faultless := congrArg firstFault? ((toList_of_isTermFile whole).symm.trans items)
    rw [← List.append_nil (terms.map _), firstFault?_append, firstFault?_append] at faultless
    cases fault? with
    | none => rfl
    | some f => cases faultless

end Cursor
end TermStats

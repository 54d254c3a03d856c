import TermStats.Proofs.Field.Postings
import TermStats.Proofs.Order
import TermStats.Proofs.Term.Items

/-!
The order of the terms that a cursor yields. In every state that a cursor can come to, the
current term is of the kind of the file, so the checks on an entry compare ids of one kind.
-/

namespace TermStats

namespace TermId

theorem bytes?_getD {id : TermId} (h : id.kind = .string) : id = .bytes (id.bytes?.getD []) := by
  cases id with
  | int _ => cases h
  | bytes _ => rfl

theorem int?_getD {id : TermId} (h : id.kind = .int) : id = .int (id.int?.getD 0) := by
  cases id with
  | int _ => rfl
  | bytes _ => cases h

end TermId

namespace Cursor

/-- The states that a cursor comes to, from the start of a file or without one. -/
inductive Reachable : Cursor → Prop where
  | none : Reachable .none
  | ofFile (file : TermFile) : Reachable (.ofFile file)
  | next {c : Cursor} : Reachable c → Reachable c.next.2

/-- The term before the next one is of the file's kind, when there is one. -/
def Sound (c : Cursor) : Prop :=
  c.exhausted = false → c.started = true → ∀ file ∈ c.file, c.current.id.kind = file.kind

theorem nextId_ok {c : Cursor} {kind : TermKind} {entry : EntryDeltas} {id : TermId}
    (h : c.nextId kind entry = .ok id) :
    id.kind = kind ∧ (c.started = true → c.current.id.kind = kind → c.current.id ≤ id) := by
  cases kind with
  | int =>
      simp only [nextId] at h
      split at h
      · rename_i hs
        cases h
        exact ⟨rfl, fun h => by simp [h] at hs⟩
      · split at h
        · cases h
        · rename_i hdelta
          split at h
          · rename_i hsum
            cases h
            refine ⟨rfl, ?_⟩
            intro _ hk
            rw [TermId.int?_getD hk]
            exact TermId.int_le_int.mpr (le_of_addExact? hsum (Std.not_lt.mp hdelta))
          · cases h
  | string =>
      simp only [nextId] at h
      split at h
      · cases h
      · rename_i hb
        cases h
        refine ⟨rfl, ?_⟩
        intro hs hk
        rw [TermId.bytes?_getD hk]
        exact TermId.bytes_le_bytes.mpr (Std.not_lt.mp fun hlt => hb ⟨hs, hlt⟩)

/-- The checks that an entry passes, and the term that it then adds. -/
structure Accepts (c : Cursor) (kind : TermKind) (entry : EntryDeltas) (t : Term) : Prop where
  frequent : leastFreq ≤ entry.docFreq ∧ entry.docFreq ≤ greatestFreq
  advances : 0 ≤ entry.offsetDelta
  offset : addExact? c.current.offset entry.offsetDelta = some t.offset
  id : c.nextId kind entry = .ok t.id
  moves : ¬ (c.started = true ∧ t.id = c.current.id ∧ entry.offsetDelta = 0)
  freq : t.freq = entry.docFreq.toInt32

theorem accumulate_eq_ok_iff {c : Cursor} {kind : TermKind} {entry : EntryDeltas} {t : Term} :
    c.accumulate kind entry = .ok t ↔ c.Accepts kind entry t := by
  have inRange : ¬ (entry.docFreq < leastFreq ∨ greatestFreq < entry.docFreq) ↔
      leastFreq ≤ entry.docFreq ∧ entry.docFreq ≤ greatestFreq := by
    rw [not_or, Std.not_lt, Std.not_lt]
  refine ⟨fun h => ?_, fun h => ?_⟩
  · simp only [accumulate] at h
    split at h
    · cases h
    · rename_i hfreq
      split at h
      · cases h
      · rename_i hdelta
        split at h
        · cases h
        · rename_i hsum
          split at h
          · cases h
          · rename_i hid
            split at h
            · cases h
            · rename_i hmoves
              cases h
              exact ⟨inRange.mp hfreq, Std.not_lt.mp hdelta, hsum, hid, hmoves, rfl⟩
  · obtain ⟨frequent, advances, offset, id, moves, freq⟩ := h
    simp only [accumulate, if_neg (inRange.mpr frequent), if_neg (Std.not_lt.mpr advances), offset,
      id, if_neg moves, ← freq]

/-- A doc freq in the range that is checked fits a term. -/
theorem toInt_docFreq {freq : Int64} (h : leastFreq ≤ freq ∧ freq ≤ greatestFreq) :
    1 ≤ freq.toInt ∧ freq.toInt ≤ Int32.maxValue.toInt ∧ freq.toInt32.toInt = freq.toInt := by
  have least : leastFreq.toInt = 1 := rfl
  have greatest : greatestFreq.toInt = 2147483647 := rfl
  have most : Int32.maxValue.toInt = 2147483647 := rfl
  rw [Int64.le_iff_toInt_le, Int64.le_iff_toInt_le] at h
  rw [Int64.toInt_toInt32, Int.bmod_eq_of_le (by omega) (by omega)]
  omega

theorem Accepts.freq_pos {c : Cursor} {kind : TermKind} {entry : EntryDeltas} {t : Term}
    (h : c.Accepts kind entry t) : 0 < t.freq.toInt := by
  obtain ⟨least, _, exact32⟩ := toInt_docFreq h.frequent
  rw [h.freq, exact32]
  omega

/-- What a step that yields a term does: the term is of the file's kind and not below the one
before it. -/
theorem next_ok {c c' : Cursor} {t : Term} (h : c.next = (some (.ok t), c')) (sound : c.Sound) :
    c'.Sound ∧ c'.started = true ∧ c'.current = t ∧ 0 < t.freq.toInt ∧
      (c.started = true → c.current.id ≤ t.id) ∧ ∀ file ∈ c.file, t.id.kind = file.kind := by
  simp only [next] at h
  split at h
  · rename_i file hex hfile
    split at h
    · cases h
    · cases h
    · split at h
      · cases h
      · rename_i hacc
        cases h
        have accepts := accumulate_eq_ok_iff.mp hacc
        obtain ⟨hkind, hle⟩ := nextId_ok accepts.id
        have kind : ∀ f ∈ c.file, t.id.kind = f.kind := by
          intro f hf
          rw [hfile] at hf
          cases hf
          exact hkind
        exact ⟨fun _ _ => kind, rfl, rfl, accepts.freq_pos,
          fun hs => hle hs (sound hex hs file hfile), kind⟩
  · cases h

theorem exhausted_of_not_ok {c c' : Cursor} {x : Option (Except Error Term)}
    (h : c.next = (x, c')) (hx : ∀ t, x ≠ some (.ok t)) : c'.exhausted = true ∨ c' = c := by
  simp only [next] at h
  split at h
  · split at h
    · cases h
      exact .inl rfl
    · cases h
      exact .inl rfl
    · split at h
      · cases h
        exact .inl rfl
      · cases h
        exact absurd rfl (hx _)
  · cases h
    exact .inr rfl

theorem sound_next {c : Cursor} (sound : c.Sound) : c.next.2.Sound := by
  cases hn : c.next with
  | mk x c' =>
      by_cases hx : ∃ t, x = some (.ok t)
      · obtain ⟨t, rfl⟩ := hx
        exact (next_ok hn sound).1
      · rcases exhausted_of_not_ok hn fun t ht => hx ⟨t, ht⟩ with hex | rfl
        · exact fun h => by rw [hex] at h; cases h
        · exact sound

theorem Reachable.sound {c : Cursor} (h : c.Reachable) : c.Sound := by
  induction h with
  | none => exact fun _ => nofun
  | ofFile _ => exact fun _ => nofun
  | next _ ih => exact sound_next ih

/-- The terms to come ascend from the current one on. -/
theorem ascending_toList {c : Cursor} (sound : c.Sound) :
    (beforeFault (TermSource.toList c)).Pairwise (·.id ≤ ·.id) ∧
      (c.started = true → ∀ t ∈ beforeFault (TermSource.toList c), c.current.id ≤ t.id) := by
  induction c using TermSource.induction with
  | finished c c' hn =>
      rw [TermSource.toList_of_none hn]
      exact ⟨List.Pairwise.nil, fun _ => List.forall_mem_nil _⟩
  | faulted c c' e hn _ =>
      rw [TermSource.toList_of_some hn]
      exact ⟨List.Pairwise.nil, fun _ => List.forall_mem_nil _⟩
  | yielded c c' t hn ih =>
      obtain ⟨sound', started, current, _, hle, _⟩ := next_ok hn sound
      obtain ⟨ascends, above⟩ := ih sound'
      rw [current] at above
      rw [TermSource.toList_of_some hn]
      refine ⟨List.pairwise_cons.mpr ⟨above started, ascends⟩, ?_⟩
      intro hs
      refine List.forall_mem_cons.mpr ⟨hle hs, fun u hu => ?_⟩
      exact Std.le_trans (hle hs) (above started u hu)

theorem file_next (c : Cursor) : c.next.2.file = c.file := by
  simp only [next]
  split
  · split
    · rfl
    · rfl
    · split <;> rfl
  · rfl

theorem file_of_next {c c' : Cursor} {x : Option (Except Error Term)} (h : c.next = (x, c')) :
    c'.file = c.file := by
  rw [← file_next c, h]

/-- Every term is of the file's kind and has a posting. -/
theorem mem_toList {c : Cursor} (sound : c.Sound) {t : Term}
    (ht : t ∈ beforeFault (TermSource.toList c)) :
    0 < t.freq.toInt ∧ ∀ file ∈ c.file, t.id.kind = file.kind := by
  induction c using TermSource.induction with
  | finished c c' hn =>
      rw [TermSource.toList_of_none hn] at ht
      cases ht
  | faulted c c' e hn _ =>
      rw [TermSource.toList_of_some hn] at ht
      cases ht
  | yielded c c' u hn ih =>
      obtain ⟨sound', _, _, hfreq, _, hkind⟩ := next_ok hn sound
      rw [TermSource.toList_of_some hn] at ht
      rcases List.mem_cons.mp ht with rfl | ht
      · exact ⟨hfreq, hkind⟩
      · rw [← file_of_next hn]
        exact ih sound' ht

/-- The same place in another opening of the file. -/
def reopened (c : Cursor) (opening : Opening) : Cursor :=
  { c with file := c.file.map ({ · with opening := opening }) }

theorem next_reopened (c : Cursor) (opening : Opening) :
    (c.reopened opening).next = (c.next.1, c.next.2.reopened opening) := by
  obtain ⟨file, pos, bytes, current, started, exhausted⟩ := c
  cases exhausted with
  | true => simp only [next, reopened]
  | false =>
      cases file with
      | none => rfl
      | some file =>
          simp only [next, reopened, Option.map_some]
          split
          · rfl
          · rfl
          · rename_i entry d _
            -- The term of an entry does not depend on the file.
            have same : accumulate ⟨some { file with opening := opening }, d.pos, d.term, current,
                started, false⟩ file.kind entry =
                  accumulate ⟨some file, d.pos, d.term, current, started, false⟩ file.kind
                    entry := rfl
            rw [same]
            split <;> rfl

theorem toList_reopened (c : Cursor) (opening : Opening) :
    TermSource.toList (c.reopened opening) = TermSource.toList c := by
  have step {c c' : Cursor} {x : Option (Except Error Term)} (hn : c.next = (x, c')) :
      (c.reopened opening).next = (x, c'.reopened opening) := by
    rw [next_reopened, hn]
  induction c using TermSource.induction with
  | finished c c' hn =>
      rw [TermSource.toList_of_none (step hn), TermSource.toList_of_none hn]
  | faulted c c' e hn ih | yielded c c' t hn ih =>
      rw [TermSource.toList_of_some (step hn), TermSource.toList_of_some hn, ih]

end Cursor
end TermStats

import TermStats.Proofs.Term.CursorOrder

/-!
How long the ids of a term file are. Each added byte of a string entry stands in the file, so no id
is longer than the file that it is read from.
-/

namespace TermStats

open Result

theorem length_of_readStringEntry {previous term : Bytes} {r r' : Reader} {entry : EntryDeltas}
    (h : readStringEntry previous r = .ok (entry, term, r')) :
    r.pos + term.length ≤ r'.pos + previous.length := by
  simp only [readStringEntry, bind_eq_ok, mapError_eq_ok] at h
  obtain ⟨⟨removed, r₁⟩, h₁, ⟨added, r₂⟩, h₂, h⟩ := h
  split at h
  · exact absurd h throw_ne_ok
  · simp only [bind_eq_ok, mapError_eq_ok] at h
    obtain ⟨⟨suffix, r₃⟩, h₃, ⟨offset, r₄⟩, h₄, ⟨freq, r₅⟩, h₅, h⟩ := h
    cases h
    have reach₁ := (Reader.reaches_of_readU64 h₁).1
    have reach₂ := (Reader.reaches_of_readU64 h₂).1
    have reach₄ := (Reader.reaches_of_readInt h₄).1
    have reach₅ := (Reader.reaches_of_readInt h₅).1
    dsimp only at reach₂ reach₄ reach₅ h₃
    have taken : suffix.length = added.toNat ∧ r₃.pos = r₂.pos + added.toNat := by
      simp only [Reader.readBytes] at h₃
      split at h₃
      · cases h₃
      · cases h₃
        exact ⟨by rw [List.length_take]; omega, rfl⟩
    simp only [List.length_append, List.length_take]
    omega

theorem TermDecoder.length_of_next {d d' : TermDecoder} {entry : EntryDeltas}
    (h : d.next = (.ok (some entry), d')) :
    d.pos + d'.term.length ≤ d'.pos + d.term.length ∧ d'.pos ≤ d.data.length := by
  refine ⟨?_, (progress_of_next h).2.2⟩
  have moves := (progress_of_next h).2.1
  simp only [next] at h
  split at h
  · simp at h
  · rename_i r hr
    have start := (Reader.atOffset_eq_ok hr).1
    split at h
    · simp at h
    · split at h
      · split at h
        · simp at h
        · cases h
          simp only at moves ⊢
          omega
      · split at h
        · simp at h
        · rename_i he
          cases h
          have := length_of_readStringEntry he
          simp only
          omega

namespace Cursor

/-- The bytes read so far hold the last string. -/
def Covered (c : Cursor) : Prop :=
  c.bytes.length ≤ c.pos

/-- The bytes of an id, if it has any, are no more than the file's. -/
def IdWithin (file : TermFile) : TermId → Prop
  | .int _ => True
  | .bytes bs => bs.length ≤ file.data.length

theorem within_of_next {c c' : Cursor} {t : Term} (h : c.next = (some (.ok t), c'))
    (covered : c.Covered) : c'.Covered ∧ ∀ file ∈ c.file, IdWithin file t.id := by
  simp only [next] at h
  split at h
  · rename_i file _ hfile
    split at h
    · cases h
    · cases h
    · rename_i entry d hd
      split at h
      · cases h
      · rename_i hacc
        cases h
        obtain ⟨hlen, hpos⟩ := TermDecoder.length_of_next hd
        have covered' : d.term.length ≤ d.pos := by
          simp only [Covered] at covered hlen
          omega
        refine ⟨covered', ?_⟩
        intro f hf
        rw [hfile] at hf
        cases hf
        have hid := (accumulate_eq_ok_iff.mp hacc).id
        cases hi : t.id with
        | int _ => trivial
        | bytes bs =>
            rw [hi] at hid
            cases hk : file.kind with
            | int =>
                have hkind := (nextId_ok hid).1
                rw [hk] at hkind
                cases hkind
            | string =>
                rw [hk] at hid
                simp only [nextId] at hid
                split at hid
                · cases hid
                · cases hid
                  exact Nat.le_trans covered' hpos
  · cases h

theorem within_of_mem {c : Cursor} (covered : c.Covered) {t : Term}
    (ht : t ∈ beforeFault (TermSource.toList c)) : ∀ file ∈ c.file, IdWithin file t.id := by
  induction c using TermSource.induction with
  | finished c c' hn =>
      rw [TermSource.toList_of_none hn] at ht
      cases ht
  | faulted c c' e hn _ =>
      rw [TermSource.toList_of_some hn] at ht
      cases ht
  | yielded c c' u hn ih =>
      obtain ⟨covered', within⟩ := within_of_next hn covered
      rw [TermSource.toList_of_some hn] at ht
      rcases List.mem_cons.mp ht with rfl | ht
      · exact within
      · rw [← file_of_next hn]
        exact ih covered' ht

end Cursor
end TermStats

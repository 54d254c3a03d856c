import TermStats.Proofs.Field.Grammar

/-!
The steps of a decoder. A step either takes one whole entry, and then depends on the bytes before
its end only, or it leaves the decoder as it was. After a number of entries that the length of the
file bounds, no step takes one.
-/

namespace TermStats

namespace TermDecoder

variable {d : TermDecoder} {entry : EntryDeltas} {taken rest term : Bytes}

/-- The decoder behind an entry. -/
def past (d : TermDecoder) (taken term : Bytes) : TermDecoder :=
  { d with pos := d.pos + taken.length, term := term }

theorem eq_of_next {d' : TermDecoder} {x : Except EntryFault (Option EntryDeltas)}
    (h : d.next = (x, d')) (none_taken : ∀ entry, x ≠ .ok (some entry)) : d' = d := by
  simp only [next] at h
  split at h
  · cases h
    rfl
  · split at h
    · cases h
      rfl
    · split at h
      · split at h
        · cases h
          rfl
        · cases h
          exact absurd rfl (none_taken _)
      · split at h
        · cases h
          rfl
        · cases h
          exact absurd rfl (none_taken _)

/-- What a step can do. -/
theorem next_cases (d : TermDecoder) :
    (∃ f, d.next = (.error f, d) ∧ d.pos ≠ d.data.length) ∨
      (d.next = (.ok none, d) ∧ d.pos = d.data.length) ∨
      ∃ entry taken rest term, d.data.drop d.pos = taken ++ rest ∧
        IsEntry d.kind d.term taken entry term ∧
        d.next = (.ok (some entry), d.past taken term) := by
  by_cases within : d.pos ≤ d.data.length
  · have ended : d.next.1 = .ok none ↔ d.pos = d.data.length := by
      rw [next_eq_none_iff d.kind d.term within, List.drop_eq_nil_iff]
      omega
    rcases hd : d.next with ⟨f | (_ | entry), d'⟩
    · rw [hd] at ended
      rw [eq_of_next hd nofun]
      exact .inl ⟨f, rfl, fun h => nomatch ended.mpr h⟩
    · rw [hd] at ended
      rw [eq_of_next hd nofun]
      exact .inr (.inl ⟨rfl, ended.mp rfl⟩)
    · obtain ⟨taken, rest, term, bytes, he, rfl⟩ := (next_eq_some_iff within).mp hd
      exact .inr (.inr ⟨entry, taken, rest, term, bytes, he, rfl⟩)
  · have beyond := Nat.lt_of_not_le within
    have refused : d.next = (.error (.read (.beyondEnd d.pos d.data.length)), d) := by
      rw [next, Reader.atOffset, if_pos beyond]
    exact .inl ⟨_, refused, Nat.ne_of_gt beyond⟩

/-- The end of an entry lies within the file. -/
theorem past_le (bytes : d.data.drop d.pos = taken ++ rest)
    (he : IsEntry d.kind d.term taken entry term) : d.pos + taken.length ≤ d.data.length := by
  have lengths := congrArg List.length bytes
  have := d.kind.varints_ge
  have := he.varints_le
  rw [List.length_drop, List.length_append] at lengths
  omega

/-- The bytes behind an entry have no part in its step. -/
theorem next_of_same_beginning (bytes : d.data.drop d.pos = taken ++ rest)
    (he : IsEntry d.kind d.term taken entry term) (more : Bytes) :
    let other := { d with data := d.data.take (d.pos + taken.length) ++ more }
    other.next = (.ok (some entry), other.past taken term) := by
  intro other
  have whole := past_le bytes he
  have before : (d.data.take d.pos).length = d.pos := List.length_take_of_le (by omega)
  have bytes' : (d.data.take (d.pos + taken.length) ++ more).drop d.pos = taken ++ more := by
    rw [List.take_add, bytes, List.take_left, List.append_assoc, List.drop_left' before]
  have within : d.pos ≤ other.data.length := by
    rw [List.length_append, List.length_take_of_le whole]
    omega
  exact (next_eq_some_iff within).mpr ⟨taken, more, term, bytes', he, rfl⟩

/-- The decoder after some steps. -/
def after (d : TermDecoder) : (steps : Nat) → TermDecoder
  | 0 => d
  | steps + 1 => d.next.2.after steps

theorem after_of_next_eq_self (h : d.next.2 = d) (steps : Nat) : d.after steps = d := by
  induction steps with
  | zero => rfl
  | succ steps ih => rw [after, h, ih]

/-- How many entries the steps take in all. -/
theorem exists_entries (d : TermDecoder) : ∃ n, n * d.kind.varints ≤ d.data.length - d.pos ∧
    (∀ i < n, ∃ entry, (d.after i).next.1 = .ok (some entry)) ∧
    (∀ entry, (d.after n).next.1 ≠ .ok (some entry)) ∧ ∀ i, n ≤ i → d.after i = d.after n := by
  -- On the bytes that are left, of which every entry takes some.
  induction hn : d.data.length - d.pos using Nat.strongRecOn generalizing d with
  | ind left ih =>
      by_cases takes : ∃ entry, d.next.1 = .ok (some entry)
      · rcases d.next_cases with ⟨f, h, _⟩ | ⟨h, _⟩ | ⟨entry, taken, rest, term, bytes, he, h⟩
        · rw [h] at takes
          cases takes.choose_spec
        · rw [h] at takes
          cases takes.choose_spec
        · have whole := past_le bytes he
          have some_bytes := he.varints_le
          have least := d.kind.varints_ge
          have fewer : (d.past taken term).data.length - (d.past taken term).pos < left := by
            simp only [past]
            omega
          obtain ⟨n, bound, taking, ended, stays⟩ := ih _ fewer (d.past taken term) rfl
          have goes (i : Nat) : d.after (i + 1) = (d.past taken term).after i := by rw [after, h]
          refine ⟨n + 1, ?_, ?_, by rwa [goes], ?_⟩
          · simp only [past] at bound
            rw [Nat.succ_mul]
            omega
          · intro i hi
            cases i with
            | zero => exact takes
            | succ i =>
                rw [goes]
                exact taking i (Nat.lt_of_succ_lt_succ hi)
          · intro i hi
            obtain ⟨i, rfl⟩ := Nat.exists_eq_succ_of_ne_zero (Nat.ne_zero_of_lt hi)
            rw [goes, goes]
            exact stays i (Nat.le_of_succ_le_succ hi)
      · have none_taken : ∀ entry, d.next.1 ≠ .ok (some entry) := fun entry h => takes ⟨entry, h⟩
        have stays := after_of_next_eq_self (eq_of_next rfl none_taken)
        exact ⟨0, by omega, nofun, none_taken, fun i _ => stays i⟩

/-- For any bytes, any place and any previous term: a step fails and leaves the place and the term
as they were, so that the next one fails alike; or it reports the end, exactly at the end of the
file; or it takes the bytes of a whole entry within the file, and does so whatever stands behind
them. An entry that stands at the place is taken. The steps come to the end or a fault after at
most one entry for each three bytes, and stay there. -/
theorem decodes_whole_entries (d : TermDecoder) :
    ((∃ f, d.next = (.error f, d)) ∨ d.next = (.ok none, d) ∨
      ∃ entry taken rest term, d.data.drop d.pos = taken ++ rest ∧
        IsEntry d.kind d.term taken entry term ∧
        d.next = (.ok (some entry), { d with pos := d.pos + taken.length, term := term }) ∧
        d.kind.varints ≤ taken.length ∧ d.pos + taken.length ≤ d.data.length ∧
        ∀ more, let data := d.data.take (d.pos + taken.length) ++ more
          next { d with data := data } = (.ok (some entry),
            { d with data := data, pos := d.pos + taken.length, term := term })) ∧
    (∀ entry d', d.pos ≤ d.data.length → (d.next = (.ok (some entry), d') ↔
      ∃ taken rest term, d.data.drop d.pos = taken ++ rest ∧
        IsEntry d.kind d.term taken entry term ∧
        d' = { d with pos := d.pos + taken.length, term := term })) ∧
    (d.next.1 = .ok none ↔ d.pos = d.data.length) ∧
    ∃ n ≤ d.data.length / 3, (∀ i < n, ∃ entry, (d.after i).next.1 = .ok (some entry)) ∧
      (∀ entry, (d.after n).next.1 ≠ .ok (some entry)) ∧ ∀ i, n ≤ i → d.after i = d.after n := by
  refine ⟨?_, fun _ _ within => next_eq_some_iff within, ?_, ?_⟩
  · rcases d.next_cases with ⟨f, h, _⟩ | ⟨h, _⟩ | ⟨entry, taken, rest, term, bytes, he, h⟩
    · exact .inl ⟨f, h⟩
    · exact .inr (.inl h)
    · exact .inr (.inr ⟨entry, taken, rest, term, bytes, he, h, he.varints_le, past_le bytes he,
        next_of_same_beginning bytes he⟩)
  · rcases d.next_cases with ⟨f, h, inside⟩ | ⟨h, ended⟩ | ⟨entry, taken, _, _, bytes, he, h⟩
    · rw [h]
      exact ⟨nofun, fun ended => absurd ended inside⟩
    · rw [h]
      exact ⟨fun _ => ended, fun _ => rfl⟩
    · have := past_le bytes he
      have := he.varints_le
      have := d.kind.varints_ge
      rw [h]
      exact ⟨nofun, fun ended => by omega⟩
  · obtain ⟨n, bound, taking, ended, stays⟩ := d.exists_entries
    have least := Nat.mul_le_mul_left n d.kind.varints_ge
    refine ⟨n, ?_, taking, ended, stays⟩
    rw [Nat.le_div_iff_mul_le (by decide)]
    omega

/-- Two entries are taken, and a third that removes nine bytes of a term of one is refused for
good. -/
example :
    let d : TermDecoder := ⟨.string, [0, 1, 97, 0, 1, 1, 1, 98, 2, 2, 9, 0, 2], 0, []⟩
    d.next = (.ok (some ⟨0, 0, 1⟩), { d with pos := 5, term := [97] }) ∧
      (d.after 1).next = (.ok (some ⟨0, 2, 2⟩), { d with pos := 10, term := [98] }) ∧
      (d.after 2).next = (.error (.removal 9 1 10), d.after 2) ∧ d.after 5 = d.after 2 :=
  ⟨rfl, rfl, rfl, rfl⟩

end TermDecoder
end TermStats

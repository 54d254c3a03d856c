import TermStats.Proofs.Wire.Items

/-!
What a decoder accepts. Overlong integers and shorter shared prefixes than there could be make no
difference to the events, which are those of the layout but for one thing: a group may come again
right after itself. Streams without such a group, and only those, can be encoded again.
-/

namespace TermStats

theorem Reader.readBytes_ok {r r' : Reader} {count : Nat} {bytes : Bytes}
    (h : r.readBytes count = .ok (bytes, r')) :
    bytes.length = count ∧ bytes.length + r'.rest.length = r.rest.length := by
  simp only [readBytes] at h
  split at h
  · cases h
  · rename_i enough
    cases h
    simp only [List.length_take, List.length_drop]
    omega

namespace Wire

open Result

def TermRecord.Distinct (r : TermRecord) : Prop :=
  (r.groups.map (·.group)).Nodup

/-- What a decoder may yield next: what the layout allows, or a term that it would allow if none of
its groups came again. -/
inductive Decodable : Scope → Event → Scope → Prop where
  | allowed {scope next : Scope} {ev : Event} : Allowed scope ev next → Decodable scope ev next
  | repeating {kind : TermKind} {numStats : Nat} (r : TermRecord) (ofKind : r.term.kind = kind)
      (idFits : IdFits r.term) (ascends : (r.groups.map (·.group)).Pairwise (· ≤ ·))
      (repeats : ¬ r.Distinct) (widths : ∀ row ∈ r.groups, row.Fits numStats) :
      Decodable (.inField kind numStats) (.term r) (.inField kind numStats)

/-- The event lists that a decoder yields from one place to another. -/
inductive Decoded : Scope → List Event → Scope → Prop where
  | nil (scope : Scope) : Decoded scope [] scope
  | cons {scope next last : Scope} {ev : Event} {events : List Event} :
      Decodable scope ev next → Decoded next events last → Decoded scope (ev :: events) last

/-- A term is decodable in its field whether or not its groups repeat. -/
theorem Decodable.term {kind : TermKind} {numStats : Nat} {r : TermRecord}
    (ofKind : r.term.kind = kind) (idFits : IdFits r.term)
    (ascends : (r.groups.map (·.group)).Pairwise (· ≤ ·))
    (widths : ∀ row ∈ r.groups, row.Fits numStats) :
    Decodable (.inField kind numStats) (.term r) (.inField kind numStats) := by
  by_cases distinct : r.Distinct
  · refine .allowed (.term r ofKind idFits ?_ widths)
    exact (List.pairwise_and_iff.mpr ⟨ascends, distinct⟩).imp fun ⟨le, ne⟩ =>
      Std.lt_of_le_of_ne le ne
  · exact .repeating r ofKind idFits ascends distinct widths

/-- The number of stats in the open field, if there is one. -/
def Scope.HasStats (scope : Scope) (n : Nat) : Prop :=
  ∀ kind numStats, scope = .inField kind numStats → n = numStats

theorem Scope.hasStats_outside (n : Nat) : Scope.outside.HasStats n :=
  nofun

theorem Scope.hasStats_ended (n : Nat) : Scope.ended.HasStats n :=
  nofun

section Encoding

variable {scope next last : Scope} {ev : Event} {events : List Event} {e : Encoder}

theorem Allowed.event_ok (h : Allowed scope ev next) (stats : scope.HasStats e.numStats) :
    ∃ bytes e', e.event ev = .ok (bytes, e') ∧ next.HasStats e'.numStats := by
  cases h with
  | fieldStart name kind numStats =>
      refine ⟨_, _, rfl, ?_⟩
      intro _ _ h
      cases h
      rfl
  | term r ofKind idFits ascends widths =>
      have same := stats _ _ rfl
      refine ⟨_, _, term_ok same ascends widths, ?_⟩
      intro _ _ h
      cases h
      exact (numStats_termKey e r.term).trans same
  | fieldEnd => exact ⟨_, _, rfl, nofun⟩
  | streamEnd => exact ⟨_, _, rfl, nofun⟩

theorem event_of_repeating {numStats : Nat} {r : TermRecord} (stats : e.numStats = numStats)
    (repeats : ¬ r.Distinct) (widths : ∀ row ∈ r.groups, row.Fits numStats) :
    e.event (.term r) = .error .groupOrder := by
  have unsorted : ascending (r.groups.map (·.group)) = false := by
    refine Bool.eq_false_iff.mpr fun sorted => repeats ?_
    exact ((ascending_iff UInt32.lt_trans).mp sorted).imp Std.ne_of_lt
  simp only [Encoder.event, Encoder.term, length_stats widths, stats, ne_eq, not_true_eq_false,
    if_false, unsorted, Bool.not_false, if_true]

theorem Decoded.leads (h : Decoded scope events last)
    (distinct : ∀ r, .term r ∈ events → r.Distinct) : Leads scope events last := by
  induction h with
  | nil scope => exact .nil scope
  | cons decodable _ ih =>
      refine .cons ?_ (ih fun r hr => distinct r (List.mem_cons_of_mem _ hr))
      cases decodable with
      | allowed h => exact h
      | repeating r ofKind idFits ascends repeats widths =>
          exact absurd (distinct r List.mem_cons_self) repeats

/-- The encoder refuses the first record in which a group repeats. -/
theorem Decoded.refused (h : Decoded scope events last) (stats : scope.HasStats e.numStats)
    {r : TermRecord} (hr : .term r ∈ events) (repeats : ¬ r.Distinct) :
    e.events events = .error .groupOrder := by
  induction h generalizing e with
  | nil scope => cases hr
  | cons decodable _ ih =>
      cases decodable with
      | repeating r' ofKind idFits ascends repeats' widths =>
          rw [Encoder.events, event_of_repeating (stats _ _ rfl) repeats' widths]
          rfl
      | allowed allowed =>
          obtain ⟨bytes, e', hev, stats'⟩ := allowed.event_ok stats
          rw [Encoder.events, hev]
          rcases List.mem_cons.mp hr with rfl | hr
          · cases allowed with
            | term _ _ _ ascends _ => exact absurd (ascends.imp Std.ne_of_lt) repeats
          · simp only [bind, Except.bind, ih stats' hr]

end Encoding

theorem readStats_ok {count : Nat} {r r' : Reader} {stats : List Int64}
    (h : readStats count r = .ok (stats, r')) : stats.length = count := by
  induction count generalizing r r' stats with
  | zero =>
      cases h
      rfl
  | succ count ih =>
      simp only [readStats, bind_eq_ok] at h
      obtain ⟨_, _, ⟨others, r₂⟩, hothers, h⟩ := h
      cases h
      exact congrArg (· + 1) (ih hothers)

theorem readGroups_ok {numStats count last : Nat} {r r' : Reader} {groups : List GroupRow}
    (h : readGroups numStats count last r = .ok (groups, r')) :
    (∀ row ∈ groups, row.Fits numStats ∧ last ≤ row.group.toNat) ∧
      (groups.map (·.group)).Pairwise (· ≤ ·) := by
  induction count generalizing last r r' groups with
  | zero =>
      cases h
      exact ⟨nofun, .nil⟩
  | succ count ih =>
      simp only [readGroups, bind_eq_ok, mapError_eq_ok] at h
      obtain ⟨⟨delta, r₁⟩, _, h⟩ := h
      split at h
      · exact absurd h throw_ne_ok
      · rename_i inRange
        simp only [bind_eq_ok, mapError_eq_ok] at h
        obtain ⟨⟨stats, r₂⟩, hstats, ⟨others, r₃⟩, hothers, h⟩ := h
        cases h
        obtain ⟨hrows, hascends⟩ := ih hothers
        have group : (last + delta.toNat).toUInt32.toNat = last + delta.toNat :=
          UInt32.toNat_ofNat_of_lt' (Nat.lt_of_not_le inRange)
        refine ⟨List.forall_mem_cons.mpr ⟨⟨readStats_ok hstats, ?_⟩, fun row hrow => ?_⟩,
          List.pairwise_cons.mpr ⟨fun g hg => ?_, hascends⟩⟩
        · rw [group]
          exact Nat.le_add_right _ _
        · exact ⟨(hrows row hrow).1, Nat.le_trans (Nat.le_add_right _ _) (hrows row hrow).2⟩
        · obtain ⟨row, hrow, rfl⟩ := List.mem_map.mp hg
          rw [UInt32.le_iff_toNat_le, group]
          exact (hrows row hrow).2

namespace Decoder

/-- The decoder is at this place in the order of records, with the stats of the open field, and a
word counts all bytes that may come to an id. -/
structure Stands (scope : Scope) (d : Decoder) : Prop where
  place : d.place = scope.place
  stats : scope.HasStats d.numStats
  bytes : d.prevBytes.length + d.reader.rest.length < 2 ^ 64

theorem stands_start {data : Bytes} (short : data.length < 2 ^ 64) :
    (ofBytes data).Stands .outside :=
  ⟨rfl, nofun, by simpa [ofBytes, Reader.ofBytes] using short⟩

variable {d d' : Decoder} {ev : Event} {events : List Event} {scope : Scope}

theorem readFieldStart_ok (h : d.readFieldStart = .ok (ev, d'))
    (short : d.reader.rest.length < 2 ^ 64) :
    ∃ next, Allowed .outside ev next ∧ d'.Stands next := by
  have fewer := length_of_readFieldStart h
  simp only [readFieldStart, bind_eq_ok, mapError_eq_ok] at h
  obtain ⟨⟨tag, r₁⟩, _, h⟩ := h
  split at h
  · rename_i kind _
    simp only [bind_eq_ok, mapError_eq_ok] at h
    obtain ⟨⟨length, r₂⟩, _, ⟨bytes, r₃⟩, hbytes, h⟩ := h
    split at h
    · rename_i name hname
      simp only [bind_eq_ok, mapError_eq_ok] at h
      obtain ⟨⟨numStats, r₄⟩, _, h⟩ := h
      cases h
      have nameFits : (Text.encode name).length < 2 ^ 64 := by
        rw [Text.encode_of_decode? hname, (Reader.readBytes_ok hbytes).1]
        exact length.toNat_lt
      refine ⟨_, .fieldStart name kind numStats.toNat nameFits numStats.toNat_lt, rfl, ?_, ?_⟩
      · intro _ _ h
        cases h
        rfl
      · dsimp only at fewer ⊢
        simp only [List.length_nil, Nat.zero_add]
        omega
    · exact absurd h throw_ne_ok
  · exact absurd h throw_ne_ok

/-- The bytes of an id come from those of the id before it and from the stream. -/
theorem readTermKey_ok {kind : TermKind} {id : TermId} (h : d.readTermKey kind = .ok (id, d'))
    (short : d.prevBytes.length + d.reader.rest.length < 2 ^ 64) :
    id.kind = kind ∧ IdFits id ∧ d'.place = d.place ∧ d'.numStats = d.numStats ∧
      d'.prevBytes.length + d'.reader.rest.length < 2 ^ 64 := by
  have fewer := length_of_readTermKey h
  cases kind with
  | int =>
      simp only [readTermKey, bind_eq_ok, mapError_eq_ok] at h
      obtain ⟨⟨delta, r₁⟩, _, h⟩ := h
      cases h
      refine ⟨rfl, trivial, rfl, rfl, ?_⟩
      dsimp only at fewer ⊢
      omega
  | string =>
      simp only [readTermKey, bind_eq_ok, mapError_eq_ok] at h
      obtain ⟨⟨shared, r₁⟩, hshared, ⟨added, r₂⟩, hadded, h⟩ := h
      split at h
      · exact absurd h throw_ne_ok
      · simp only [bind_eq_ok, mapError_eq_ok] at h
        obtain ⟨⟨suffix, r₃⟩, hsuffix, h⟩ := h
        cases h
        have h₁ := Reader.length_of_readU64 hshared
        have h₂ := Reader.length_of_readU64 hadded
        have h₃ := (Reader.readBytes_ok hsuffix).2
        have total :
            (d.prevBytes.take shared.toNat ++ suffix).length + r₃.rest.length < 2 ^ 64 := by
          rw [List.length_append, List.length_take]
          dsimp only at h₁ h₂ h₃
          omega
        exact ⟨rfl, Nat.lt_of_le_of_lt (Nat.le_add_right _ _) total, rfl, rfl, total⟩

theorem readTerm_ok {kind : TermKind} {numStats : Nat} (h : d.readTerm kind = .ok (ev, d'))
    (stands : d.Stands (.inField kind numStats)) :
    Decodable (.inField kind numStats) ev (.inField kind numStats) ∧
      d'.Stands (.inField kind numStats) := by
  simp only [readTerm, bind_eq_ok, mapError_eq_ok] at h
  obtain ⟨⟨id, d₁⟩, hid, ⟨docFreq, r₂⟩, hfreq, ⟨count, r₃⟩, hcount, ⟨groups, r₄⟩, hgroups, h⟩ := h
  cases h
  obtain ⟨hkind, fits, hplace, hstats, hbytes⟩ := readTermKey_ok hid stands.bytes
  have same : d₁.numStats = numStats := hstats.trans (stands.stats _ _ rfl)
  obtain ⟨rows, ascends⟩ := readGroups_ok hgroups
  refine ⟨.term hkind fits ascends fun row hrow => same ▸ (rows row hrow).1,
    hplace.trans stands.place, ?_, ?_⟩
  · intro _ _ h
    cases h
    exact same
  · have h₂ := Reader.length_of_readU64 hfreq
    have h₃ := Reader.length_of_readU64 hcount
    have h₄ := Decoder.length_of_readGroups hgroups
    dsimp only at h₂ h₃ h₄ hbytes ⊢
    omega

theorem readRecord_ok {tag : RecordTag} (h : d.readRecord tag = .ok (ev, d'))
    (stands : d.Stands scope) : ∃ next, Decodable scope ev next ∧ d'.Stands next := by
  simp only [readRecord, stands.place] at h
  cases scope with
  | outside =>
      cases tag with
      | fieldStart =>
          have short := Nat.lt_of_le_of_lt (Nat.le_add_left _ _) stands.bytes
          obtain ⟨next, allowed, stands'⟩ := readFieldStart_ok h short
          exact ⟨next, .allowed allowed, stands'⟩
      | streamEnd =>
          cases h
          exact ⟨.ended, .allowed .streamEnd, rfl, Scope.hasStats_ended _, stands.bytes⟩
      | term | fieldEnd => cases h
  | inField kind numStats =>
      cases tag with
      | term => exact ⟨_, readTerm_ok h stands⟩
      | fieldEnd =>
          cases h
          exact ⟨.outside, .allowed .fieldEnd, rfl, Scope.hasStats_outside _, stands.bytes⟩
      | fieldStart | streamEnd => cases h
  | ended => cases tag <;> cases h

theorem next_ok (h : d.next = (some (.ok ev), d')) (stands : d.Stands scope) :
    ∃ next, Decodable scope ev next ∧ d'.Stands next := by
  obtain ⟨_, _, _, h⟩ := next_eq_ok.mp h
  simp only [readEvent, bind_eq_ok, mapError_eq_ok] at h
  obtain ⟨⟨byte, r₁⟩, hbyte, h⟩ := h
  split at h
  · have fewer := Reader.length_of_readByte hbyte
    refine readRecord_ok h ⟨stands.place, stands.stats, ?_⟩
    have := stands.bytes
    dsimp only at fewer ⊢
    omega
  · exact absurd h throw_ne_ok

theorem Yields.decoded (h : d.Yields events d') (stands : d.Stands scope) :
    ∃ last, Decoded scope events last ∧ d'.Stands last := by
  induction h generalizing scope with
  | nil d => exact ⟨scope, .nil scope, stands⟩
  | cons hnext _ ih =>
      obtain ⟨next, decodable, stands'⟩ := next_ok hnext stands
      obtain ⟨last, decoded, stands''⟩ := ih stands'
      exact ⟨last, .cons decodable decoded, stands''⟩

end Decoder

/-- Of the streams that are accepted, those can be encoded again, with the same events, in which no
record repeats a group; the others are refused for the order of their groups. -/
theorem accepted_stream_encodes_again {data : Bytes} {events : List Event}
    (short : data.length < 2 ^ 64) (accepted : decodeStream data = .ok events) :
    Decoded .outside events .ended ∧
      ((∃ out, Encoder.start.events events = .ok out) ↔ ∀ r, .term r ∈ events → r.Distinct) ∧
      (∀ bytes e, Encoder.start.events events = .ok (bytes, e) →
        Leads .outside events .ended ∧ decodeStream bytes = .ok events) ∧
      ∀ f, Encoder.start.events events = .error f → f = .groupOrder := by
  obtain ⟨d, yields, ended, _⟩ := decodeStream_eq_ok.mp accepted
  obtain ⟨last, decoded, stands⟩ := yields.decoded (Decoder.stands_start short)
  have atEnd : last = .ended := by
    have place := stands.place
    rw [ended] at place
    cases last with
    | ended => rfl
    | outside | inField => cases place
  subst atEnd
  refine ⟨decoded, ?_⟩
  by_cases distinct : ∀ r, .term r ∈ events → r.Distinct
  · have leads := decoded.leads distinct
    obtain ⟨bytes, e, h⟩ := events_ok leads (tracks_start data)
    have again := decodeStream_encode leads h
    rw [h]
    refine ⟨⟨fun _ => distinct, fun _ => ⟨_, rfl⟩⟩, fun bytes' e' same => ?_, nofun⟩
    cases same
    exact ⟨leads, again⟩
  · obtain ⟨r, hr⟩ := not_forall.mp distinct
    obtain ⟨hr, repeats⟩ := Classical.not_imp.mp hr
    rw [decoded.refused nofun hr repeats]
    refine ⟨⟨fun ⟨_, h⟩ => (nomatch h), fun h => absurd h distinct⟩, nofun, fun f h => ?_⟩
    cases h
    rfl

/-- An id with an overlong delta, of a term in groups 1 and 3, and one whose second group is its
first again. -/
theorem accepted_stream_encodes_again_once :
    (∃ bytes e, Encoder.start.events [.fieldStart "f" .int 0, .term ⟨.int 1, 1, [⟨1, []⟩, ⟨3, []⟩]⟩,
        .fieldEnd, .streamEnd] = .ok (bytes, e) ∧
      decodeStream bytes = decodeStream [1, 1, 1, 102, 0, 2, 130, 0, 1, 2, 1, 2, 3, 4]) ∧
    decodeStream [1, 1, 1, 102, 0, 2, 2, 1, 2, 2, 0, 3, 4] =
      .ok [.fieldStart "f" .int 0, .term ⟨.int 1, 1, [⟨2, []⟩, ⟨2, []⟩]⟩, .fieldEnd, .streamEnd] ∧
    Encoder.start.events [.fieldStart "f" .int 0, .term ⟨.int 1, 1, [⟨2, []⟩, ⟨2, []⟩]⟩, .fieldEnd,
      .streamEnd] = .error .groupOrder := by
  have distinct : decodeStream [1, 1, 1, 102, 0, 2, 130, 0, 1, 2, 1, 2, 3, 4] =
      .ok [.fieldStart "f" .int 0, .term ⟨.int 1, 1, [⟨1, []⟩, ⟨3, []⟩]⟩, .fieldEnd,
        .streamEnd] := by
    exact ok_of_toOption (by decide +kernel)
  have repeating : decodeStream [1, 1, 1, 102, 0, 2, 2, 1, 2, 2, 0, 3, 4] =
      .ok [.fieldStart "f" .int 0, .term ⟨.int 1, 1, [⟨2, []⟩, ⟨2, []⟩]⟩, .fieldEnd,
        .streamEnd] := by
    exact ok_of_toOption (by decide +kernel)
  refine ⟨?_, repeating, ?_⟩
  · obtain ⟨_, encodes, again, _⟩ := accepted_stream_encodes_again (by decide) distinct
    obtain ⟨⟨bytes, e⟩, h⟩ := encodes.mpr (by simp [TermRecord.Distinct])
    exact ⟨bytes, e, h, (again bytes e h).2.trans distinct.symm⟩
  · obtain ⟨_, encodes, _, refused⟩ := accepted_stream_encodes_again (by decide) repeating
    cases h : Encoder.start.events [.fieldStart "f" .int 0,
        .term ⟨.int 1, 1, [⟨2, []⟩, ⟨2, []⟩]⟩, .fieldEnd, .streamEnd] with
    | ok out =>
        have distinct := encodes.mp ⟨out, h⟩ ⟨.int 1, 1, [⟨2, []⟩, ⟨2, []⟩]⟩ (by simp)
        simp [TermRecord.Distinct] at distinct
    | error f => rw [refused f h]

end Wire
end TermStats

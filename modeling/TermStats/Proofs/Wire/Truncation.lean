import TermStats.Proofs.Varint.Extension
import TermStats.Proofs.Wire.Items

/-!
Streams that were cut off, or go on. What a decoder has yielded stays when more bytes follow, so a
part of a stream yields the first of its events; and the accepted streams are prefix-free, because a
decoder stops at the end of a stream.
-/

namespace TermStats.Wire

open Result

theorem readStats_extend {count : Nat} {r r' : Reader} {stats : List Int64}
    (h : readStats count r = .ok (stats, r')) (more : Bytes) :
    readStats count (r.extend more) = .ok (stats, r'.extend more) := by
  induction count generalizing r r' stats with
  | zero =>
      cases h
      rfl
  | succ count ih =>
      simp only [readStats, bind_eq_ok] at h ⊢
      obtain ⟨⟨stat, r₁⟩, hstat, ⟨others, r₂⟩, hothers, h⟩ := h
      cases h
      exact ⟨_, Reader.readZigzag_extend hstat more, _, ih hothers, rfl⟩

theorem readGroups_extend {numStats count last : Nat} {r r' : Reader} {groups : List GroupRow}
    (h : readGroups numStats count last r = .ok (groups, r')) (more : Bytes) :
    readGroups numStats count last (r.extend more) = .ok (groups, r'.extend more) := by
  induction count generalizing last r r' groups with
  | zero =>
      cases h
      rfl
  | succ count ih =>
      simp only [readGroups, bind_eq_ok, mapError_eq_ok] at h ⊢
      obtain ⟨⟨delta, r₁⟩, hdelta, h⟩ := h
      refine ⟨_, Reader.readU64_extend hdelta more, ?_⟩
      split at h
      · exact absurd h throw_ne_ok
      · rename_i inRange
        rw [if_neg inRange]
        simp only [bind_eq_ok, mapError_eq_ok] at h ⊢
        obtain ⟨⟨stats, r₂⟩, hstats, ⟨others, r₃⟩, hothers, h⟩ := h
        cases h
        exact ⟨_, readStats_extend hstats more, _, ih hothers, rfl⟩

namespace Decoder

/-- The decoder at the same place, with more bytes behind those that it has. -/
def extend (d : Decoder) (more : Bytes) : Decoder :=
  { d with reader := d.reader.extend more }

variable {d d' : Decoder} {ev : Event} {events : List Event}

theorem readFieldStart_extend (h : d.readFieldStart = .ok (ev, d')) (more : Bytes) :
    (d.extend more).readFieldStart = .ok (ev, d'.extend more) := by
  simp only [readFieldStart, bind_eq_ok, mapError_eq_ok] at h ⊢
  obtain ⟨⟨tag, r₁⟩, htag, h⟩ := h
  refine ⟨_, Reader.readByte_extend htag more, ?_⟩
  split at h
  · rename_i hkind
    simp only [bind_eq_ok, mapError_eq_ok] at h
    obtain ⟨⟨length, r₂⟩, hlength, ⟨bytes, r₃⟩, hbytes, h⟩ := h
    simp only [hkind, bind_eq_ok, mapError_eq_ok]
    refine ⟨_, Reader.readU64_extend hlength more, _, Reader.readBytes_extend hbytes more, ?_⟩
    split at h
    · rename_i hname
      simp only [bind_eq_ok, mapError_eq_ok] at h
      obtain ⟨⟨numStats, r₄⟩, hstats, h⟩ := h
      cases h
      simp only [hname, bind_eq_ok, mapError_eq_ok]
      exact ⟨_, Reader.readU64_extend hstats more, rfl⟩
    · exact absurd h throw_ne_ok
  · exact absurd h throw_ne_ok

theorem readTermKey_extend {kind : TermKind} {id : TermId}
    (h : d.readTermKey kind = .ok (id, d')) (more : Bytes) :
    (d.extend more).readTermKey kind = .ok (id, d'.extend more) := by
  cases kind with
  | int =>
      simp only [readTermKey, bind_eq_ok, mapError_eq_ok] at h ⊢
      obtain ⟨⟨delta, r₁⟩, hdelta, h⟩ := h
      cases h
      exact ⟨_, Reader.readZigzag_extend hdelta more, rfl⟩
  | string =>
      simp only [readTermKey, bind_eq_ok, mapError_eq_ok] at h ⊢
      obtain ⟨⟨shared, r₁⟩, hshared, ⟨added, r₂⟩, hadded, h⟩ := h
      refine ⟨_, Reader.readU64_extend hshared more, _, Reader.readU64_extend hadded more, ?_⟩
      split at h
      · exact absurd h throw_ne_ok
      · rename_i within
        simp only [bind_eq_ok, mapError_eq_ok] at h
        obtain ⟨⟨suffix, r₃⟩, hsuffix, h⟩ := h
        cases h
        refine (if_neg within).trans ?_
        simp only [bind_eq_ok, mapError_eq_ok]
        exact ⟨_, Reader.readBytes_extend hsuffix more, rfl⟩

theorem readTerm_extend {kind : TermKind} (h : d.readTerm kind = .ok (ev, d')) (more : Bytes) :
    (d.extend more).readTerm kind = .ok (ev, d'.extend more) := by
  simp only [readTerm, bind_eq_ok, mapError_eq_ok] at h ⊢
  obtain ⟨⟨id, d₁⟩, hid, ⟨docFreq, r₂⟩, hfreq, ⟨count, r₃⟩, hcount, ⟨groups, r₄⟩, hgroups, h⟩ := h
  cases h
  exact ⟨_, readTermKey_extend hid more, _, Reader.readU64_extend hfreq more, _,
    Reader.readU64_extend hcount more, _, readGroups_extend hgroups more, rfl⟩

theorem readRecord_extend {tag : RecordTag} (h : d.readRecord tag = .ok (ev, d')) (more : Bytes) :
    (d.extend more).readRecord tag = .ok (ev, d'.extend more) := by
  simp only [readRecord, extend] at h ⊢
  split at h
  · exact readFieldStart_extend h more
  · exact readTerm_extend h more
  · cases h
    rfl
  · cases h
    rfl
  · cases h

theorem readEvent_extend (h : d.readEvent = .ok (ev, d')) (more : Bytes) :
    (d.extend more).readEvent = .ok (ev, d'.extend more) := by
  simp only [readEvent, bind_eq_ok, mapError_eq_ok] at h ⊢
  obtain ⟨⟨byte, r₁⟩, hbyte, h⟩ := h
  refine ⟨_, Reader.readByte_extend hbyte more, ?_⟩
  split at h
  · rename_i htag
    simp only [htag]
    exact readRecord_extend h more
  · exact absurd h throw_ne_ok

/-- An event that has been read is the same whatever follows. -/
theorem next_extend (h : d.next = (some (.ok ev), d')) (more : Bytes) :
    (d.extend more).next = (some (.ok ev), d'.extend more) := by
  obtain ⟨going, unended, some_bytes, hread⟩ := next_eq_ok.mp h
  exact next_eq_ok.mpr ⟨going, unended, List.append_ne_nil_of_left_ne_nil some_bytes more,
    readEvent_extend hread more⟩

theorem Yields.extend (h : d.Yields events d') (more : Bytes) :
    (d.extend more).Yields events (d'.extend more) := by
  induction h with
  | nil d => exact .nil _
  | cons hnext _ ih => exact .cons (next_extend hnext more) ih

/-- The events of a decoder come first when more bytes follow. -/
theorem yielded_extend (d : Decoder) (more : Bytes) : d.yielded <+: (d.extend more).yielded := by
  obtain ⟨d', _, yields, _⟩ := d.exists_yields
  obtain ⟨last, fault, others, stops, _⟩ := (d'.extend more).exists_yields
  rw [((yields.extend more).trans others).eq_yielded stops]
  exact List.prefix_append _ _

end Decoder

/-- Nothing may follow a stream that is accepted. -/
theorem decodeStream_append {data more : Bytes} {events : List Event}
    (h : decodeStream data = .ok events) (some_more : more ≠ []) :
    decodeStream (data ++ more) = .error .trailingBytes := by
  obtain ⟨d, yields, ended, used⟩ := decodeStream_eq_ok.mp h
  have complete : (d.extend more).isComplete = true := by
    simp [Decoder.isComplete, Decoder.extend, ended]
  have stops : (d.extend more).items = ([], d.extend more) := by
    apply Decoder.items_of_none
    rw [Decoder.next, if_pos (.inr (.inl complete))]
  have left : (d.extend more).reader.isEmpty = false := by
    simp [Decoder.extend, Reader.extend, Reader.isEmpty, used, some_more]
  have whole := (yields.extend more).items
  rw [stops] at whole
  have start : Decoder.ofBytes (data ++ more) = (Decoder.ofBytes data).extend more := rfl
  simp only [decodeStream, start, whole, List.append_nil, mapM_ok, bind, Except.bind, complete,
    left]
  rfl

/-- A part of a stream that is accepted is not. -/
theorem decodeStream_of_prefix {part data : Bytes} {events : List Event}
    (h : decodeStream data = .ok events) (cut : part <+: data) (proper : part ≠ data) :
    ∃ f, decodeStream part = .error f := by
  obtain ⟨more, rfl⟩ := cut
  cases hpart : decodeStream part with
  | error f => exact ⟨f, rfl⟩
  | ok events' =>
      have some_more : more ≠ [] := fun h => proper (by rw [h, List.append_nil])
      rw [decodeStream_append hpart some_more] at h
      cases h

/-- A stream that was cut off never passes for another. A decoder yields its events, at most one
fault and then nothing; on a part of the bytes it yields the first of the events; and next to a
stream that is accepted, no part of it is, nor anything that it is a part of. -/
theorem cut_stream_detected (data : Bytes) :
    (∃ fault : Option StreamFault,
      (Decoder.ofBytes data).items.1 =
        (Decoder.ofBytes data).yielded.map .ok ++ fault.toList.map .error ∧
      (Decoder.ofBytes data).items.2.next = (none, (Decoder.ofBytes data).items.2)) ∧
    (∀ part, part <+: data →
      (Decoder.ofBytes part).yielded <+: (Decoder.ofBytes data).yielded) ∧
    ∀ events, decodeStream data = .ok events → ∀ other, other ≠ data →
      other <+: data ∨ data <+: other → ∃ f, decodeStream other = .error f := by
  refine ⟨?_, ?_, ?_⟩
  · obtain ⟨d, fault, yields, hfault, stops, _⟩ := (Decoder.ofBytes data).exists_yields
    rw [yields.items, hfault]
    exact ⟨fault, rfl, stops⟩
  · rintro part ⟨more, rfl⟩
    exact (Decoder.ofBytes part).yielded_extend more
  · rintro events accepted other differs (cut | ⟨more, rfl⟩)
    · exact decodeStream_of_prefix accepted cut differs
    · have some_more : more ≠ [] := fun h => differs (by rw [h, List.append_nil])
      exact ⟨_, decodeStream_append accepted some_more⟩

/-- An int field with one term, cut inside the stats of the term's group. -/
theorem cut_stream_detected_in_stats :
    decodeStream [1, 1, 1, 120, 1, 2, 20, 3, 1, 2, 200, 1, 3, 4] =
        .ok [.fieldStart "x" .int 1, .term ⟨.int 10, 3, [⟨2, [100]⟩]⟩, .fieldEnd, .streamEnd] ∧
      (Decoder.ofBytes [1, 1, 1, 120, 1, 2, 20, 3, 1, 2, 200]).yielded <+:
        [.fieldStart "x" .int 1, .term ⟨.int 10, 3, [⟨2, [100]⟩]⟩, .fieldEnd, .streamEnd] ∧
      ∃ f, decodeStream [1, 1, 1, 120, 1, 2, 20, 3, 1, 2, 200] = .error f := by
  have accepted : decodeStream [1, 1, 1, 120, 1, 2, 20, 3, 1, 2, 200, 1, 3, 4] =
      .ok [.fieldStart "x" .int 1, .term ⟨.int 10, 3, [⟨2, [100]⟩]⟩, .fieldEnd, .streamEnd] := by
    exact ok_of_toOption (by decide +kernel)
  have cut : [1, 1, 1, 120, 1, 2, 20, 3, 1, 2, 200] <+:
      ([1, 1, 1, 120, 1, 2, 20, 3, 1, 2, 200, 1, 3, 4] : Bytes) := by decide
  obtain ⟨_, parts, rejects⟩ :=
    cut_stream_detected [1, 1, 1, 120, 1, 2, 20, 3, 1, 2, 200, 1, 3, 4]
  refine ⟨accepted, ?_, rejects _ accepted _ (by decide) (.inl cut)⟩
  have whole : (Decoder.ofBytes [1, 1, 1, 120, 1, 2, 20, 3, 1, 2, 200, 1, 3, 4]).yielded =
      [.fieldStart "x" .int 1, .term ⟨.int 10, 3, [⟨2, [100]⟩]⟩, .fieldEnd, .streamEnd] := by
    decide +kernel
  exact whole ▸ parts _ cut

end TermStats.Wire

import TermStats.Proofs.Varint.Taken
import TermStats.Proofs.Wire.CallEvents
import TermStats.Proofs.Wire.Truncation

/-!
Streams with a record that was cut. An event is read from the bytes that it takes, so a part of a
record is none; and behind such a part, or behind a marker that comes once too often, the markers
that end a stream do not end it.
-/

namespace TermStats.Wire

open Result

theorem readStats_taken {count : Nat} {r r' : Reader} {stats : List Int64}
    (h : readStats count r = .ok (stats, r')) :
    ∃ taken, r.rest = taken ++ r'.rest ∧
      readStats count (r.only taken) = .ok (stats, r'.only []) := by
  induction count generalizing r r' stats with
  | zero =>
      cases h
      exact ⟨[], rfl, rfl⟩
  | succ count ih =>
      simp only [readStats, bind_eq_ok] at h ⊢
      obtain ⟨⟨stat, r₁⟩, hstat, ⟨others, r₂⟩, hothers, h⟩ := h
      cases h
      obtain ⟨first, hfirst, readFirst⟩ := Reader.readZigzag_taken hstat
      obtain ⟨more, hmore, readMore⟩ := ih hothers
      refine ⟨first ++ more, ?_, _, Reader.readZigzag_extend readFirst more, _, readMore, rfl⟩
      rw [hfirst, hmore, List.append_assoc]

theorem readGroups_taken {numStats count last : Nat} {r r' : Reader} {groups : List GroupRow}
    (h : readGroups numStats count last r = .ok (groups, r')) :
    ∃ taken, r.rest = taken ++ r'.rest ∧
      readGroups numStats count last (r.only taken) = .ok (groups, r'.only []) := by
  induction count generalizing last r r' groups with
  | zero =>
      cases h
      exact ⟨[], rfl, rfl⟩
  | succ count ih =>
      simp only [readGroups, bind_eq_ok, mapError_eq_ok] at h ⊢
      obtain ⟨⟨delta, r₁⟩, hdelta, h⟩ := h
      split at h
      · exact absurd h throw_ne_ok
      · rename_i inRange
        simp only [bind_eq_ok, mapError_eq_ok] at h
        obtain ⟨⟨stats, r₂⟩, hstats, ⟨others, r₃⟩, hothers, h⟩ := h
        cases h
        obtain ⟨first, hfirst, readFirst⟩ := Reader.readU64_taken hdelta
        obtain ⟨second, hsecond, readSecond⟩ := readStats_taken hstats
        obtain ⟨more, hmore, readMore⟩ := ih hothers
        refine ⟨first ++ (second ++ more), ?_, _, Reader.readU64_extend readFirst _, ?_⟩
        · rw [hfirst, hsecond, hmore, List.append_assoc, List.append_assoc]
        · rw [if_neg inRange]
          simp only [bind_eq_ok, mapError_eq_ok]
          exact ⟨_, readStats_extend readSecond more, _, readMore, rfl⟩

namespace Decoder

/-- The decoder at the same place, with nothing but these bytes. -/
def only (d : Decoder) (bytes : Bytes) : Decoder :=
  { d with reader := d.reader.only bytes }

variable {d d' : Decoder} {ev : Event}

theorem readFieldStart_taken (h : d.readFieldStart = .ok (ev, d')) :
    ∃ taken, d.reader.rest = taken ++ d'.reader.rest ∧
      (d.only taken).readFieldStart = .ok (ev, d'.only []) := by
  simp only [readFieldStart, bind_eq_ok, mapError_eq_ok] at h
  obtain ⟨⟨tag, r₁⟩, htag, h⟩ := h
  split at h
  · rename_i hkind
    simp only [bind_eq_ok, mapError_eq_ok] at h
    obtain ⟨⟨length, r₂⟩, hlength, ⟨bytes, r₃⟩, hbytes, h⟩ := h
    split at h
    · rename_i hname
      simp only [bind_eq_ok, mapError_eq_ok] at h
      obtain ⟨⟨numStats, r₄⟩, hstats, h⟩ := h
      cases h
      obtain ⟨first, readFirst⟩ := Reader.readByte_taken htag
      obtain ⟨size, hsize, readSize⟩ := Reader.readU64_taken hlength
      obtain ⟨name, readName⟩ := Reader.readBytes_taken hbytes
      obtain ⟨width, hwidth, readWidth⟩ := Reader.readU64_taken hstats
      refine ⟨[tag] ++ (size ++ (bytes ++ width)), ?_, ?_⟩
      · rw [first, hsize, name, hwidth]
        simp only [List.cons_append, List.nil_append, List.append_assoc]
      · simp only [readFieldStart, bind_eq_ok, mapError_eq_ok]
        refine ⟨_, Reader.readByte_extend readFirst _, ?_⟩
        simp only [hkind, bind_eq_ok, mapError_eq_ok]
        refine ⟨_, Reader.readU64_extend readSize _, _, Reader.readBytes_extend readName _, ?_⟩
        simp only [hname, bind_eq_ok, mapError_eq_ok]
        exact ⟨_, readWidth, rfl⟩
    · exact absurd h throw_ne_ok
  · exact absurd h throw_ne_ok

theorem readTermKey_taken {kind : TermKind} {id : TermId}
    (h : d.readTermKey kind = .ok (id, d')) :
    ∃ taken, d.reader.rest = taken ++ d'.reader.rest ∧
      (d.only taken).readTermKey kind = .ok (id, d'.only []) := by
  cases kind with
  | int =>
      simp only [readTermKey, bind_eq_ok, mapError_eq_ok] at h ⊢
      obtain ⟨⟨delta, r₁⟩, hdelta, h⟩ := h
      cases h
      obtain ⟨taken, same, read⟩ := Reader.readZigzag_taken hdelta
      exact ⟨taken, same, _, read, rfl⟩
  | string =>
      simp only [readTermKey, bind_eq_ok, mapError_eq_ok] at h ⊢
      obtain ⟨⟨shared, r₁⟩, hshared, ⟨added, r₂⟩, hadded, h⟩ := h
      split at h
      · exact absurd h throw_ne_ok
      · rename_i within
        simp only [bind_eq_ok, mapError_eq_ok] at h
        obtain ⟨⟨suffix, r₃⟩, hsuffix, h⟩ := h
        cases h
        obtain ⟨first, hfirst, readFirst⟩ := Reader.readU64_taken hshared
        obtain ⟨second, hsecond, readSecond⟩ := Reader.readU64_taken hadded
        obtain ⟨same, read⟩ := Reader.readBytes_taken hsuffix
        refine ⟨first ++ (second ++ suffix), ?_, _, Reader.readU64_extend readFirst _, _,
          Reader.readU64_extend readSecond _, ?_⟩
        · dsimp only
          rw [hfirst, hsecond, same, List.append_assoc, List.append_assoc]
        · refine (if_neg within).trans ?_
          simp only [bind_eq_ok, mapError_eq_ok]
          exact ⟨_, read, rfl⟩

theorem readTerm_taken {kind : TermKind} (h : d.readTerm kind = .ok (ev, d')) :
    ∃ taken, d.reader.rest = taken ++ d'.reader.rest ∧
      (d.only taken).readTerm kind = .ok (ev, d'.only []) := by
  simp only [readTerm, bind_eq_ok, mapError_eq_ok] at h ⊢
  obtain ⟨⟨id, d₁⟩, hid, ⟨docFreq, r₂⟩, hfreq, ⟨count, r₃⟩, hcount, ⟨groups, r₄⟩, hgroups, h⟩ := h
  cases h
  obtain ⟨key, hkey, readKey⟩ := readTermKey_taken hid
  obtain ⟨freq, hfreq, readFreq⟩ := Reader.readU64_taken hfreq
  obtain ⟨size, hsize, readSize⟩ := Reader.readU64_taken hcount
  obtain ⟨others, hothers, readOthers⟩ := readGroups_taken hgroups
  refine ⟨key ++ (freq ++ (size ++ others)), ?_, _, readTermKey_extend readKey _, _,
    Reader.readU64_extend readFreq _, _, Reader.readU64_extend readSize _, _, readOthers, rfl⟩
  dsimp only at hfreq hsize hothers ⊢
  rw [hkey, hfreq, hsize, hothers]
  simp only [List.append_assoc]

theorem readRecord_taken {tag : RecordTag} (h : d.readRecord tag = .ok (ev, d')) :
    ∃ taken, d.reader.rest = taken ++ d'.reader.rest ∧
      (d.only taken).readRecord tag = .ok (ev, d'.only []) := by
  simp only [readRecord, only] at h ⊢
  split at h
  · exact readFieldStart_taken h
  · exact readTerm_taken h
  · cases h
    exact ⟨[], rfl, rfl⟩
  · cases h
    exact ⟨[], rfl, rfl⟩
  · cases h

/-- An event is read from the bytes that it takes. -/
theorem readEvent_taken (h : d.readEvent = .ok (ev, d')) :
    ∃ taken, d.reader.rest = taken ++ d'.reader.rest ∧
      (d.only taken).readEvent = .ok (ev, d'.only []) := by
  simp only [readEvent, bind_eq_ok, mapError_eq_ok] at h ⊢
  obtain ⟨⟨byte, r₁⟩, hbyte, h⟩ := h
  obtain ⟨first, readFirst⟩ := Reader.readByte_taken hbyte
  split at h
  · rename_i htag
    obtain ⟨taken, same, read⟩ := readRecord_taken h
    refine ⟨[byte] ++ taken, ?_, _, Reader.readByte_extend readFirst taken, ?_⟩
    · rw [first, List.append_assoc]
      exact congrArg (byte :: ·) same
    · simp only [htag]
      exact read
  · exact absurd h throw_ne_ok

theorem readTerm_place {kind : TermKind} (h : d.readTerm kind = .ok (ev, d')) :
    d'.place = d.place := by
  simp only [readTerm, bind_eq_ok] at h
  obtain ⟨⟨_, _⟩, hid, _, _, _, _, _, _, h⟩ := h
  cases h
  exact (readTermKey_kind hid).2

theorem readEvent_of_tag {tag : RecordTag} {more : Bytes}
    (h : d.reader.rest = tag.byte :: more) :
    d.readEvent = readRecord { d with reader := ⟨d.reader.pos + 1, more⟩ } tag := by
  rw [← readEvent_tag, ← h]

/-- The events that the decoder has still to yield complete a stream. -/
def Ends (d : Decoder) : Prop :=
  ∃ events last, d.Yields events last ∧ last.place = .ended ∧ last.reader.rest = []

theorem Ends.of_yields {events : List Event} (yields : d.Yields events d') (h : d.Ends) :
    d'.Ends := by
  induction yields with
  | nil d => exact h
  | cons hnext _ ih =>
      obtain ⟨others, last, yields, ended, used⟩ := h
      cases yields with
      | nil => exact absurd ended (next_eq_ok.mp hnext).2.1
      | cons hnext' yields =>
          cases hnext.symm.trans hnext'
          exact ih ⟨_, last, yields, ended, used⟩

/-- A decoder that is not at the end reads an event before it is. -/
theorem Ends.exists_readEvent (h : d.Ends) (going : d.place ≠ .ended) :
    ∃ ev d', d.readEvent = .ok (ev, d') ∧ d'.Ends := by
  obtain ⟨events, last, yields, ended, used⟩ := h
  cases yields with
  | nil => exact absurd ended going
  | cons hnext yields =>
      exact ⟨_, _, (next_eq_ok.mp hnext).2.2.2, _, last, yields, ended, used⟩

theorem Ends.rest_of_ended (h : d.Ends) (atEnd : d.place = .ended) : d.reader.rest = [] := by
  obtain ⟨events, last, yields, ended, used⟩ := h
  cases yields with
  | nil => exact used
  | cons hnext _ => exact absurd atEnd (next_eq_ok.mp hnext).2.1

/-- In a field, the end of the stream does not end it, and neither does nothing. -/
theorem not_ends_inField {kind : TermKind} (place : d.place = .inField kind)
    (rest : d.reader.rest = [] ∨ d.reader.rest = [RecordTag.streamEnd.byte]) : ¬ d.Ends := by
  intro ends
  obtain ⟨ev, d', hread, -⟩ := ends.exists_readEvent (by rw [place]; exact nofun)
  rcases rest with rest | rest
  · simp only [readEvent, Reader.readByte, rest, bind_eq_ok, mapError_eq_ok] at hread
    obtain ⟨_, h, _⟩ := hread
    cases h
  · simp only [readEvent_of_tag rest, readRecord, place] at hread
    cases hread

/-- Outside the fields, the end of a field does not come. -/
theorem not_ends_outside {more : Bytes} (place : d.place = .outsideField)
    (rest : d.reader.rest = RecordTag.fieldEnd.byte :: more) : ¬ d.Ends := by
  intro ends
  obtain ⟨ev, d', hread, -⟩ := ends.exists_readEvent (by rw [place]; exact nofun)
  simp only [readEvent_of_tag rest, readRecord, place] at hread
  cases hread

end Decoder

theorem ends_of_decodeStream {data : Bytes} {events : List Event}
    (h : decodeStream data = .ok events) : (Decoder.ofBytes data).Ends := by
  obtain ⟨d, yields, ended, used⟩ := decodeStream_eq_ok.mp h
  exact ⟨events, d, yields, ended, used⟩

/-- The markers that complete a stream. -/
def Scope.markers : Scope → Bytes
  | outside => [RecordTag.streamEnd.byte]
  | inField .. => [RecordTag.fieldEnd.byte, RecordTag.streamEnd.byte]
  | ended => []

theorem Scope.suffix_markers {scope : Scope} {byte : UInt8} {first rest : Bytes}
    (h : scope.markers = byte :: first ++ rest) :
    rest = [] ∨ rest = [RecordTag.streamEnd.byte] := by
  cases scope with
  | outside =>
      obtain ⟨-, h⟩ := List.cons.inj h
      exact .inl (List.append_eq_nil_iff.mp h.symm).2
  | inField =>
      obtain ⟨-, h⟩ := List.cons.inj h
      exact (List.append_eq_singleton_iff.mp h.symm).symm.imp (·.2) (·.2)
  | ended => cases h

section Cut

variable {scope next last : Scope} {ev : Event} {events : List Event} {e e' : Encoder} {d : Decoder}
  {bytes record part : Bytes}

/-- A decoder yields the events that an encoder wrote from the same place on. -/
theorem yields_encode (leads : Leads scope events last) (tracks : Tracks scope e d)
    (h : e.events events = .ok (bytes, e')) (rest : Bytes) :
    ∃ d', d'.reader.rest = rest ∧ Tracks last e' d' ∧
      (d.only (bytes ++ rest)).Yields events d' := by
  induction leads generalizing e d bytes with
  | nil scope =>
      cases h
      exact ⟨d.only rest, rfl, ⟨tracks.place, tracks.failed, tracks.values⟩, .nil _⟩
  | cons allowed _ ih =>
      obtain ⟨first, e₁, more, hfirst, hmore, rfl⟩ := events_cons_eq_ok h
      obtain ⟨some_bytes, d₁, hread, hrest, tracks₁⟩ :=
        readEvent_encode allowed tracks hfirst d.reader.pos (more ++ rest)
      obtain ⟨d', hd', tracks', yields⟩ := ih tracks₁ hmore
      have same : d₁.only (more ++ rest) = d₁ := by
        rw [← hrest]
        rfl
      rw [same] at yields
      have goes : d.place ≠ .ended := tracks.place ▸ allowed.place_ne_ended
      have hnext := Decoder.next_of_readEvent (d := d.only (first ++ (more ++ rest)))
        tracks.failed goes (List.append_ne_nil_of_left_ne_nil some_bytes _) hread
      rw [List.append_assoc]
      exact ⟨d', hd', tracks', .cons hnext yields⟩

/-- What is read from the beginning of a record is all of it. -/
theorem eq_record_of_read (allowed : Allowed scope ev next) (tracks : Tracks scope e d)
    (h : e.event ev = .ok (record, e')) {taken : Bytes} (first : taken <+: record) {ev' : Event}
    {d' : Decoder} (read : (d.only taken).readEvent = .ok (ev', d'.only [])) : taken = record := by
  obtain ⟨left, rfl⟩ := first
  obtain ⟨-, d₂, hread, used, -⟩ := readEvent_encode allowed tracks h d.reader.pos []
  have extended : (d.only (taken ++ left)).readEvent = .ok (ev', d'.only left) :=
    Decoder.readEvent_extend read left
  rw [List.append_nil] at hread
  cases hread.symm.trans extended
  have none_left : left = [] := used
  rw [none_left, List.append_nil]

/-- A part of a record that leaves some of it out is of a term or of the start of a field, and what
is read from there is a record of that kind: it ends in the field. -/
theorem place_of_cut (allowed : Allowed scope ev next) (tracks : Tracks scope e d)
    (h : e.event ev = .ok (record, e')) (cut : part <+: record) (proper : part ≠ record)
    (some_part : part ≠ []) {ev' : Event} {d' : Decoder} {rest : Bytes}
    (read : (d.only (part ++ rest)).readEvent = .ok (ev', d')) :
    ∃ kind, d'.place = .inField kind := by
  obtain ⟨byte, more, rfl⟩ := List.exists_cons_of_ne_nil some_part
  have start {tag : RecordTag} {body : Bytes} (hrecord : record = tag.byte :: body) :
      ∃ reader, (d.only (byte :: more ++ rest)).readEvent =
        Decoder.readRecord { d with reader := reader } tag := by
    rw [hrecord] at cut
    obtain ⟨rfl, -⟩ := List.cons_prefix_cons.mp cut
    exact ⟨_, Decoder.readEvent_of_tag rfl⟩
  have marker {byte' : UInt8} (hrecord : record = [byte']) : False := by
    rw [hrecord] at cut proper
    obtain ⟨rfl, none_more⟩ := List.cons_prefix_cons.mp cut
    exact proper (by rw [List.prefix_nil.mp none_more])
  have place := tracks.place
  cases allowed with
  | fieldStart name kind numStats =>
      cases h
      obtain ⟨reader, start⟩ := start rfl
      rw [start] at read
      simp only [Decoder.readRecord, place, Scope.place] at read
      obtain ⟨_, kind', _, -, place'⟩ := Decoder.readFieldStart_kind read
      exact ⟨kind', place'⟩
  | term r ofKind idFits ascends widths =>
      rw [term_ok (tracks.values _ _ rfl).1 ascends widths] at h
      cases h
      obtain ⟨reader, start⟩ := start rfl
      rw [start] at read
      simp only [Decoder.readRecord, place, Scope.place] at read
      exact ⟨_, Decoder.readTerm_place read⟩
  | fieldEnd | streamEnd =>
      cases h
      exact (marker rfl).elim

/-- Behind a part of a record, the markers do not complete a stream. -/
theorem not_ends_of_cut (allowed : Allowed scope ev next) (tracks : Tracks scope e d)
    (h : e.event ev = .ok (record, e')) (cut : part <+: record) (proper : part ≠ record)
    (some_part : part ≠ []) : ¬ (d.only (part ++ scope.markers)).Ends := by
  intro ends
  have goes : d.place ≠ .ended := tracks.place ▸ allowed.place_ne_ended
  obtain ⟨ev₁, d₁, hread, ends₁⟩ := ends.exists_readEvent goes
  obtain ⟨kind, place⟩ := place_of_cut allowed tracks h cut proper some_part hread
  obtain ⟨taken, same, htaken⟩ := Decoder.readEvent_taken hread
  have same : part ++ scope.markers = taken ++ d₁.reader.rest := same
  rcases List.append_eq_append_iff.mp same with ⟨more, rfl, markers⟩ | ⟨left, rfl, -⟩
  · cases more with
    | nil =>
        rw [List.append_nil] at htaken
        exact proper (eq_record_of_read allowed tracks h cut htaken)
    | cons byte more =>
        exact Decoder.not_ends_inField place (Scope.suffix_markers markers) ends₁
  · have whole := eq_record_of_read allowed tracks h ((List.prefix_append _ _).trans cut) htaken
    rw [whole] at cut proper
    exact proper (cut.eq_of_length_le (by simp))

/-- Behind a whole record that is no term, the markers that were missing before it do not complete a
stream. -/
theorem not_ends_of_marker (allowed : Allowed scope ev next) (tracks : Tracks scope e d)
    (h : e.event ev = .ok (record, e')) (marker : (EncoderCall.ofEvent ev).isTerm = false) :
    ¬ (d.only (record ++ scope.markers)).Ends := by
  intro ends
  obtain ⟨some_bytes, d₁, hread, hrest, tracks₁⟩ :=
    readEvent_encode allowed tracks h d.reader.pos scope.markers
  have goes : d.place ≠ .ended := tracks.place ▸ allowed.place_ne_ended
  obtain ⟨ev₁, d₂, hread', ends₁⟩ := ends.exists_readEvent goes
  cases hread.symm.trans hread'
  cases allowed with
  | fieldStart => exact Decoder.not_ends_inField tracks₁.place (.inr hrest) ends₁
  | term => cases marker
  | fieldEnd => exact Decoder.not_ends_outside tracks₁.place hrest ends₁
  | streamEnd =>
      have used := ends₁.rest_of_ended tracks₁.place
      rw [hrest] at used
      cases used

end Cut

/-- Behind the events that lead to a place, only what ends a stream there is accepted. -/
theorem rejected_of_not_ends {scope : Scope} {events : List Event} {e : Encoder}
    {bytes rest : Bytes} (leads : Leads .outside events scope)
    (h : Encoder.start.events events = .ok (bytes, e))
    (unended : ∀ d, Tracks scope e d → ¬ (d.only rest).Ends) :
    ∃ f, decodeStream (bytes ++ rest) = .error f := by
  cases hdecode : decodeStream (bytes ++ rest) with
  | error f => exact ⟨f, rfl⟩
  | ok others =>
      obtain ⟨d, hrest, tracks, yields⟩ :=
        yields_encode leads (tracks_start (bytes ++ rest)) h rest
      have same : d.only rest = d := by
        rw [← hrest]
        rfl
      have ends : d.Ends := (ends_of_decodeStream hdecode).of_yields yields
      rw [← same] at ends
      exact absurd ends (unended d tracks)

/-- Behind a part of the markers that complete a stream, they do not complete it again. -/
theorem rejected_of_markers {scope : Scope} {events : List Event} {e : Encoder} {bytes part : Bytes}
    (leads : Leads .outside events scope) (h : Encoder.start.events events = .ok (bytes, e))
    (cut : part <+: scope.markers) (some_part : part ≠ []) :
    ∃ f, decodeStream (bytes ++ (part ++ scope.markers)) = .error f := by
  obtain ⟨byte, more, rfl⟩ := List.exists_cons_of_ne_nil some_part
  cases scope with
  | ended => cases List.prefix_nil.mp cut
  | outside =>
      obtain ⟨rfl, none_more⟩ := List.cons_prefix_cons.mp cut
      obtain rfl := List.prefix_nil.mp none_more
      exact rejected_of_not_ends leads h fun d tracks =>
        not_ends_of_marker .streamEnd tracks rfl rfl
  | inField kind numStats =>
      have ends : Allowed (.inField kind numStats) .fieldEnd .outside := .fieldEnd
      obtain ⟨rfl, cut'⟩ := List.cons_prefix_cons.mp cut
      cases more with
      | nil =>
          exact rejected_of_not_ends leads h fun d tracks => not_ends_of_marker ends tracks rfl rfl
      | cons byte more =>
          obtain ⟨rfl, none_more⟩ := List.cons_prefix_cons.mp cut'
          obtain rfl := List.prefix_nil.mp none_more
          refine rejected_of_not_ends leads h fun d tracks whole => ?_
          obtain ⟨d', hrest, tracks', yields⟩ :=
            yields_encode (.cons ends (.cons .streamEnd (.nil _))) tracks rfl
              (Scope.inField kind numStats).markers
          have used := (whole.of_yields yields).rest_of_ended tracks'.place
          rw [hrest] at used
          cases used

end TermStats.Wire

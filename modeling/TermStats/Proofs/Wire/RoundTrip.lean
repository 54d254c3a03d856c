import TermStats.Proofs.Field.Delta
import TermStats.Proofs.Varint.RoundTrip
import TermStats.Wire.Encoder
import TermStats.Wire.Stream

/-!
Decoding what was encoded. The encoder and the decoder keep the same values of the open field, so
each record is read as it was written, and a stream in the right order is read as a whole.
-/

namespace TermStats.Wire

/-- Where a stream stands in the order of records, with what the open field has fixed. -/
inductive Scope where
  | outside
  | inField (kind : TermKind) (numStats : Nat)
  | ended

def Scope.place : Scope → Place
  | outside => .outsideField
  | inField kind _ => .inField kind
  | ended => .ended

def GroupRow.Fits (numStats : Nat) (row : GroupRow) : Prop :=
  row.stats.length = numStats

/-- The length of the id's bytes is a word. -/
def IdFits : TermId → Prop
  | .int _ => True
  | .bytes bs => bs.length < 2 ^ 64

/-- The events that may come next, and where they lead. -/
inductive Allowed : Scope → Event → Scope → Prop where
  | fieldStart (name : String) (kind : TermKind) (numStats : Nat)
      (nameFits : (Text.encode name).length < 2 ^ 64) (statsFit : numStats < 2 ^ 64) :
      Allowed .outside (.fieldStart name kind numStats) (.inField kind numStats)
  | term {kind : TermKind} {numStats : Nat} (r : TermRecord) (ofKind : r.term.kind = kind)
      (idFits : IdFits r.term) (ascends : (r.groups.map (·.group)).Pairwise (· < ·))
      (widths : ∀ row ∈ r.groups, row.Fits numStats) :
      Allowed (.inField kind numStats) (.term r) (.inField kind numStats)
  | fieldEnd {kind : TermKind} {numStats : Nat} :
      Allowed (.inField kind numStats) .fieldEnd .outside
  | streamEnd : Allowed .outside .streamEnd .ended

/-- The event lists that lead from one place to another. -/
inductive Leads : Scope → List Event → Scope → Prop where
  | nil (scope : Scope) : Leads scope [] scope
  | cons {scope next last : Scope} {ev : Event} {events : List Event} :
      Allowed scope ev next → Leads next events last → Leads scope (ev :: events) last

theorem Leads.append {a b c : Scope} {events more : List Event} (h : Leads a events b)
    (h' : Leads b more c) : Leads a (events ++ more) c := by
  induction h with
  | nil => exact h'
  | cons allowed _ ih => exact .cons allowed (ih h')

theorem readStats_encode (stats : List Int64) (pos : Nat) (rest : Bytes) :
    ∃ pos', readStats stats.length ⟨pos, stats.flatMap Varint.encodeZigzag ++ rest⟩ =
      .ok (stats, ⟨pos', rest⟩) := by
  induction stats generalizing pos with
  | nil => exact ⟨pos, rfl⟩
  | cons stat stats ih =>
      obtain ⟨pos', h⟩ := ih (pos + (Varint.encodeZigzag stat).length)
      refine ⟨pos', ?_⟩
      simp only [List.length_cons, List.flatMap_cons, List.append_assoc, readStats,
        Reader.readZigzag_encodeZigzag, bind, Except.bind, h]
      rfl

/-- A strictly ascending list of words has at most as many as there are words. -/
theorem length_le_of_ascending {groups : List UInt32} (h : groups.Pairwise (· < ·)) :
    groups.length ≤ 2 ^ 32 := by
  have bound : ∀ first rest, (first :: rest : List UInt32).Pairwise (· < ·) →
      rest.length + first.toNat < 2 ^ 32 := by
    intro first rest h
    induction rest generalizing first with
    | nil => simpa using first.toNat_lt
    | cons second rest ih =>
        obtain ⟨least, hrest⟩ := List.pairwise_cons.mp h
        have hlt := UInt32.lt_iff_toNat_lt.mp (least second List.mem_cons_self)
        have := ih second hrest
        simp only [List.length_cons]
        omega
  cases groups with
  | nil => exact Nat.zero_le _
  | cons first rest =>
      have := bound first rest h
      simp only [List.length_cons]
      omega

theorem readGroups_encode {numStats : Nat} {rows : List GroupRow} {last : UInt32}
    (ascends : (rows.map (·.group)).Pairwise (· < ·)) (least : ∀ row ∈ rows, last ≤ row.group)
    (widths : ∀ row ∈ rows, row.Fits numStats) (pos : Nat) (rest : Bytes) :
    ∃ pos', readGroups numStats rows.length last.toNat
      ⟨pos, encodeGroups numStats last (rows.map (·.group)) (rows.flatMap (·.stats)) ++ rest⟩ =
        .ok (rows, ⟨pos', rest⟩) := by
  induction rows generalizing last pos with
  | nil => exact ⟨pos, rfl⟩
  | cons row rows ih =>
      obtain ⟨above, hrest⟩ := List.pairwise_cons.mp ascends
      obtain ⟨width, hwidths⟩ := List.forall_mem_cons.mp widths
      obtain ⟨hle, _⟩ := List.forall_mem_cons.mp least
      have delta : last.toNat + (row.group - last).toUInt64.toNat = row.group.toNat := by
        have := UInt32.le_iff_toNat_le.mp hle
        rw [UInt32.toNat_toUInt64, UInt32.toNat_sub_of_le _ _ hle]
        omega
      have least' : ∀ r ∈ rows, row.group ≤ r.group := by
        intro r hr
        exact Std.le_of_lt (above r.group (List.mem_map_of_mem hr))
      have head : (row.stats ++ rows.flatMap (·.stats)).take numStats = row.stats := by
        rw [← width, List.take_left]
      have tail : (row.stats ++ rows.flatMap (·.stats)).drop numStats = rows.flatMap (·.stats) := by
        rw [← width, List.drop_left]
      obtain ⟨pos₁, hstats⟩ := readStats_encode row.stats
        (pos + (Varint.encode (row.group - last).toUInt64).length)
        (encodeGroups numStats row.group (rows.map (·.group)) (rows.flatMap (·.stats)) ++ rest)
      obtain ⟨pos₂, hrows⟩ := ih hrest least' hwidths pos₁
      rw [width] at hstats
      refine ⟨pos₂, ?_⟩
      have inRange : ¬ UInt32.size ≤ row.group.toNat := Nat.not_le.mpr row.group.toNat_lt
      simp only [List.length_cons, List.map_cons, List.flatMap_cons, encodeGroups, head, tail,
        List.append_assoc, readGroups, Reader.readU64_encode, Result.mapError_ok, bind, Except.bind,
        delta, inRange, if_false, hstats, hrows, pure, Except.pure, UInt32.ofNat_toNat]

/-- The decoder stands where the encoder does, and keeps the same values of the open field. -/
structure Tracks (scope : Scope) (e : Encoder) (d : Decoder) : Prop where
  place : d.place = scope.place
  failed : d.failed = false
  values : ∀ kind numStats, scope = .inField kind numStats →
    e.numStats = numStats ∧ d.numStats = numStats ∧ d.prevInt = e.prevInt ∧
      d.prevBytes = e.prevBytes

theorem readTermKey_encode {e : Encoder} {d : Decoder} {id : TermId} (fits : IdFits id)
    (ints : d.prevInt = e.prevInt) (strings : d.prevBytes = e.prevBytes) (pos : Nat)
    (rest : Bytes) :
    ∃ pos', ({ d with reader := ⟨pos, (e.termKey id).1 ++ rest⟩ } : Decoder).readTermKey id.kind =
      .ok (id, { d with
        reader := ⟨pos', rest⟩
        prevInt := (e.termKey id).2.prevInt
        prevBytes := (e.termKey id).2.prevBytes }) := by
  cases id with
  | int id =>
      refine ⟨pos + (Varint.encodeZigzag (id - e.prevInt)).length, ?_⟩
      have sum : e.prevInt + (id - e.prevInt) = id := by
        rw [Int64.add_comm, Int64.sub_add_cancel]
      simp only [TermId.kind, Decoder.readTermKey, Encoder.termKey, Reader.readZigzag_encodeZigzag,
        Result.mapError_ok, bind, Except.bind, ints, sum, strings, pure, Except.pure]
  | bytes bs =>
      have shorter := commonLength_le_right e.prevBytes bs
      have hshared : commonLength e.prevBytes bs < 2 ^ 64 := Nat.lt_of_le_of_lt shorter fits
      have within : ¬ e.prevBytes.length < commonLength e.prevBytes bs :=
        Nat.not_lt.mpr (commonLength_le_left e.prevBytes bs)
      have added : bs.length - commonLength e.prevBytes bs =
          (bs.drop (commonLength e.prevBytes bs)).length := List.length_drop.symm
      have hadded : (bs.drop (commonLength e.prevBytes bs)).length < 2 ^ 64 :=
        added ▸ Nat.lt_of_le_of_lt (Nat.sub_le _ _) fits
      simp only [TermId.kind, Decoder.readTermKey, Encoder.termKey, List.append_assoc,
        Reader.readU64_encodeNat hshared, Reader.readU64_encodeNat hadded, Result.mapError_ok, bind,
        Except.bind, strings, UInt64.toNat_ofNat_of_lt' hshared,
        UInt64.toNat_ofNat_of_lt' hadded, within, if_false, added, Reader.readBytes_append,
        take_append_drop_commonLength, ints, pure, Except.pure]
      exact ⟨_, rfl⟩

theorem length_stats {numStats : Nat} {rows : List GroupRow}
    (widths : ∀ row ∈ rows, row.Fits numStats) :
    (rows.flatMap (·.stats)).length = (rows.map (·.group)).length * numStats := by
  induction rows with
  | nil => simp
  | cons row rows ih =>
      obtain ⟨width, hrest⟩ := List.forall_mem_cons.mp widths
      rw [List.flatMap_cons, List.length_append, ih hrest, width, List.map_cons, List.length_cons,
        Nat.succ_mul, Nat.add_comm]

theorem term_ok {numStats : Nat} {e : Encoder} {r : TermRecord} (hstats : e.numStats = numStats)
    (ascends : (r.groups.map (·.group)).Pairwise (· < ·))
    (widths : ∀ row ∈ r.groups, row.Fits numStats) :
    e.event (.term r) = .ok (RecordTag.term.byte :: (e.termKey r.term).1 ++
      Varint.encode r.docFreq ++ Varint.encodeNat (r.groups.map (·.group)).length ++
      encodeGroups numStats 0 (r.groups.map (·.group)) (r.groups.flatMap (·.stats)),
      (e.termKey r.term).2) := by
  have sorted := (ascending_iff UInt32.lt_trans).mpr ascends
  simp only [Encoder.event, Encoder.term, length_stats widths, hstats, ne_eq, not_true_eq_false,
    if_false, sorted, Bool.not_true, Bool.false_eq_true]

/-- An event that may come next is encoded. -/
theorem event_ok {scope next : Scope} {ev : Event} {e : Encoder} {d : Decoder}
    (allowed : Allowed scope ev next) (tracks : Tracks scope e d) :
    ∃ bytes e', e.event ev = .ok (bytes, e') := by
  cases allowed with
  | fieldStart | fieldEnd | streamEnd => exact ⟨_, _, rfl⟩
  | term r ofKind idFits ascends widths =>
      exact ⟨_, _, term_ok (tracks.values _ _ rfl).1 ascends widths⟩

theorem readFieldStart_encode {name : String} {numStats : Nat}
    (nameFits : (Text.encode name).length < 2 ^ 64) (statsFit : numStats < 2 ^ 64) (d : Decoder)
    (kind : TermKind) (pos : Nat) (rest : Bytes) :
    ∃ pos', ({ d with reader := ⟨pos, kind.wireTag :: (Varint.encodeNat (Text.encode name).length ++
      (Text.encode name ++ (Varint.encodeNat numStats ++ rest)))⟩ } : Decoder).readFieldStart =
        .ok (.fieldStart name kind numStats,
          ⟨⟨pos', rest⟩, .inField kind, d.failed, numStats, 0, []⟩) := by
  simp only [Decoder.readFieldStart, Reader.readByte_cons, TermKind.ofWireTag?_wireTag,
    Reader.readU64_encodeNat nameFits, Reader.readU64_encodeNat statsFit,
    UInt64.toNat_ofNat_of_lt' nameFits, UInt64.toNat_ofNat_of_lt' statsFit,
    Reader.readBytes_append, Text.decode?_encode, Result.mapError_ok, bind, Except.bind, pure,
    Except.pure]
  exact ⟨_, rfl⟩

theorem readTerm_encode {e : Encoder} {d : Decoder} {r : TermRecord} (idFits : IdFits r.term)
    (ascends : (r.groups.map (·.group)).Pairwise (· < ·))
    (widths : ∀ row ∈ r.groups, row.Fits d.numStats) (ints : d.prevInt = e.prevInt)
    (strings : d.prevBytes = e.prevBytes) (pos : Nat) (rest : Bytes) :
    ∃ pos', ({ d with reader := ⟨pos, (e.termKey r.term).1 ++ (Varint.encode r.docFreq ++
      (Varint.encodeNat (r.groups.map (·.group)).length ++
        (encodeGroups d.numStats 0 (r.groups.map (·.group)) (r.groups.flatMap (·.stats)) ++
          rest)))⟩ } : Decoder).readTerm r.term.kind =
      .ok (.term r, { d with
        reader := ⟨pos', rest⟩
        prevInt := (e.termKey r.term).2.prevInt
        prevBytes := (e.termKey r.term).2.prevBytes }) := by
  have count : r.groups.length < 2 ^ 64 := by
    have := length_le_of_ascending ascends
    rw [List.length_map] at this
    exact Nat.lt_of_le_of_lt this (by decide)
  obtain ⟨pos₁, hkey⟩ := readTermKey_encode idFits ints strings pos (Varint.encode r.docFreq ++
    (Varint.encodeNat r.groups.length ++
      (encodeGroups d.numStats 0 (r.groups.map (·.group)) (r.groups.flatMap (·.stats)) ++ rest)))
  have least : ∀ row ∈ r.groups, 0 ≤ row.group := fun _ _ => UInt32.zero_le
  obtain ⟨pos₂, hgroups⟩ := readGroups_encode ascends least widths
    (pos₁ + (Varint.encode r.docFreq).length + (Varint.encodeNat r.groups.length).length) rest
  rw [UInt32.toNat_zero] at hgroups
  refine ⟨pos₂, ?_⟩
  simp only [List.length_map, Decoder.readTerm, hkey, Reader.readU64_encode,
    Reader.readU64_encodeNat count, UInt64.toNat_ofNat_of_lt' count, hgroups, Result.mapError_ok,
    bind, Except.bind, pure, Except.pure]

theorem readEvent_tag (d : Decoder) (tag : RecordTag) (pos : Nat) (rest : Bytes) :
    ({ d with reader := ⟨pos, tag.byte :: rest⟩ } : Decoder).readEvent =
      Decoder.readRecord { d with reader := ⟨pos + 1, rest⟩ } tag := by
  simp only [Decoder.readEvent, Reader.readByte_cons, Result.mapError_ok, bind, Except.bind,
    RecordTag.ofByte?_byte]

theorem numStats_termKey (e : Encoder) (id : TermId) : (e.termKey id).2.numStats = e.numStats := by
  cases id <;> rfl

theorem readEvent_encode {scope next : Scope} {ev : Event} {e e' : Encoder} {d : Decoder}
    {bytes : Bytes} (allowed : Allowed scope ev next) (tracks : Tracks scope e d)
    (h : e.event ev = .ok (bytes, e')) (pos : Nat) (rest : Bytes) :
    bytes ≠ [] ∧ ∃ d', ({ d with reader := ⟨pos, bytes ++ rest⟩ } : Decoder).readEvent =
      .ok (ev, d') ∧ d'.reader.rest = rest ∧ Tracks next e' d' := by
  obtain ⟨hplace, hfailed, values⟩ := tracks
  have hrecord (tag : RecordTag) (more : Bytes) :
      ({ d with reader := ⟨pos, tag.byte :: more⟩ } : Decoder).readEvent =
        Decoder.readRecord { d with reader := ⟨pos + 1, more⟩, place := scope.place } tag := by
    rw [readEvent_tag, ← hplace]
  cases allowed with
  | fieldStart name kind numStats nameFits statsFit =>
      cases h
      refine ⟨List.cons_ne_nil _ _, ?_⟩
      obtain ⟨pos', hread⟩ := readFieldStart_encode nameFits statsFit
        { d with place := .outsideField } kind (pos + 1) rest
      simp only [List.cons_append, List.append_assoc]
      rw [hrecord]
      refine ⟨_, hread, rfl, rfl, hfailed, ?_⟩
      intro _ _ h
      cases h
      exact ⟨rfl, rfl, rfl, rfl⟩
  | term r ofKind idFits ascends widths =>
      rename_i kind numStats
      obtain ⟨hencoder, rfl, ints, strings⟩ := values kind numStats rfl
      rw [term_ok hencoder ascends widths] at h
      cases h
      refine ⟨List.cons_ne_nil _ _, ?_⟩
      obtain ⟨pos', hread⟩ := readTerm_encode (d := { d with place := .inField kind }) idFits
        ascends widths ints strings (pos + 1) rest
      rw [ofKind] at hread
      simp only [List.cons_append, List.append_assoc]
      rw [hrecord]
      refine ⟨_, hread, rfl, rfl, hfailed, ?_⟩
      intro _ _ h
      cases h
      exact ⟨(numStats_termKey e r.term).trans hencoder, rfl, rfl, rfl⟩
  | fieldEnd =>
      cases h
      refine ⟨List.cons_ne_nil _ _, ?_⟩
      simp only [List.cons_append]
      rw [hrecord]
      exact ⟨_, rfl, rfl, rfl, hfailed, nofun⟩
  | streamEnd =>
      cases h
      refine ⟨List.cons_ne_nil _ _, ?_⟩
      simp only [List.cons_append]
      rw [hrecord]
      exact ⟨_, rfl, rfl, rfl, hfailed, nofun⟩

namespace Decoder

theorem items_of_none {d d' : Decoder} (h : d.next = (none, d')) : d.items = ([], d') := by
  rw [items]
  split
  · rename_i hn
    rw [h] at hn
    cases hn
    rfl
  · rename_i hn
    rw [h] at hn
    cases hn

theorem items_of_some {d d' : Decoder} {x : Except StreamFault Event} (h : d.next = (some x, d')) :
    d.items = (x :: d'.items.1, d'.items.2) := by
  rw [items]
  split
  · rename_i hn
    rw [h] at hn
    cases hn
  · rename_i hn
    rw [h] at hn
    cases hn
    rfl

theorem next_of_readEvent {d d' : Decoder} {ev : Event} (hfailed : d.failed = false)
    (hplace : d.place ≠ .ended) (more : d.reader.rest ≠ []) (h : d.readEvent = .ok (ev, d')) :
    d.next = (some (.ok ev), d') := by
  have goes : ¬ (d.failed = true ∨ d.isComplete = true ∨ d.reader.isEmpty = true) := by
    simp [hfailed, isComplete, hplace, Reader.isEmpty, more]
  rw [next, if_neg goes, h]

end Decoder

theorem Allowed.place_ne_ended {scope next : Scope} {ev : Event} (h : Allowed scope ev next) :
    scope.place ≠ .ended := by
  cases h <;> exact nofun

theorem events_cons_eq_ok {e e' : Encoder} {ev : Event} {events : List Event} {bytes : Bytes}
    (h : e.events (ev :: events) = .ok (bytes, e')) :
    ∃ first e₁ more, e.event ev = .ok (first, e₁) ∧ e₁.events events = .ok (more, e') ∧
      bytes = first ++ more := by
  simp only [Encoder.events, Result.bind_eq_ok] at h
  obtain ⟨⟨first, e₁⟩, hfirst, ⟨more, e₂⟩, hmore, h⟩ := h
  cases h
  exact ⟨first, e₁, more, hfirst, hmore, rfl⟩

/-- The first events are written first. -/
theorem events_prefix {e e' : Encoder} {part events : List Event} {bytes : Bytes}
    (h : e.events events = .ok (bytes, e')) (first : part <+: events) :
    ∃ some_bytes e₁, e.events part = .ok (some_bytes, e₁) ∧ some_bytes <+: bytes := by
  obtain ⟨more, rfl⟩ := first
  induction part generalizing e bytes with
  | nil => exact ⟨[], e, rfl, List.nil_prefix⟩
  | cons ev rest ih =>
      obtain ⟨record, e₁, others, hrecord, hothers, rfl⟩ := events_cons_eq_ok h
      obtain ⟨some_bytes, e₂, hsome, hprefix⟩ := ih hothers
      refine ⟨record ++ some_bytes, e₂, ?_, (List.prefix_append_right_inj _).mpr hprefix⟩
      simp only [Encoder.events, hrecord, hsome, bind, Except.bind, pure, Except.pure]

/-- A decoder reads what an encoder wrote from the same place on, and then what follows. -/
theorem items_encode {scope last : Scope} {events : List Event} {e e' : Encoder} {d : Decoder}
    {bytes : Bytes} (leads : Leads scope events last) (tracks : Tracks scope e d)
    (h : e.events events = .ok (bytes, e')) (pos : Nat) (rest : Bytes) :
    ∃ d', d'.reader.rest = rest ∧ Tracks last e' d' ∧
      ({ d with reader := ⟨pos, bytes ++ rest⟩ } : Decoder).items =
        (events.map .ok ++ d'.items.1, d'.items.2) := by
  induction leads generalizing e d bytes pos with
  | nil scope =>
      cases h
      exact ⟨{ d with reader := ⟨pos, rest⟩ }, rfl,
        ⟨tracks.place, tracks.failed, tracks.values⟩, rfl⟩
  | cons allowed _ ih =>
      obtain ⟨first, e₁, more, hfirst, hmore, rfl⟩ := events_cons_eq_ok h
      obtain ⟨hne, d₁, hread, hrest, tracks₁⟩ :=
        readEvent_encode allowed tracks hfirst pos (more ++ rest)
      obtain ⟨d', hd', tracks', hitems⟩ := ih tracks₁ hmore d₁.reader.pos
      have same : ({ d₁ with reader := ⟨d₁.reader.pos, more ++ rest⟩ } : Decoder) = d₁ := by
        rw [← hrest]
      rw [same] at hitems
      refine ⟨d', hd', tracks', ?_⟩
      have goes : d.place ≠ .ended := tracks.place ▸ allowed.place_ne_ended
      have hnext := Decoder.next_of_readEvent
        (d := { d with reader := ⟨pos, first ++ (more ++ rest)⟩ }) tracks.failed goes
        (List.append_ne_nil_of_left_ne_nil hne _) hread
      rw [List.append_assoc, Decoder.items_of_some hnext, hitems]
      rfl

theorem tracks_start (data : Bytes) : Tracks .outside .start (Decoder.ofBytes data) :=
  ⟨rfl, rfl, nofun⟩

theorem events_ok {scope last : Scope} {events : List Event} {e : Encoder} {d : Decoder}
    (leads : Leads scope events last) (tracks : Tracks scope e d) :
    ∃ bytes e', e.events events = .ok (bytes, e') := by
  induction leads generalizing e d with
  | nil => exact ⟨[], e, rfl⟩
  | cons allowed _ ih =>
      obtain ⟨first, e₁, hfirst⟩ := event_ok allowed tracks
      obtain ⟨_, d₁, _, _, tracks₁⟩ := readEvent_encode allowed tracks hfirst 0 []
      obtain ⟨more, e', hmore⟩ := ih tracks₁
      refine ⟨first ++ more, e', ?_⟩
      simp only [Encoder.events, hfirst, hmore, bind, Except.bind, pure, Except.pure]

theorem mapM_ok {ε α : Type} (l : List α) : (l.map Except.ok).mapM id = (.ok l : Except ε _) := by
  induction l with
  | nil => rfl
  | cons a rest ih =>
      rw [List.map_cons, List.mapM_cons, ih]
      rfl

/-- A complete stream in the right order is decoded to the events it was made of. -/
theorem decodeStream_encode {events : List Event} {bytes : Bytes} {e : Encoder}
    (leads : Leads .outside events .ended) (h : Encoder.start.events events = .ok (bytes, e)) :
    decodeStream bytes = .ok events := by
  obtain ⟨d, hrest, tracks, hitems⟩ := items_encode leads (tracks_start bytes) h 0 []
  rw [List.append_nil] at hitems
  have complete : d.isComplete = true := by simp [Decoder.isComplete, tracks.place, Scope.place]
  have stops : d.items = ([], d) := by
    apply Decoder.items_of_none
    rw [Decoder.next, if_pos (.inr (.inl complete))]
  have whole : (Decoder.ofBytes bytes).items = (events.map .ok, d) := by
    have hd : Decoder.ofBytes bytes = { Decoder.ofBytes bytes with reader := ⟨0, bytes⟩ } := rfl
    rw [hd, hitems, stops, List.append_nil]
  simp only [decodeStream, whole, mapM_ok, bind, Except.bind, complete, Reader.isEmpty, hrest]
  rfl

end TermStats.Wire

import TermStats.Proofs.Traversal
import TermStats.Proofs.Wire.RoundTrip

/-!
The items of a decoder, event by event. A decoder yields events until it has none or meets its one
fault, and from then on nothing; a stream is accepted when the events lead to its end and use it up.
-/

namespace TermStats.Wire

open Result

namespace Decoder

/-- One decoder after another, as events are taken from the first. -/
inductive Yields : Decoder → List Event → Decoder → Prop where
  | nil (d : Decoder) : Yields d [] d
  | cons {d next last : Decoder} {ev : Event} {events : List Event} :
      d.next = (some (.ok ev), next) → Yields next events last → Yields d (ev :: events) last

/-- The events that a decoder yields before it stops. -/
def yielded (d : Decoder) : List Event :=
  d.items.1.filterMap (·.toOption)

variable {d d' : Decoder} {ev : Event} {events : List Event}

theorem next_eq_ok : d.next = (some (.ok ev), d') ↔
    d.failed = false ∧ d.place ≠ .ended ∧ d.reader.rest ≠ [] ∧ d.readEvent = .ok (ev, d') := by
  refine ⟨fun h => ?_, fun ⟨going, unended, more, h⟩ => next_of_readEvent going unended more h⟩
  simp only [next] at h
  split at h
  · cases h
  · rename_i goes
    split at h
    · cases h
    · rename_i hread
      cases h
      simp only [not_or, isComplete, Reader.isEmpty, Bool.not_eq_true, decide_eq_false_iff_not,
        List.isEmpty_eq_false_iff] at goes
      exact ⟨goes.1, goes.2.1, goes.2.2, hread⟩

theorem items_of_failed (h : d.failed = true) : d.items = ([], d) :=
  items_of_none (by rw [next, if_pos (.inl h)])

/-- A decoder yields an event, or its items are at most a fault and it is left with nothing to
yield. -/
theorem next_cases (d : Decoder) : (∃ ev d', d.next = (some (.ok ev), d')) ∨
    ∃ fault : Option StreamFault, d.items.1 = fault.toList.map .error ∧
      d.items.2.next = (none, d.items.2) ∧ (fault = none → d.items.2 = d) := by
  by_cases stopped : d.failed = true ∨ d.isComplete = true ∨ d.reader.isEmpty = true
  · have nothing : d.next = (none, d) := by rw [next, if_pos stopped]
    rw [items_of_none nothing]
    exact .inr ⟨none, rfl, nothing, fun _ => rfl⟩
  · cases hread : d.readEvent with
    | ok result => exact .inl ⟨result.1, result.2, by rw [next, if_neg stopped, hread]⟩
    | error f =>
        have fault : d.next = (some (.error f), { d with failed := true }) := by
          rw [next, if_neg stopped, hread]
        rw [items_of_some fault, items_of_failed rfl]
        exact .inr ⟨some f, rfl, by rw [next, if_pos (.inl rfl)], by simp⟩

theorem Yields.trans {last : Decoder} {others : List Event} (h : d.Yields events d')
    (h' : d'.Yields others last) : d.Yields (events ++ others) last := by
  induction h with
  | nil d => exact h'
  | cons hnext _ ih => exact .cons hnext (ih h')

theorem Yields.items (h : d.Yields events d') :
    d.items = (events.map .ok ++ d'.items.1, d'.items.2) := by
  induction h with
  | nil d => rfl
  | cons hnext _ ih => rw [items_of_some hnext, ih, List.map_cons, List.cons_append]

theorem Yields.eq_yielded (h : d.Yields events d') {fault : Option StreamFault}
    (stops : d'.items.1 = fault.toList.map .error) : d.yielded = events := by
  have event : (fun item : Except StreamFault Event => item.toOption) ∘ Except.ok = some := rfl
  have none_of_fault : (fault.toList.map .error : List (Except StreamFault Event)).filterMap
      (·.toOption) = [] := by
    cases fault <;> rfl
  rw [yielded, h.items, stops, List.filterMap_append, none_of_fault, List.append_nil,
    List.filterMap_map, event, List.filterMap_some]

/-- The items of a decoder are its events and at most a fault behind them, and leave it with nothing
to yield. -/
theorem exists_yields (d : Decoder) : ∃ (d' : Decoder) (fault : Option StreamFault),
    d.Yields d.yielded d' ∧ d'.items.1 = fault.toList.map .error ∧
      d'.items.2.next = (none, d'.items.2) ∧ (fault = none → d'.items.2 = d') := by
  have reaches : ∃ (events : List Event) (d' : Decoder) (fault : Option StreamFault),
      d.Yields events d' ∧ d'.items.1 = fault.toList.map .error ∧
        d'.items.2.next = (none, d'.items.2) ∧ (fault = none → d'.items.2 = d') := by
    induction d using Decoder.items.induct with
    | case1 d d' h =>
        rcases d.next_cases with ⟨ev, d₁, hnext⟩ | ⟨fault, stops⟩
        · rw [hnext] at h
          cases h
        · exact ⟨[], d, fault, .nil d, stops⟩
    | case2 d x d' h ih =>
        rcases d.next_cases with ⟨ev, d₁, hnext⟩ | ⟨fault, stops⟩
        · rw [hnext] at h
          cases h
          obtain ⟨events, last, fault, yields, stops⟩ := ih
          exact ⟨ev :: events, last, fault, .cons hnext yields, stops⟩
        · exact ⟨[], d, fault, .nil d, stops⟩
  obtain ⟨events, d', fault, yields, hfault, stops⟩ := reaches
  exact ⟨d', fault, yields.eq_yielded hfault ▸ yields, hfault, stops⟩

end Decoder

theorem mapM_id_eq_ok {ε α : Type} {items : List (Except ε α)} {l : List α} :
    items.mapM id = .ok l ↔ items = l.map .ok := by
  refine ⟨fun h => ?_, fun h => by rw [h, mapM_ok]⟩
  induction items generalizing l with
  | nil =>
      cases h
      rfl
  | cons item rest ih =>
      obtain ⟨a, more, ha, hmore, rfl⟩ := mapM_cons_eq_ok.mp h
      rw [show item = .ok a from ha, ih hmore, List.map_cons]

/-- A stream is accepted when its events lead to the end of the stream and nothing follows. -/
theorem decodeStream_eq_ok {data : Bytes} {events : List Event} :
    decodeStream data = .ok events ↔
      ∃ d, (Decoder.ofBytes data).Yields events d ∧ d.place = .ended ∧ d.reader.rest = [] := by
  refine ⟨fun h => ?_, fun ⟨d, yields, ended, used⟩ => ?_⟩
  · simp only [decodeStream, bind_eq_ok, mapM_id_eq_ok] at h
    obtain ⟨events', hitems, h⟩ := h
    obtain ⟨d, fault, yields, hfault, _, stopped⟩ := (Decoder.ofBytes data).exists_yields
    rw [yields.items, hfault] at hitems
    cases fault with
    | some f =>
        have faulty : .error f ∈ events'.map (Except.ok (ε := StreamFault)) := by
          rw [← hitems]
          exact List.mem_append_right _ List.mem_cons_self
        obtain ⟨_, _, h⟩ := List.mem_map.mp faulty
        cases h
    | none =>
        have hitems : (Decoder.ofBytes data).yielded.map (Except.ok (ε := StreamFault)) =
            events'.map .ok := (List.append_nil _).symm.trans hitems
        have same := (List.map_inj_right fun _ _ => Except.ok.inj).mp hitems
        rw [yields.items, stopped rfl] at h
        split at h
        · exact absurd h throw_ne_ok
        · rename_i complete
          split at h
          · exact absurd h throw_ne_ok
          · rename_i used
            cases h
            refine ⟨d, same ▸ yields, ?_, ?_⟩
            · simpa [Decoder.isComplete] using complete
            · simpa [Reader.isEmpty] using used
  · have complete : d.isComplete = true := by simp [Decoder.isComplete, ended]
    have stops : d.items = ([], d) := by
      apply Decoder.items_of_none
      rw [Decoder.next, if_pos (.inr (.inl complete))]
    simp only [decodeStream, yields.items, stops, List.append_nil, mapM_ok, bind, Except.bind,
      complete, Reader.isEmpty, used]
    rfl

end TermStats.Wire

import TermStats.Proofs.Field.Postings
import TermStats.Proofs.Varint.Digits

/-!
Which bytes are a posting list, and what reading any bytes as one yields: the ids of the longest
posting list that starts there, up to their number, and a fault where it ends too early. The number
of ids still to come is known at each point, and is never too small.
-/

namespace TermStats

open Varint

/-- The bytes of a delta that leads to an id from the one before it, if there is one. Only the first
delta of a list may be 0. -/
def IsStep (previous : Option Int64) (taken : Bytes) (id : Int64) : Prop :=
  ∃ delta : Int64, IsVarint taken delta.toUInt64 ∧ previous.elim 0 (fun _ => 1) ≤ delta.toInt ∧
    id.toInt = previous.elim 0 (·.toInt) + delta.toInt

/-- The bytes of a posting list behind an id, if there is one, and the ids in them. -/
inductive IsPostingList : Option Int64 → Bytes → List Int64 → Prop where
  | nil {previous : Option Int64} : IsPostingList previous [] []
  | cons {previous : Option Int64} {taken rest : Bytes} {id : Int64} {ids : List Int64} :
      IsStep previous taken id → IsPostingList (some id) rest ids →
      IsPostingList previous (taken ++ rest) (id :: ids)

namespace IsPostingList

variable {previous : Option Int64} {bytes : Bytes} {ids : List Int64}

theorem le_of_mem (h : IsPostingList previous bytes ids) {id : Int64} (hid : id ∈ ids) :
    previous.elim 0 (·.toInt) ≤ id.toInt := by
  induction h with
  | nil => cases hid
  | @cons previous _ _ first _ step _ ih =>
      obtain ⟨delta, _, least, sum⟩ := step
      have forward : 0 ≤ delta.toInt := by
        cases previous <;> simp only [Option.elim] at least <;> omega
      rcases List.mem_cons.mp hid with rfl | hid
      · omega
      · have above := ih hid
        rw [Option.elim_some] at above
        omega

theorem pairwise (h : IsPostingList previous bytes ids) :
    (previous.toList ++ ids).Pairwise (· < ·) := by
  induction h with
  | @nil previous => cases previous <;> simp
  | @cons previous _ _ first ids step later ih =>
      cases previous with
      | none => exact ih
      | some last =>
          obtain ⟨delta, _, least, sum⟩ := step
          simp only [Option.elim] at least sum
          refine List.pairwise_cons.mpr ⟨fun id hid => ?_, ih⟩
          rw [Int64.lt_iff_toInt_lt]
          rcases List.mem_cons.mp hid with rfl | hid
          · omega
          · have above := later.le_of_mem hid
            rw [Option.elim_some] at above
            omega

end IsPostingList

namespace DocIds

/-- What is left of a list after a number of steps. -/
def after (d : DocIds) : (steps : Nat) → DocIds
  | 0 => d
  | steps + 1 => d.next.2.after steps

theorem items_of_none {d d' : DocIds} (h : d.next = (none, d')) : d.items = [] :=
  items_of_done (next_eq_none h).1

theorem next_of_done {d : DocIds} (h : d.remaining = 0) : d.next = (none, d) := by
  rw [next, h]

theorem after_of_done {d : DocIds} (h : d.remaining = 0) (steps : Nat) : d.after steps = d := by
  induction steps with
  | zero => rfl
  | succ steps ih => rw [after, next_of_done h, ih]

theorem next_after (d : DocIds) (steps : Nat) : (d.after steps).next.1 = d.items[steps]? := by
  induction steps generalizing d with
  | zero =>
      cases hn : d.next with
      | mk x d' =>
          cases x with
          | none => rw [items_of_none hn, after, hn]; rfl
          | some x => rw [items_of_some hn, after, hn]; rfl
  | succ steps ih =>
      rw [after, ih]
      cases hn : d.next with
      | mk x d' =>
          cases x with
          | none =>
              obtain ⟨done, rfl⟩ := next_eq_none hn
              rw [items_of_done done]
              rfl
          | some x => rw [items_of_some hn]; rfl

theorem reaches_next (d : DocIds) : d.reader.Reaches d.next.2.reader := by
  have stays : d.reader.Reaches d.reader := ⟨Nat.le_refl _, rfl⟩
  simp only [next]
  split
  · exact stays
  · split
    · exact stays
    · rename_i hread
      split
      · split <;> exact Reader.reaches_of_readInt hread
      · exact Reader.reaches_of_readInt hread

theorem reaches_after (d : DocIds) (steps : Nat) : d.reader.Reaches (d.after steps).reader := by
  induction steps generalizing d with
  | zero => exact ⟨Nat.le_refl _, rfl⟩
  | succ steps ih => exact (reaches_next d).trans (ih d.next.2)

/-- The list goes on behind an id, if there is one. -/
def Behind (d : DocIds) (previous : Option Int64) : Prop :=
  d.first = previous.isNone ∧ d.last = previous.getD 0

variable {d : DocIds} {previous : Option Int64} {left : Nat}

theorem Behind.toInt_last (h : d.Behind previous) : d.last.toInt = previous.elim 0 (·.toInt) := by
  rw [h.2]
  cases previous <;> rfl

theorem Behind.toInt_leastDelta (h : d.Behind previous) :
    d.leastDelta.toInt = previous.elim 0 fun _ => 1 := by
  rw [leastDelta, h.1]
  cases previous <;> rfl

theorem next_of_isStep (behind : d.Behind previous) (more : d.remaining = left + 1)
    {taken rest : Bytes} {id : Int64} (bytes : d.reader.rest = taken ++ rest)
    (step : IsStep previous taken id) :
    d.next = (some (.ok id), ⟨⟨d.reader.pos + taken.length, rest⟩, left, id, false⟩) := by
  obtain ⟨delta, hv, least, sum⟩ := step
  have read : d.reader.readInt = .ok (delta, ⟨d.reader.pos + taken.length, rest⟩) :=
    Reader.readInt_iff.mpr ⟨taken, rest, bytes, hv, rfl⟩
  rw [← behind.toInt_last] at sum
  rw [← behind.toInt_leastDelta, ← Int64.le_iff_toInt_le] at least
  simp only [next, more, read, addExact?_of_toInt sum, if_pos least]

theorem next_of_stuck (behind : d.Behind previous) (more : d.remaining = left + 1)
    (stuck : ∀ taken rest id, d.reader.rest = taken ++ rest → ¬ IsStep previous taken id) :
    ∃ f d', d.next = (some (.error f), d') ∧ d'.remaining = 0 := by
  cases hn : d.next with
  | mk x d' =>
      match x with
      | none => exact absurd (next_eq_none hn).1 (by omega)
      | some (.error f) => exact ⟨f, d', rfl, next_error hn⟩
      | some (.ok id) =>
          -- An id that is read is one that the bytes lead to.
          simp only [next, more] at hn
          split at hn
          · cases hn
          · rename_i delta r hread
            split at hn
            · rename_i sum
              split at hn
              · rename_i least
                cases hn
                obtain ⟨taken, rest, bytes, hv, _⟩ := Reader.readInt_iff.mp hread
                refine absurd ⟨delta, hv, ?_, ?_⟩ (stuck taken rest id bytes)
                · rw [← behind.toInt_leastDelta]
                  exact Int64.le_iff_toInt_le.mp least
                · rw [← behind.toInt_last]
                  exact addExact?_eq_some sum
              · cases hn
            · cases hn

/-- The items of a list, and how many are still to come at each point. -/
theorem reads_from (behind : d.Behind previous) :
    ∃ (ids : List Int64) (fault? : Option PostingFault) (before rest : Bytes),
      d.items = ids.map .ok ++ fault?.toList.map .error ∧
      d.reader.rest = before ++ rest ∧ IsPostingList previous before ids ∧
      (fault? = none → ids.length = d.remaining) ∧
      (∀ f ∈ fault?, ids.length < d.remaining ∧ ∀ taken more id, rest = taken ++ more →
        ¬ IsStep (ids.getLast?.or previous) taken id) ∧
      ∀ i, (d.after i).remaining = if i ≤ ids.length then d.remaining - i else 0 := by
  induction hr : d.remaining generalizing d previous with
  | zero =>
      refine ⟨[], none, [], d.reader.rest, items_of_done hr, rfl, .nil, fun _ => rfl, nofun, ?_⟩
      intro i
      rw [after_of_done hr, hr, Nat.zero_sub, ite_self]
  | succ left ih =>
      by_cases stuck : ∀ taken rest id, d.reader.rest = taken ++ rest → ¬ IsStep previous taken id
      · obtain ⟨f, d', hn, done⟩ := next_of_stuck behind hr stuck
        refine ⟨[], some f, [], d.reader.rest, ?_, rfl, .nil, nofun, ?_, ?_⟩
        · rw [items_of_some hn, items_of_done done]
          rfl
        · intro _ _
          exact ⟨Nat.succ_pos left, stuck⟩
        · intro i
          cases i with
          | zero => exact hr
          | succ i => simp only [after, hn, after_of_done done, done]; rfl
      · simp only [not_forall, not_not] at stuck
        obtain ⟨taken, others, id, bytes, step⟩ := stuck
        have hn := next_of_isStep behind hr bytes step
        have behind' : (DocIds.mk ⟨d.reader.pos + taken.length, others⟩ left id false).Behind
            (some id) := ⟨rfl, rfl⟩
        obtain ⟨ids, fault?, before, rest, items, rfl, list, whole, broken, counts⟩ :=
          ih behind' rfl
        refine ⟨id :: ids, fault?, taken ++ before, rest, ?_, ?_, .cons step list, ?_, ?_, ?_⟩
        · rw [items_of_some hn, items]
          rfl
        · rw [bytes, List.append_assoc]
        · intro sound
          rw [List.length_cons, whole sound]
        · intro f hf
          obtain ⟨fewer, stuck⟩ := broken f hf
          refine ⟨Nat.succ_lt_succ fewer, ?_⟩
          cases ids with
          | nil => exact stuck
          | cons _ _ => rwa [List.getLast?_cons_cons]
        · intro i
          cases i with
          | zero => exact hr
          | succ i =>
              rw [after, hn, counts i]
              simp only [List.length_cons, Nat.succ_le_succ_iff, Nat.succ_sub_succ]

theorem behind_of_locate {data : Bytes} {offset : Int64} {freq : Int32}
    (h : locate data offset freq = .ok d) :
    d.Behind none ∧ d.reader = ⟨offset.toInt.toNat, data.drop offset.toInt.toNat⟩ ∧
      (d.remaining : Int) = freq.toInt ∧ offset.toInt.toNat ≤ data.length := by
  simp only [locate] at h
  split at h
  · cases h
  · rename_i valid
    have nonneg : 0 ≤ freq.toInt := by
      have zero : (0 : Int32).toInt = 0 := rfl
      rw [Int32.lt_iff_toInt_lt] at valid
      omega
    split at h
    · cases h
    · rename_i hat
      cases h
      simp only [Reader.atOffset] at hat
      split at hat
      · cases hat
      · rename_i within
        cases hat
        exact ⟨⟨rfl, rfl⟩, rfl, Int.toNat_of_nonneg nonneg, Nat.le_of_not_lt within⟩

/-- No id of a posting list is negative. -/
theorem nonneg_of_locate {data : Bytes} {offset : Int64} {freq : Int32}
    (located : locate data offset freq = .ok d) {id : Int64} (hid : .ok id ∈ d.items) :
    0 ≤ id := by
  obtain ⟨ids, fault?, _, _, items, _, list, _⟩ := reads_from (behind_of_locate located).1
  have mem : id ∈ ids := by
    rw [items] at hid
    simpa using hid
  exact Int64.le_iff_toInt_le.mpr (list.le_of_mem mem)

/-- For any bytes and any place in them where a posting list can be: the calls yield the ids of a
posting list that the bytes start with, as many as were asked for, or fewer and then a fault where
no further id can be read. The ids are not negative and ascend; the number of those to come is exact
until a fault, and nothing is read beyond the bytes. -/
theorem reads_posting_list {data : Bytes} {offset : Int64} {freq : Int32}
    (located : locate data offset freq = .ok d) :
    ∃ (ids : List Int64) (fault? : Option PostingFault) (before rest : Bytes),
      (∀ i, (d.after i).next.1 = (ids.map .ok ++ fault?.toList.map .error)[i]?) ∧
      (fault? = none → (ids.length : Int) = freq.toInt) ∧
      (∀ f ∈ fault?, (ids.length : Int) < freq.toInt ∧
        f.toError = .invalidFormat "doc-id file" f.message ∧
        ∀ taken more id, rest = taken ++ more → ¬ IsStep ids.getLast? taken id) ∧
      (∀ id ∈ ids, 0 ≤ id) ∧ ids.Pairwise (· < ·) ∧
      data.drop offset.toInt.toNat = before ++ rest ∧ IsPostingList none before ids ∧
      (∀ i, ids.length + fault?.toList.length - i ≤ (d.after i).remaining) ∧
      (∀ i, ids.length + fault?.toList.length ≤ i → (d.after i).remaining = 0) ∧
      (∀ i ≤ ids.length, ((d.after i).remaining : Int) = freq.toInt - i) ∧
      ∀ i, (d.after i).reader.pos ≤ data.length := by
  obtain ⟨behind, reader, count, within⟩ := behind_of_locate located
  obtain ⟨ids, fault?, before, rest, items, bytes, list, whole, broken, counts⟩ :=
    reads_from behind
  rw [reader] at bytes
  rw [Option.or_none] at broken
  have single : fault?.toList.length ≤ 1 := by
    cases fault? <;> simp
  have enough : ids.length + fault?.toList.length ≤ d.remaining := by
    cases fault? with
    | none => exact Nat.le_of_eq (whole rfl)
    | some f => exact (broken f rfl).1
  refine ⟨ids, fault?, before, rest, fun i => by rw [next_after, items], ?_, ?_, ?_, list.pairwise,
    bytes, list, ?_, ?_, ?_, ?_⟩
  · intro sound
    rw [whole sound, count]
  · intro f hf
    obtain ⟨fewer, stuck⟩ := broken f hf
    exact ⟨by omega, rfl, stuck⟩
  · intro id hid
    exact Int64.le_iff_toInt_le.mpr (list.le_of_mem hid)
  · intro i
    rw [counts i]
    split <;> omega
  · intro i hi
    rw [counts i]
    split
    · -- All ids and no fault: as many as there were to read.
      have sound : fault? = none := by
        cases fault? with
        | none => rfl
        | some f =>
            rw [Option.toList_some, List.length_singleton] at hi
            omega
      have := whole sound
      omega
    · rfl
  · intro i hi
    rw [counts i, if_pos hi]
    omega
  · intro i
    have reached := (reaches_after d i).2
    rw [reader, List.length_drop] at reached
    dsimp only at reached
    omega

/-- The deltas 5, 1 and 0 are read as a list of five: it ends at the id that is repeated. -/
theorem reads_posting_list_repeating :
    ∃ d, locate [5, 1, 0] 0 5 = .ok d ∧ ∃ ids : List Int64,
      (∀ i, (d.after i).next.1 = (ids.map .ok ++ [.error (.delta 0 6)])[i]?) ∧
      (ids.length : Int) < 5 ∧ ids.Pairwise (· < ·) ∧
      ∀ i, ids.length < i → (d.after i).remaining = 0 := by
  have located : locate [5, 1, 0] 0 5 = .ok ⟨⟨0, [5, 1, 0]⟩, 5, 0, true⟩ := rfl
  refine ⟨_, located, ?_⟩
  obtain ⟨ids, fault?, _, _, calls, _, broken, _, ascends, _, _, _, ended, _⟩ :=
    reads_posting_list located
  have third := (calls 2).symm.trans
    (rfl : _ = some (Except.error (PostingFault.delta 0 6) : Except PostingFault Int64))
  have last : fault? = some (.delta 0 6) := by
    simpa using List.mem_of_getElem? third
  subst last
  exact ⟨ids, calls, (broken _ rfl).1, ascends, ended⟩

end DocIds
end TermStats

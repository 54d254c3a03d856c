import TermStats.Proofs.Output.CutOff
import TermStats.Proofs.Run.TermTotals
import TermStats.Proofs.Wire.RoundTrip

/-!
The stream that a task delivers. The records follow from the items of the merge alone; the socket
decides only whether they arrive. On a socket that never fails a task delivers a closed stream of
them whether it succeeds or not, and on any other it does so when it succeeds.
-/

namespace TermStats

open Wire (Encoder Event TermRecord)

namespace SplitTask

open OutputStream (Going InField Brings Ends)

/-- The records of the descriptors up to a fault of the merge or a document that cannot be read, and
what ended them. -/
def output (t : SplitTask) : List (Except Error Descriptor) → List TermRecord × Except Fault Unit
  | [] => ([], .ok ())
  | .error e :: _ => ([], .error (.error e))
  | .ok d :: rest =>
      match t.recordOf d with
      | .error f => ([], .error f)
      | .ok r => (r :: (t.output rest).1, (t.output rest).2)

/-- The term events of the records that have a counted group. -/
def termEvents (rs : List TermRecord) : List Event :=
  (rs.filter (·.groups ≠ [])).map .term

theorem termEvents_cons (r : TermRecord) (rs : List TermRecord) :
    termEvents (r :: rs) = (if r.groups = [] then [] else [.term r]) ++ termEvents rs := by
  by_cases h : r.groups = [] <;> simp [termEvents, h]

/-- Writes a record, unless it has no counted group. -/
def writeRecord (s : OutputStream) (r : TermRecord) : Attempt OutputStream :=
  if r.groups = [] then (.ok (), s)
  else s.term r.term r.docFreq (r.groups.map (·.group)) (r.groups.flatMap (·.stats))

/-- Writes the record of an item of the merge. -/
def sendItem (t : SplitTask) (s : OutputStream) : Except Error Descriptor → Attempt OutputStream
  | .error e => (.error (.error e), s)
  | .ok d =>
      match t.recordOf d with
      | .error f => (.error f, s)
      | .ok r => writeRecord s r

theorem writeTerm_eq {t : SplitTask} {w : Work} (usable : t.Usable w.totals) (d : Descriptor) :
    (t.writeTerm w d).map id (·.stream) = t.sendItem w.stream (.ok d) ∧
      ((t.writeTerm w d).1 = .ok () → t.Usable (t.writeTerm w d).2.totals) := by
  have totalled := totalTerm_yields usable d
  rw [writeTerm, d.checkInvariant_eq, sendItem, recordOf]
  cases hs : t.samplesOf d with
  | error f =>
      rw [hs] at totalled
      cases ht : t.totalTerm w.totals d with
      | mk x totals =>
          rw [ht] at totalled
          cases totalled
          exact ⟨rfl, fun ok => by cases ok⟩
  | ok samples =>
      rw [hs] at totalled
      obtain ⟨totals, ht, holds⟩ := totalled
      rw [ht]
      have groups : ((groupSums t.numStats samples).map fun e =>
          (⟨e.1, e.2⟩ : Wire.GroupRow)).map (·.group) = countedGroups samples := by
        rw [groupSums, List.map_map, List.map_map]
        exact List.map_id _
      have stats : ((groupSums t.numStats samples).map fun e =>
          (⟨e.1, e.2⟩ : Wire.GroupRow)).flatMap (·.stats) =
            (countedGroups samples).flatMap (columnSums t.numStats samples) := by
        rw [groupSums, List.map_map, List.flatMap_map]
        rfl
      simp only [Except.map, writeRecord, List.map_eq_nil_iff, ← isEmpty_iff holds, groups, stats]
      by_cases empty : totals.isEmpty = true
      · rw [if_pos empty, if_pos empty]
        exact ⟨rfl, fun _ => holds.usable⟩
      · obtain ⟨hsort, sorted⟩ := sort_eq holds
        rw [if_neg empty, if_neg empty, hsort, ← numStats_eq holds]
        exact ⟨rfl, fun _ => sorted.usable⟩

/-- The records do not depend on what the totals were used for before. -/
theorem writeTerms_eq (t : SplitTask) (s : OutputStream) (items : List (Except Error Descriptor)) :
    t.writeTerms s items = Attempt.each t.sendItem s items := by
  refine Attempt.each_project Work.stream (I := fun w => t.Usable w.totals)
    (fun w item usable => ?_) t.usable_noTotals items
  cases item with
  | error e => exact ⟨rfl, nofun⟩
  | ok d => exact writeTerm_eq usable d

section Terms

variable {t : SplitTask} {s s' : OutputStream} {base : Bytes} {events : List Event}
  {start : Socket} {size : Nat}

theorem writeTerms_ok {items : List (Except Error Descriptor)} (holds : s.Holds base events)
    (inField : s.InField t.numStats) (h : t.writeTerms s items = (.ok (), s')) :
    (t.output items).2 = .ok () ∧
      s'.Holds base (events ++ termEvents (t.output items).1) ∧ s'.InField t.numStats := by
  rw [writeTerms_eq] at h
  induction items generalizing s events with
  | nil =>
      cases h
      exact ⟨rfl, by simpa [output, termEvents] using holds, inField⟩
  | cons item rest ih =>
      obtain ⟨s₁, hterm, hrest⟩ := Attempt.andThen_eq_ok.mp h
      cases item with
      | error e => cases hterm
      | ok d =>
          rw [sendItem] at hterm
          cases hr : t.recordOf d with
          | error f =>
              rw [hr] at hterm
              cases hterm
          | ok r =>
              rw [hr] at hterm
              simp only [output, hr, termEvents_cons]
              rw [← List.append_assoc]
              dsimp only [writeRecord] at hterm
              split at hterm
              · rename_i hempty
                cases hterm
                rw [if_pos hempty, List.append_nil]
                exact ih holds inField hrest
              · rename_i hempty
                obtain ⟨holds₁, inField₁⟩ := OutputStream.term_ok holds inField hterm
                rw [if_neg hempty]
                exact ih holds₁ inField₁ hrest

/-- The record is one that the encoder of the task's field takes. -/
def Encodable (t : SplitTask) (r : TermRecord) : Prop :=
  (r.groups.map (·.group)).Pairwise (· < ·) ∧ ∀ row ∈ r.groups, row.Fits t.numStats

/-- On a socket that may break, the records before a fault are brought on their way. -/
theorem writeTerms_brings {items : List (Except Error Descriptor)} (breaks : start.Breaks)
    (going : s.Going start size events) (inField : s.InField t.numStats)
    (encodable : ∀ r ∈ (t.output items).1, t.Encodable r) :
    Brings start size (events ++ termEvents (t.output items).1) (t.output items).2
      (InField t.numStats) (t.writeTerms s items) := by
  rw [writeTerms_eq]
  induction items generalizing s events with
  | nil => exact .inl ⟨s, rfl, by simpa [output, termEvents] using going, inField⟩
  | cons item rest ih =>
      cases item with
      | error e => exact .inl ⟨s, rfl, by simpa [output, termEvents] using going, inField⟩
      | ok d =>
          cases hr : t.recordOf d with
          | error f =>
              refine .inl ⟨s, ?_, by simpa [output, hr, termEvents] using going, inField⟩
              rw [Attempt.each, sendItem, hr]
              simp only [output, hr]
              rfl
          | ok r =>
              simp only [output, hr] at encodable ⊢
              obtain ⟨⟨ascends, widths⟩, hrest⟩ := List.forall_mem_cons.mp encodable
              rw [Attempt.each, sendItem, hr, termEvents_cons, ← List.append_assoc]
              dsimp only [writeRecord]
              split
              · rw [List.append_nil]
                exact ih going inField hrest
              · exact (OutputStream.term_brings breaks going inField
                  (Wire.term_ok inField.stats ascends widths)).andThen (List.prefix_append _ _)
                  fun s₁ going₁ inField₁ => ih going₁ inField₁ hrest

end Terms

/-- The whole stream, when these are its records. -/
def streamEvents (t : SplitTask) (rs : List TermRecord) : List Event :=
  .fieldStart t.field t.provider.kind t.numStats :: termEvents rs ++ [.fieldEnd, .streamEnd]

theorem writeStream_ok {t : SplitTask} {s s' : OutputStream} {base : Bytes} {m : Merge Cursor}
    (holds : s.Holds base []) (idle : s.Idle) (hm : t.provider.mergeSplit t.split = .ok m)
    (h : t.writeStream s = (.ok (), s')) :
    (t.output m.items).2 = .ok () ∧
      ∃ bytes e, Encoder.start.events (t.streamEvents (t.output m.items).1) = .ok (bytes, e) ∧
        s'.socket.socket.sent = base ++ bytes := by
  obtain ⟨s₁, hstart, h⟩ := Attempt.andThen_eq_ok.mp h
  rw [hm] at h
  obtain ⟨s₄, h, hflush⟩ := Attempt.andThen_eq_ok.mp h
  obtain ⟨s₃, h, hend⟩ := Attempt.andThen_eq_ok.mp h
  obtain ⟨s₂, hterms, hfield⟩ := Attempt.andThen_eq_ok.mp h
  obtain ⟨holds₁, inField₁⟩ := OutputStream.fieldStart_ok holds idle hstart
  obtain ⟨all, holds₂, inField₂⟩ := writeTerms_ok holds₁ inField₁ hterms
  obtain ⟨holds₃, _⟩ := OutputStream.fieldEnd_ok holds₂ inField₂ hfield
  have holds₄ := OutputStream.streamEnd_ok holds₃ hend
  obtain ⟨bytes, e, hevents, hsent⟩ := OutputStream.flush_ok holds₄ hflush
  refine ⟨all, bytes, e, ?_, hsent⟩
  rw [← hevents]
  simp [streamEvents]

section Stream

variable {t : SplitTask} {s : OutputStream} {m : Merge Cursor} {start : Socket} {size : Nat}

theorem writeStream_eq (hm : t.provider.mergeSplit t.split = .ok m) :
    t.writeStream s =
      (((s.fieldStart t.field t.provider.kind t.numStats).andThen
        fun s => t.writeTerms s m.items).andThen fun s =>
          (s.fieldEnd.andThen (·.streamEnd)).andThen (·.flush)) := by
  simp only [writeStream, hm, Attempt.andThen_assoc]

theorem fieldStart_terms_brings (breaks : start.Breaks) (going : s.Going start size [])
    (idle : s.Idle) (encodable : ∀ r ∈ (t.output m.items).1, t.Encodable r) :
    Brings start size
      (.fieldStart t.field t.provider.kind t.numStats :: termEvents (t.output m.items).1)
      (t.output m.items).2 (InField t.numStats)
      ((s.fieldStart t.field t.provider.kind t.numStats).andThen (t.writeTerms · m.items)) :=
  (OutputStream.fieldStart_brings breaks going idle _ _ _).andThen (List.prefix_append _ _)
    fun _ going inField => writeTerms_brings breaks going inField encodable

/-- A task that can read everything comes to the end of its stream. -/
theorem writeStream_ends (breaks : start.Breaks) (going : s.Going start size []) (idle : s.Idle)
    (hm : t.provider.mergeSplit t.split = .ok m)
    (encodable : ∀ r ∈ (t.output m.items).1, t.Encodable r)
    (all : (t.output m.items).2 = .ok ()) :
    Ends start size (t.streamEvents (t.output m.items).1) (t.writeStream s) := by
  have terms := fieldStart_terms_brings breaks going idle encodable
  rw [all] at terms
  rw [writeStream_eq hm]
  refine terms.andThen_ends (List.prefix_append _ _) fun _ going inField => ?_
  have fieldEnd := OutputStream.fieldEnd_brings breaks going inField
  have streamEnd := fieldEnd.andThen (List.prefix_append _ _) fun _ going idle =>
    OutputStream.streamEnd_brings breaks going idle
  have flushed := streamEnd.andThen_ends (List.prefix_refl _) fun _ going _ =>
    OutputStream.flush_ends breaks going
  rwa [List.append_assoc] at flushed

/-- A task that meets something it cannot read leaves its stream in its field. -/
theorem writeStream_brings {f : Fault} (breaks : start.Breaks) (going : s.Going start size [])
    (idle : s.Idle) (hm : t.provider.mergeSplit t.split = .ok m)
    (encodable : ∀ r ∈ (t.output m.items).1, t.Encodable r)
    (fault : (t.output m.items).2 = .error f) :
    Brings start size
      (.fieldStart t.field t.provider.kind t.numStats :: termEvents (t.output m.items).1)
      (.error f) (InField t.numStats) (t.writeStream s) := by
  have terms := fieldStart_terms_brings breaks going idle encodable
  rw [fault] at terms
  rw [writeStream_eq hm]
  exact terms.andThen_error

end Stream

/-- How a task ends whose stream ended so: failures are its own errors. -/
def outcome (t : SplitTask) (x : Except Fault Unit) : Except Fault Unit :=
  match catchPanic x with
  | .ok _ => .ok ()
  | .error e => .error (.error (.task t.field t.split e))

theorem outcome_eq_ok {t : SplitTask} {x : Except Fault Unit} :
    t.outcome x = .ok () ↔ x = .ok () := by
  cases x with
  | ok _ => exact ⟨fun _ => rfl, fun _ => rfl⟩
  | error f => exact ⟨nofun, nofun⟩

theorem openStream_eq_ok {t : SplitTask} {socket : Socket} {s : OutputStream} :
    t.openStream socket = .ok s ↔ t.bufferSize ≤ BufferedSocket.maxCapacity ∧
      s = .ofSocket (.ofSocket socket t.bufferSize) := by
  simp only [openStream, BufferedSocket.allocate]
  split
  · rename_i h
    simp [Except.map, h, eq_comm]
  · rename_i h
    simp [Except.map, h]

/-- A task that succeeds, on any socket, has delivered its whole stream. -/
theorem run_ok {t : SplitTask} {slot slot' : SocketSlot} {m : Merge Cursor}
    (hm : t.provider.mergeSplit t.split = .ok m) (h : t.run slot = (.ok (), slot')) :
    (t.output m.items).2 = .ok () ∧
      ∃ bytes e, Encoder.start.events (t.streamEvents (t.output m.items).1) = .ok (bytes, e) ∧
        slot'.socket.sent = slot.socket.sent ++ bytes := by
  simp only [run] at h
  split at h
  · cases h
  · split at h
    · cases h
    · rename_i stream hopen
      obtain ⟨_, rfl⟩ := openStream_eq_ok.mp hopen
      split at h
      · rename_i hx
        rw [catchPanic_ok] at hx
        cases h
        exact writeStream_ok (OutputStream.holds_ofSocket _ _) (OutputStream.idle_ofSocket _) hm
          (Prod.ext hx rfl)
      · split at h <;> cases h

theorem exists_openStream {t : SplitTask} (socket : Socket)
    (fits : t.bufferSize ≤ BufferedSocket.maxCapacity) :
    ∃ stream : OutputStream, t.openStream socket = .ok stream ∧ stream.Idle ∧
      stream.Going socket (max t.bufferSize 1) [] :=
  ⟨_, openStream_eq_ok.mpr ⟨fits, rfl⟩, OutputStream.idle_ofSocket _,
    OutputStream.holds_ofSocket _ _, BufferedSocket.filling_ofSocket _ _⟩

/-- A task on a socket that never fails returns it, and delivers a closed stream also when it
fails. -/
theorem run_neverFails {t : SplitTask} {slot : SocketSlot} {m : Merge Cursor}
    (never : slot.socket.behaviour.NeverFails) (kept : slot.lost = false)
    (fits : t.bufferSize ≤ BufferedSocket.maxCapacity)
    (hm : t.provider.mergeSplit t.split = .ok m)
    (encodable : ∀ r ∈ (t.output m.items).1, t.Encodable r) :
    ∃ slot', t.run slot = (t.outcome (t.output m.items).2, slot') ∧ slot'.lost = false ∧
      slot'.socket.behaviour.NeverFails ∧
      ∃ bytes e, Encoder.start.events (t.streamEvents (t.output m.items).1) = .ok (bytes, e) ∧
        slot'.socket.sent = slot.socket.sent ++ bytes := by
  obtain ⟨stream, hopen, idle, going⟩ := exists_openStream slot.socket fits
  have breaks := Socket.breaks_of_neverFails never
  have kept_behaviour {s : Socket} (later : slot.socket.Later s) : s.behaviour.NeverFails := by
    rw [later.behaviour]
    exact never
  cases hx : (t.output m.items).2 with
  | ok _ =>
      have ends := writeStream_ends breaks going idle hm encodable hx
      obtain ⟨hok, sent⟩ := ends.of_neverFails never
      refine ⟨⟨(t.writeStream stream).2.socket.socket, false⟩, ?_, rfl, kept_behaviour ends.later,
        sent⟩
      simp only [run, kept, Bool.false_eq_true, if_false, hopen, hok, catchPanic, outcome]
  | error f =>
      obtain ⟨s, hwrite, going', inField⟩ :=
        (writeStream_brings breaks going idle hm encodable hx).of_neverFails never
      have ends := OutputStream.closeAfterFailure_ends breaks going' inField
      obtain ⟨hok, sent⟩ := ends.of_neverFails never
      refine ⟨⟨s.closeAfterFailure.2.socket.socket, false⟩, ?_, rfl, kept_behaviour ends.later,
        sent⟩
      simp only [run, kept, Bool.false_eq_true, if_false, hopen, hwrite, catchPanic, outcome]
      cases hclose : s.closeAfterFailure with
      | mk x s' =>
          rw [hclose] at hok
          cases hok
          rfl

/-- Where the buffer cannot be had, the task panics and its socket is gone. -/
theorem run_oversized_eq {t : SplitTask} (slot : SocketSlot)
    (h : BufferedSocket.maxCapacity < t.bufferSize) :
    ∃ p, t.run slot = (.error (.panic p), ⟨slot.socket, true⟩) := by
  simp only [run]
  split
  · rename_i hlost
    have same : slot = ⟨slot.socket, true⟩ := by rw [← hlost]
    exact ⟨_, congrArg (Prod.mk _) same⟩
  · split
    · exact ⟨_, rfl⟩
    · rename_i hopen
      exact absurd (openStream_eq_ok.mp hopen).1 (Nat.not_le.mpr h)

theorem run_oversized {t : SplitTask} (slot : SocketSlot)
    (h : BufferedSocket.maxCapacity < t.bufferSize) :
    (t.run slot).1 ≠ .ok () ∧ (t.run slot).2 = ⟨slot.socket, true⟩ := by
  obtain ⟨p, hrun⟩ := run_oversized_eq slot h
  rw [hrun]
  exact ⟨nofun, rfl⟩

end SplitTask
end TermStats

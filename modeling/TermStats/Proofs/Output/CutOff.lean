import TermStats.Proofs.Output.Breaking
import TermStats.Proofs.Output.Records

/-!
Streams on sockets that may break. Each operation brings its record on the way or leaves a stream
that is cut off; the end of a stream sends all that is on its way. On a socket that never fails
nothing is cut off.
-/

namespace TermStats

open Wire (Encoder Event TermRecord)

namespace OutputStream

/-- Behind what `start` had sent, the records of `events` are on their way, and no call has
failed. -/
structure Going (start : Socket) (size : Nat) (events : List Event) (s : OutputStream) : Prop where
  holds : s.Holds start.sent events
  filling : s.socket.Filling start size

/-- The socket broke on the way of `events`. -/
def Cut (start : Socket) (size : Nat) (events : List Event) (s : OutputStream) : Prop :=
  ∃ part bytes e, part <+: events ∧ Encoder.start.events part = .ok (bytes, e) ∧
    s.socket.Cut start size (start.sent ++ bytes)

/-- All records of `events` have been accepted. -/
def Sent (start : Socket) (events : List Event) (s : OutputStream) : Prop :=
  ∃ bytes e, Encoder.start.events events = .ok (bytes, e) ∧
    s.socket.socket.sent = start.sent ++ bytes

/-- What an operation comes to that would end with `x` were it not for the socket: the records of
`events` are on their way, or the stream is cut off. -/
def Brings (start : Socket) (size : Nat) (events : List Event) (x : Except Fault Unit)
    (P : OutputStream → Prop) (r : Attempt OutputStream) : Prop :=
  (∃ s, r = (x, s) ∧ s.Going start size events ∧ P s) ∨
    ∃ f s, r = (.error f, s) ∧ s.Cut start size events

/-- What the end of a stream comes to: its records have been accepted, or it is cut off. Only a
broken socket makes it fail. -/
structure Ends (start : Socket) (size : Nat) (events : List Event) (r : Attempt OutputStream) :
    Prop where
  later : start.Later r.2.socket.socket
  broken : r.1 ≠ .ok () → r.2.socket.socket.Broken
  arrives : r.2.Sent start events ∨ r.2.Cut start size events

section Brings

variable {start : Socket} {size : Nat} {events more : List Event} {x : Except Fault Unit}
  {P Q : OutputStream → Prop} {r : Attempt OutputStream} {s : OutputStream} {numStats : Nat}
  {next : OutputStream → Attempt OutputStream}

theorem Cut.mono (cut : s.Cut start size events) (h : events <+: more) :
    s.Cut start size more := by
  obtain ⟨part, bytes, e, hpart, hbytes, cut⟩ := cut
  exact ⟨part, bytes, e, hpart.trans h, hbytes, cut⟩

theorem Cut.later (cut : s.Cut start size events) : start.Later s.socket.socket := by
  obtain ⟨_, _, _, _, _, cut⟩ := cut
  exact cut.later

theorem Cut.broken (cut : s.Cut start size events) : s.socket.socket.Broken := by
  obtain ⟨_, _, _, _, _, cut⟩ := cut
  exact cut.broken

/-- On a socket that never fails, an operation comes to what it would come to on its own. -/
theorem Brings.of_neverFails (h : Brings start size events x P r)
    (never : start.behaviour.NeverFails) :
    ∃ s, r = (x, s) ∧ s.Going start size events ∧ P s :=
  h.resolve_right fun ⟨_, _, _, cut⟩ => cut.later.not_broken never cut.broken

theorem Ends.of_neverFails (h : Ends start size events r) (never : start.behaviour.NeverFails) :
    r.1 = .ok () ∧ r.2.Sent start events := by
  have whole : ¬r.2.socket.socket.Broken := h.later.not_broken never
  refine ⟨Classical.byContradiction fun failed => whole (h.broken failed), ?_⟩
  exact h.arrives.resolve_right fun cut => whole cut.broken

theorem Brings.andThen (h : Brings start size events (.ok ()) P r) (first : events <+: more)
    (goes : ∀ s, s.Going start size events → P s → Brings start size more x Q (next s)) :
    Brings start size more x Q (r.andThen next) := by
  rcases h with ⟨s, rfl, going, hs⟩ | ⟨f, s, rfl, cut⟩
  · exact goes s going hs
  · exact .inr ⟨f, s, rfl, cut.mono first⟩

/-- What comes after a failure is not done. -/
theorem Brings.andThen_error {f : Fault} (h : Brings start size events (.error f) P r) :
    Brings start size events (.error f) P (r.andThen next) := by
  rcases h with ⟨s, rfl, goes⟩ | ⟨f', s, rfl, cut⟩
  · exact .inl ⟨s, rfl, goes⟩
  · exact .inr ⟨f', s, rfl, cut⟩

theorem Brings.andThen_ends (h : Brings start size events (.ok ()) P r) (first : events <+: more)
    (ends : ∀ s, s.Going start size events → P s → Ends start size more (next s)) :
    Ends start size more (r.andThen next) := by
  rcases h with ⟨s, rfl, going, hs⟩ | ⟨f, s, rfl, cut⟩
  · exact ends s going hs
  · exact ⟨cut.later, fun _ => cut.broken, .inr (cut.mono first)⟩

theorem settle_fst (s : OutputStream) (r : Attempt BufferedSocket) : (s.settle r).1 = r.1 := by
  match r with
  | (.ok _, _) => rfl
  | (.error (.error _), _) => rfl
  | (.error (.panic _), _) => rfl

theorem socket_settle (s : OutputStream) (r : Attempt BufferedSocket) :
    (s.settle r).2.socket = r.2 := by
  match r with
  | (.ok _, _) => rfl
  | (.error (.error _), _) => rfl
  | (.error (.panic _), _) => rfl

theorem emit_brings {record : Bytes} {encoder : Encoder} (breaks : start.Breaks)
    (going : s.Going start size events) (ev : Event)
    (he : s.encoder.event ev = .ok (record, encoder)) :
    Brings start size (events ++ [ev]) (.ok ())
      (fun s' => s' = { s with encoder := encoder, socket := s'.socket })
      ({ s with encoder := encoder }.emit record) := by
  have result := settle_fst { s with encoder := encoder } (s.socket.write record)
  have socket := socket_settle { s with encoder := encoder } (s.socket.write record)
  cases hr : { s with encoder := encoder }.emit record with
  | mk x s' =>
      rw [emit] at hr
      rw [hr] at result socket
      cases x with
      | ok _ =>
          obtain ⟨holds, same⟩ := holds_emit ev going.holds he hr
          have written : s.socket.write record = (.ok (), s'.socket) :=
            Prod.ext result.symm socket.symm
          exact .inl ⟨s', rfl, ⟨holds, BufferedSocket.write_filling going.filling written⟩, same⟩
      | error f =>
          have written : s.socket.write record = (.error f, s'.socket) :=
            Prod.ext result.symm socket.symm
          obtain ⟨bytes, hevents, hdelivered⟩ := going.holds
          refine .inr ⟨f, s', rfl, _, bytes ++ record, encoder, List.prefix_refl _,
            Encoder.events_concat hevents he, ?_⟩
          rw [← List.append_assoc, ← hdelivered]
          exact BufferedSocket.write_cut breaks going.filling written

theorem inState_eq (s : OutputStream) {expected : StreamState} (operation : String)
    (write : Attempt OutputStream) (h : s.state = expected) :
    s.inState expected operation write = write :=
  if_pos h

theorem fieldStart_brings (breaks : start.Breaks) (going : s.Going start size events)
    (idle : s.Idle) (name : String) (kind : TermKind) (numStats : Nat) :
    Brings start size (events ++ [.fieldStart name kind numStats]) (.ok ()) (InField numStats)
      (s.fieldStart name kind numStats) := by
  rw [fieldStart, inState_eq _ _ _ idle.state]
  refine (emit_brings breaks going (.fieldStart name kind numStats) rfl).andThen
    (List.prefix_refl _) fun s₁ going₁ same => .inl ⟨_, rfl, ⟨going₁.holds, going₁.filling⟩, ?_⟩
  rw [same]
  exact ⟨rfl, rfl, idle.unended, rfl⟩

theorem fieldEnd_brings (breaks : start.Breaks) (going : s.Going start size events)
    (inField : s.InField numStats) :
    Brings start size (events ++ [.fieldEnd]) (.ok ()) Idle s.fieldEnd := by
  rw [fieldEnd, inState_eq _ _ _ inField.state]
  refine (emit_brings breaks going .fieldEnd rfl).andThen
    (List.prefix_refl _) fun s₁ going₁ same => .inl ⟨_, rfl, ⟨going₁.holds, going₁.filling⟩, ?_⟩
  rw [same]
  exact ⟨rfl, rfl, inField.unended⟩

theorem term_brings (breaks : start.Breaks) (going : s.Going start size events)
    (inField : s.InField numStats) {r : TermRecord} {record : Bytes} {encoder : Encoder}
    (he : s.encoder.event (.term r) = .ok (record, encoder)) :
    Brings start size (events ++ [.term r]) (.ok ()) (InField numStats)
      (s.term r.term r.docFreq (r.groups.map (·.group)) (r.groups.flatMap (·.stats))) := by
  have encoded : s.encoder.term r.term r.docFreq (r.groups.map (·.group))
      (r.groups.flatMap (·.stats)) = .ok (record, encoder) := he
  have op : s.term r.term r.docFreq (r.groups.map (·.group)) (r.groups.flatMap (·.stats)) =
      { s with encoder := encoder }.emit record := by
    rw [term, inState_eq _ _ _ inField.state, encoded]
  rw [op]
  rcases emit_brings breaks going (.term r) he with ⟨s₁, hemit, going₁, _⟩ | cut
  · exact .inl ⟨s₁, hemit, going₁, (term_ok going.holds inField (op.trans hemit)).2⟩
  · exact .inr cut

theorem streamEnd_brings (breaks : start.Breaks) (going : s.Going start size events)
    (idle : s.Idle) :
    Brings start size (events ++ [.streamEnd]) (.ok ()) (fun _ => True) s.streamEnd := by
  rw [streamEnd, inState_eq _ _ _ idle.state]
  exact (emit_brings breaks going .streamEnd rfl).andThen (List.prefix_refl _)
    fun s₁ going₁ _ => .inl ⟨_, rfl, ⟨going₁.holds, going₁.filling⟩, trivial⟩

/-- The last flush sends all that is on its way, or the stream is cut off. -/
theorem flush_ends (breaks : start.Breaks) (going : s.Going start size events) :
    Ends start size events s.flush := by
  obtain ⟨bytes, hevents, hdelivered⟩ := going.holds
  obtain ⟨broken, ends⟩ := BufferedSocket.flush_ends breaks going.filling
  have later := going.filling.later.trans (BufferedSocket.later_flush s.socket)
  rw [hdelivered] at ends
  rw [flush]
  refine ⟨by rwa [socket_settle], by rwa [settle_fst, socket_settle], ?_⟩
  simp only [Sent, Cut, socket_settle]
  refine ends.imp (fun sent => ?_) fun cut => ?_
  · exact ⟨bytes, _, hevents, sent⟩
  · exact ⟨events, bytes, _, List.prefix_refl _, hevents, cut⟩

theorem later_closeAfterFailure (s : OutputStream) :
    s.socket.socket.Later s.closeAfterFailure.2.socket.socket := by
  have same : missingMarkers { s with state := .poisoned } = s.missingMarkers := rfl
  have written := BufferedSocket.later_write s.socket s.missingMarkers
  simp only [closeAfterFailure, same]
  cases hw : s.socket.write s.missingMarkers with
  | mk x b =>
      rw [hw] at written
      cases x with
      | error f => exact written
      | ok _ =>
          have flushed := written.trans (BufferedSocket.later_flush b)
          dsimp only
          split
          · exact flushed
          · exact flushed

/-- Closing a stream in its field sends both markers, or the stream is cut off. -/
theorem closeAfterFailure_ends (breaks : start.Breaks) (going : s.Going start size events)
    (inField : s.InField numStats) :
    Ends start size (events ++ [.fieldEnd, .streamEnd]) s.closeAfterFailure := by
  have later := going.filling.later.trans (later_closeAfterFailure s)
  obtain ⟨bytes, hevents, hdelivered⟩ := going.holds
  have all := events_missingMarkers hevents inField
  have same : missingMarkers { s with state := .poisoned } = s.missingMarkers := rfl
  simp only [closeAfterFailure, same] at later ⊢
  cases hw : s.socket.write s.missingMarkers with
  | mk x b =>
      rw [hw] at later
      cases x with
      | error f =>
          have cut := BufferedSocket.write_cut breaks going.filling hw
          rw [hdelivered, List.append_assoc] at cut
          exact ⟨later, fun _ => cut.broken, .inr ⟨_, _, _, List.prefix_refl _, all, cut⟩⟩
      | ok _ =>
          obtain ⟨broken, ends⟩ := BufferedSocket.flush_ends breaks
            (BufferedSocket.write_filling going.filling hw)
          rw [BufferedSocket.write_ok hw, hdelivered, List.append_assoc] at ends
          refine ⟨later, ?_, ends.imp (fun sent => ⟨_, _, all, ?_⟩)
            fun cut => ⟨_, _, _, List.prefix_refl _, all, ?_⟩⟩
          · dsimp only
            split <;> exact broken
          · dsimp only
            split <;> exact sent
          · dsimp only
            split <;> exact cut

end Brings

end OutputStream
end TermStats

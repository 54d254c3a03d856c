import TermStats.Proofs.Output.Carried

/-!
Calls that fail without harm: nothing of them is on its way, or a term as a whole, or the markers
that complete the stream. As long as no other call fails, whole records are on their way, and they
are the first that were passed.
-/

namespace TermStats

open Wire (Encoder EncoderCall Event Leads Scope)

def Wire.EncoderCall.terms (calls : List EncoderCall) : List EncoderCall :=
  calls.filter (·.isTerm)

theorem Wire.EncoderCall.terms_append (calls more : List EncoderCall) :
    terms (calls ++ more) = terms calls ++ terms more :=
  List.filter_append ..

theorem Wire.Scope.terms_closing (scope : Scope) :
    EncoderCall.terms (scope.closing.map .ofEvent) = [] := by
  cases scope <;> rfl

namespace OutputStream

/-- The call, if it fails, leaves only whole records behind, and marks that fit them. -/
inductive Harmless (s : OutputStream) : StreamCall → Prop where
  | unchanged {c : StreamCall} (delivered : (s.call c).2.socket.delivered = s.socket.delivered)
      (fieldOpen : (s.call c).2.fieldOpen = s.fieldOpen)
      (endWritten : (s.call c).2.endWritten = s.endWritten) : Harmless s c
  | term {id : TermId} {docFreq : UInt64} {groups : List UInt32} {stats : List Int64}
      {record : Bytes} {encoder : Encoder}
      (encoded : s.encoder.term id docFreq groups stats = .ok (record, encoder))
      (delivered : (s.term id docFreq groups stats).2.socket.delivered =
        s.socket.delivered ++ record) : Harmless s (.write (.term id docFreq groups stats))
  | close (delivered : s.closeAfterFailure.2.socket.delivered =
        s.socket.delivered ++ s.missingMarkers)
      (fieldOpen : s.closeAfterFailure.2.fieldOpen = false)
      (endWritten : s.closeAfterFailure.2.endWritten = true) : Harmless s .close

/-- Each of some calls succeeds or does no harm. -/
def Unharmed (s : OutputStream) : List StreamCall → Prop
  | [] => True
  | c :: rest => ((s.call c).1 = .ok () ∨ s.Harmless c) ∧ (s.call c).2.Unharmed rest

theorem Unharmed.at {s : OutputStream} {calls before later : List StreamCall} {c : StreamCall}
    (unharmed : s.Unharmed calls) (split : calls = before ++ c :: later) :
    ((s.after before).call c).1 = .ok () ∨ (s.after before).Harmless c := by
  subst split
  induction before generalizing s with
  | nil => exact unharmed.1
  | cons first rest ih => exact ih unharmed.2

/-- When some call does harm, there is one that does and none after it. -/
theorem unharmed_or_last (s : OutputStream) (calls : List StreamCall) :
    s.Unharmed calls ∨ ∃ before c later, calls = before ++ c :: later ∧
      ((s.after before).call c).1 ≠ .ok () ∧ ¬ (s.after before).Harmless c ∧
      ((s.after before).call c).2.Unharmed later := by
  induction calls generalizing s with
  | nil => exact .inl trivial
  | cons c rest ih =>
      rcases ih (s.call c).2 with unharmed | ⟨before, last, later, rfl, harm⟩
      · by_cases fine : (s.call c).1 = .ok () ∨ s.Harmless c
        · exact .inl ⟨fine, unharmed⟩
        · obtain ⟨failed, harmful⟩ := not_or.mp fine
          exact .inr ⟨[], c, rest, rfl, failed, harmful, unharmed⟩
      · exact .inr ⟨c :: before, last, later, rfl, harm⟩

/-- Whole records are on their way, in their order, whose terms are the first that were passed; and
as long as others may follow they are all. -/
def Sound (base : Bytes) (kind : Option TermKind) (passed : List EncoderCall) (s : OutputStream) :
    Prop :=
  ∃ events scope, s.Carries base events scope ∧ Leads .outside events scope ∧
    EncoderCall.terms (events.map .ofEvent) <+: EncoderCall.terms passed ∧
    (¬ s.Shut → scope.kind? = kind ∧
      EncoderCall.terms (events.map .ofEvent) = EncoderCall.terms passed)

theorem sound_onSocket (socket : Socket) (capacity : Nat) :
    (onSocket socket capacity).Sound socket.sent none [] :=
  ⟨[], .outside, carries_onSocket socket capacity, .nil _, List.prefix_refl _, fun _ => ⟨rfl, rfl⟩⟩

section Sound

variable {s s' : OutputStream} {base : Bytes} {kind kind' : Option TermKind}
  {passed : List EncoderCall} {c : EncoderCall}

/-- A stream that carries on with the same records, and takes no other, is as sound as before. -/
theorem Sound.shut (sound : s.Sound base kind passed) (shut : s'.Shut)
    (carries : ∀ events scope, s.Carries base events scope → s'.Carries base events scope)
    (more : List EncoderCall) : s'.Sound base kind' (passed ++ more) := by
  obtain ⟨events, scope, hcarries, leads, first, -⟩ := sound
  rw [Sound, EncoderCall.terms_append]
  exact ⟨events, scope, carries events scope hcarries, leads, first.trans (List.prefix_append _ _),
    fun going => absurd shut going⟩

theorem terms_concat {events : List Event} {record : Bytes} {encoder : Encoder}
    (encoded : s.encoder.call c = (.ok record, encoder))
    (terms : EncoderCall.terms (events.map .ofEvent) = EncoderCall.terms passed) :
    EncoderCall.terms ((events ++ [c.event s.encoder.numStats]).map .ofEvent) =
      EncoderCall.terms (passed ++ [c]) := by
  have same := (EncoderCall.event_of_call encoded).2.1
  rw [List.map_append, EncoderCall.terms_append, EncoderCall.terms_append, terms, List.map_cons,
    same, List.map_nil]

theorem Sound.write_ok (sound : s.Sound base kind passed) (fits : c.Fits) (ofKind : c.OfKind kind)
    (ok : (s.write c).1 = .ok ()) :
    (s.write c).2.Sound base (c.kindAfter kind) (passed ++ [c]) := by
  obtain ⟨events, scope, carries, leads, -, all⟩ := sound
  obtain ⟨going, follows, ⟨record, encoded⟩, carries'⟩ := carries.write_ok (Prod.ext ok rfl)
  obtain ⟨rfl, terms⟩ := all going
  have allowed := EncoderCall.allowed_of_call encoded follows (carries.stats going) fits ofKind
  have terms' := terms_concat encoded terms
  exact ⟨_, _, carries', leads.append (.cons allowed (.nil _)), terms' ▸ List.prefix_refl _,
    fun _ => ⟨EncoderCall.kind_next follows, terms'⟩⟩

/-- A term whose record is on its way as a whole is carried, although its call failed. -/
theorem Carries.whole_term {events : List Event} {scope : Scope}
    (carries : s.Carries base events scope) (going : ¬ s.Shut) {record : Bytes} {encoder : Encoder}
    (encoded : s.encoder.call c = (.ok record, encoder)) (shut : s'.Shut)
    (delivered : s'.socket.delivered = s.socket.delivered ++ record)
    (fieldOpen : s'.fieldOpen = s.fieldOpen) (endWritten : s'.endWritten = s.endWritten) :
    s'.Carries base (events ++ [c.event s.encoder.numStats]) scope := by
  obtain ⟨bytes, e, hevents, hdelivered, behind⟩ := carries.records
  rw [behind going] at hevents
  have hevent := (EncoderCall.event_of_call encoded).1
  refine ⟨⟨bytes ++ record, encoder, Encoder.events_concat hevents hevent, ?_,
    fun going => absurd shut going⟩, fun going => absurd shut going, fun going => absurd shut going,
    fieldOpen.trans carries.fieldOpen, endWritten.trans carries.endWritten⟩
  rw [delivered, hdelivered, List.append_assoc]

/-- A record that is on its way as a whole although its call failed counts, when the marks are those
behind it. -/
theorem Sound.write_failed (never : s.socket.socket.behaviour.NeverPanics)
    (sound : s.Sound base kind passed) (fits : c.Fits) (ofKind : c.OfKind kind)
    (failed : (s.write c).1 ≠ .ok ()) (harmless : s.Harmless (.write c)) :
    (s.write c).2.Sound base kind' (passed ++ [c]) := by
  obtain ⟨shut, fieldOpen, endWritten, outcome⟩ := s.write_failed never failed
  cases harmless with
  | unchanged delivered =>
      exact sound.shut shut (fun _ _ h => h.shut shut delivered fieldOpen endWritten) [c]
  | @term id docFreq groups stats record encoder encoded delivered =>
      rcases outcome with same | ⟨expected, -⟩
      · refine sound.shut shut (fun _ _ h => h.shut shut ?_ fieldOpen endWritten) _
        rw [same]
      · obtain ⟨events, scope, carries, leads, -, all⟩ := sound
        have going := not_shut_of_expected expected
        obtain ⟨rfl, terms⟩ := all going
        have follows := follows_of_expected (carries.state going) expected
        have encoded : s.encoder.call (.term id docFreq groups stats) = (.ok record, encoder) := by
          simp only [Encoder.call, encoded]
        have allowed :=
          EncoderCall.allowed_of_call encoded follows (carries.stats going) fits ofKind
        exact ⟨_, scope, carries.whole_term going encoded shut delivered fieldOpen endWritten,
          leads.append (.cons allowed (.nil _)), terms_concat encoded terms ▸ List.prefix_refl _,
          fun going => absurd shut going⟩

theorem Sound.flush (sound : s.Sound base kind passed)
    (fine : s.flush.1 = .ok () ∨ s.Harmless .flush) :
    s.flush.2.Sound base kind passed := by
  obtain ⟨events, scope, carries, leads, first, all⟩ := sound
  have carries' : s.flush.2.Carries base events scope := by
    rcases fine with ok | harmless
    · exact (carries.flush_ok ok).1
    · cases harmless with
      | unchanged delivered => exact carries.flush delivered
  exact ⟨events, scope, carries', leads, first,
    fun going => all fun shut => going (shut.call .flush)⟩

theorem Sound.close (sound : s.Sound base kind passed)
    (fine : s.closeAfterFailure.1 = .ok () ∨ s.Harmless .close) :
    s.closeAfterFailure.2.Sound base kind' passed := by
  have shut := s.shut_closeAfterFailure
  have closed (delivered : s.closeAfterFailure.2.socket.delivered =
        s.socket.delivered ++ s.missingMarkers)
      (fieldOpen : s.closeAfterFailure.2.fieldOpen = false)
      (endWritten : s.closeAfterFailure.2.endWritten = true) :
      s.closeAfterFailure.2.Sound base kind' passed := by
    obtain ⟨events, scope, carries, leads, first, -⟩ := sound
    refine ⟨_, _, carries.closed shut delivered fieldOpen endWritten, leads.closing, ?_,
      fun going => absurd shut going⟩
    rw [List.map_append, EncoderCall.terms_append, scope.terms_closing, List.append_nil]
    exact first
  rcases fine with ok | harmless
  · obtain ⟨delivered, -, fieldOpen, endWritten⟩ := delivered_close (Prod.ext ok rfl)
    exact closed delivered fieldOpen endWritten
  · cases harmless with
    | unchanged delivered fieldOpen endWritten =>
        have same : s.closeAfterFailure.2.Sound base kind' (passed ++ []) := sound.shut shut
          (fun _ _ h => h.shut shut delivered fieldOpen endWritten) []
        rwa [List.append_nil] at same
    | close delivered fieldOpen endWritten => exact closed delivered fieldOpen endWritten

theorem Sound.call (never : s.socket.socket.behaviour.NeverPanics)
    (sound : s.Sound base kind passed) {c : StreamCall} (fits : ∀ w, c = .write w → w.Fits)
    (ofKind : c.OfKind kind) (fine : (s.call c).1 = .ok () ∨ s.Harmless c) :
    (s.call c).2.Sound base (if (s.call c).1.isOk then c.kindAfter kind else kind)
      (passed ++ c.written) := by
  cases c with
  | write w =>
      by_cases ok : (s.write w).1 = .ok ()
      · rw [OutputStream.call, ok]
        exact sound.write_ok (fits w rfl) ofKind ok
      · exact sound.write_failed never (fits w rfl) ofKind ok (fine.resolve_left ok)
  | flush =>
      rw [StreamCall.kindAfter, ite_self, StreamCall.written, List.append_nil]
      exact sound.flush fine
  | close =>
      rw [StreamCall.written, List.append_nil]
      exact sound.close fine

theorem Sound.after (never : s.socket.socket.behaviour.NeverPanics)
    (sound : s.Sound base kind passed) {calls more : List StreamCall}
    (fits : ∀ w, .write w ∈ calls → w.Fits) (kinds : s.KeepsKinds kind (calls ++ more))
    (unharmed : s.Unharmed calls) :
    ∃ kind', (s.after calls).Sound base kind' (passed ++ calls.flatMap (·.written)) ∧
      (s.after calls).KeepsKinds kind' more := by
  induction calls generalizing s kind passed with
  | nil =>
      rw [List.flatMap_nil, List.append_nil]
      exact ⟨kind, sound, kinds⟩
  | cons c rest ih =>
      obtain ⟨ofKind, kinds⟩ := kinds
      obtain ⟨fine, unharmed⟩ := unharmed
      have fitsHead (w : EncoderCall) (h : c = .write w) : w.Fits := by
        apply fits
        rw [h]
        exact List.mem_cons_self
      have sound' := sound.call never fitsHead ofKind fine
      have tail := ih (neverPanics_call never c) sound'
        (fun w h => fits w (List.mem_cons_of_mem c h)) kinds unharmed
      rw [List.flatMap_cons, ← List.append_assoc]
      exact tail

end Sound

end OutputStream

end TermStats

import TermStats.Proofs.Output.Delivery

/-!
Sockets that break: from the first call that fails on, every call fails and no byte is accepted.
Behind a buffer, such a socket has accepted a beginning of what was to be delivered, and a number of
whole buffers when the write that failed took nothing and no flush came before.
-/

namespace TermStats

namespace Socket

/-- What calls make of a socket. Nothing is written when there is nothing to write. -/
inductive Later (s : Socket) : Socket → Prop where
  | refl : s.Later s
  | write {s' : Socket} {data : Bytes} : s.Later s' → data ≠ [] → s.Later (s'.write data).2
  | flush {s' : Socket} : s.Later s' → s.Later s'.flush.2

/-- From now on every call fails, and nothing is accepted. -/
def Broken (s : Socket) : Prop :=
  ∀ s', s.Later s' →
    (∀ data ≠ [], (s'.write data).1 ≠ .ok () ∧ (s'.write data).2.sent = s'.sent) ∧
      s'.flush.1 ≠ .ok ()

/-- The call that fails first, a write or a flush, breaks the socket. A write may have accepted some
of its bytes by then. -/
def Breaks (s : Socket) : Prop :=
  ∀ s', s.Later s' →
    (∀ data ≠ [], (s'.write data).1 ≠ .ok () → (s'.write data).2.Broken) ∧
      (s'.flush.1 ≠ .ok () → s'.flush.2.Broken)

/-- A write that fails has accepted nothing. -/
def AcceptsWhole (s : Socket) : Prop :=
  ∀ s', s.Later s' → ∀ data ≠ [], (s'.write data).1 ≠ .ok () → (s'.write data).2.sent = s'.sent

/-- What a write adds is a beginning of its data. -/
theorem sent_write (s : Socket) (data : Bytes) :
    ∃ taken, taken <+: data ∧ (s.write data).2.sent = s.sent ++ taken := by
  simp only [write]
  split
  · exact ⟨data, List.prefix_refl _, rfl⟩
  · exact ⟨_, List.take_prefix _ _, rfl⟩
  · exact ⟨[], List.nil_prefix, (List.append_nil _).symm⟩

theorem calls_write (s : Socket) (data : Bytes) : (s.write data).2.calls = s.calls + 1 := by
  simp only [write]
  split <;> rfl

theorem calls_flush (s : Socket) : s.flush.2.calls = s.calls + 1 := by
  simp only [flush]
  split <;> rfl

section Later

variable {s s' s'' : Socket}

theorem Later.trans (h : s.Later s') (h' : s'.Later s'') : s.Later s'' := by
  induction h' with
  | refl => exact h
  | write _ some_data ih => exact ih.write some_data
  | flush _ ih => exact ih.flush

theorem Later.behaviour (h : s.Later s') : s'.behaviour = s.behaviour := by
  induction h with
  | refl => rfl
  | write _ _ ih => exact (behaviour_write _ _).trans ih
  | flush _ ih => exact (behaviour_flush _).trans ih

theorem Later.calls (h : s.Later s') : s.calls ≤ s'.calls := by
  induction h with
  | refl => exact Nat.le_refl _
  | write _ _ ih =>
      rw [calls_write]
      exact Nat.le_succ_of_le ih
  | flush _ ih =>
      rw [calls_flush]
      exact Nat.le_succ_of_le ih

theorem Later.sent_prefix (h : s.Later s') : s.sent <+: s'.sent := by
  induction h with
  | refl => exact List.prefix_refl _
  | @write s' data _ _ ih =>
      obtain ⟨taken, _, sent⟩ := sent_write s' data
      rw [sent]
      exact ih.trans (List.prefix_append _ _)
  | flush _ ih =>
      rw [sent_flush]
      exact ih

theorem Broken.sent (broken : s.Broken) (h : s.Later s') : s'.sent = s.sent := by
  induction h with
  | refl => rfl
  | write earlier some_data ih => exact ((broken _ earlier).1 _ some_data).2.trans ih
  | flush _ ih => exact (sent_flush _).trans ih

theorem breaks_of_neverFails (never : s.behaviour.NeverFails) : s.Breaks := by
  intro s' later
  have never' : s'.behaviour.NeverFails := by
    rw [later.behaviour]
    exact never
  exact ⟨fun data _ failed => absurd (write_neverFails never' data) failed,
    fun failed => absurd (flush_neverFails never') failed⟩

theorem Later.not_broken (h : s.Later s') (never : s.behaviour.NeverFails) : ¬s'.Broken := by
  intro broken
  have never' : s'.behaviour.NeverFails := by
    rw [h.behaviour]
    exact never
  exact (broken s' .refl).2 (flush_neverFails never')

end Later

end Socket

/-- The first `calls` calls succeed and all others fail; if call number `calls` is a write, it
accepts `taken` bytes. -/
def SocketBehaviour.breaking (calls taken : Nat) : SocketBehaviour where
  onWrite n _ _ :=
    if n < calls then .accepted
    else .failed (if n = calls then taken else 0) "connection reset by peer"
  onFlush n _ := if n < calls then .flushed else .failed "flush failed"

section Breaking

variable {s : Socket} {calls taken : Nat}

theorem Socket.broken_of_breaking (hb : s.behaviour = .breaking calls taken)
    (past : calls < s.calls) : s.Broken := by
  intro s' later
  have hb' : s'.behaviour = .breaking calls taken := later.behaviour.trans hb
  have past' : calls < s'.calls := Nat.lt_of_lt_of_le past later.calls
  have failing : ¬s'.calls < calls := Nat.not_lt.mpr (Nat.le_of_lt past')
  have other : s'.calls ≠ calls := Nat.ne_of_gt past'
  refine ⟨fun data _ => ?_, ?_⟩
  · simp [write, hb', SocketBehaviour.breaking, failing, other]
  · simp [flush, hb', SocketBehaviour.breaking, failing]

theorem Socket.breaks_of_breaking (hb : s.behaviour = .breaking calls taken) : s.Breaks := by
  intro s' later
  have hb' : s'.behaviour = .breaking calls taken := later.behaviour.trans hb
  -- A call that fails is not one of the first, so the next is past the one that breaks.
  have past (failed : ¬s'.calls < calls) : calls < s'.calls + 1 :=
    Nat.lt_succ_of_le (Nat.le_of_not_lt failed)
  refine ⟨fun data _ failed => ?_, fun failed => ?_⟩
  · refine broken_of_breaking ((behaviour_write _ _).trans hb') ?_
    rw [calls_write]
    refine past fun early => failed ?_
    simp [write, hb', SocketBehaviour.breaking, early]
  · refine broken_of_breaking ((behaviour_flush _).trans hb') ?_
    rw [calls_flush]
    refine past fun early => failed ?_
    simp [flush, hb', SocketBehaviour.breaking, early]

theorem Socket.acceptsWhole_of_breaking (hb : s.behaviour = .breaking calls 0) :
    s.AcceptsWhole := by
  intro s' later data _ failed
  have hb' : s'.behaviour = .breaking calls 0 := later.behaviour.trans hb
  have late : ¬s'.calls < calls := fun early =>
    failed (by simp [write, hb', SocketBehaviour.breaking, early])
  simp [write, hb', SocketBehaviour.breaking, late]

end Breaking

namespace BufferedSocket

/-- `sent` is what `start` had sent, and behind it whole buffers of the given size. -/
def InBlocks (start : Socket) (size : Nat) (sent : Bytes) : Prop :=
  ∃ blocks, sent = start.sent ++ blocks ∧ size ∣ blocks.length

/-- No call has failed since `start`, and only full buffers have been written. -/
structure Filling (start : Socket) (size : Nat) (b : BufferedSocket) : Prop where
  later : start.Later b.socket
  capacity : b.capacity = size
  within : b.buffer.length ≤ size
  blocks : InBlocks start size b.socket.sent

/-- The socket broke on the way of `bytes`: it has a beginning of them, and whole buffers when it
accepts writes as a whole. -/
structure Cut (start : Socket) (size : Nat) (bytes : Bytes) (b : BufferedSocket) : Prop where
  later : start.Later b.socket
  broken : b.socket.Broken
  sent : b.socket.sent <+: bytes
  blocks : start.AcceptsWhole → InBlocks start size b.socket.sent

section Blocks

variable {start : Socket} {size : Nat} {b b' : BufferedSocket} {data : Bytes} {f : Fault}

theorem InBlocks.append {sent block : Bytes} (h : InBlocks start size sent)
    (full : block.length = size) : InBlocks start size (sent ++ block) := by
  obtain ⟨blocks, rfl, hblocks⟩ := h
  refine ⟨blocks ++ block, List.append_assoc _ _ _, ?_⟩
  rw [List.length_append, full]
  exact Nat.dvd_add hblocks (Nat.dvd_refl _)

theorem filling_ofSocket (socket : Socket) (capacity : Nat) :
    (ofSocket socket capacity).Filling socket (max capacity 1) :=
  ⟨.refl, rfl, Nat.zero_le _, [], (List.append_nil _).symm, Nat.dvd_zero _⟩

theorem later_flush (b : BufferedSocket) : b.socket.Later b.flush.2.socket := by
  simp only [flush]
  split
  · exact .flush .refl
  · rename_i some_bytes
    have written : b.socket.Later (b.socket.write b.buffer).2 := .write .refl some_bytes
    split
    · rename_i hw
      rwa [hw] at written
    · rename_i hw
      rw [hw] at written
      exact .flush written

theorem later_write (b : BufferedSocket) (data : Bytes) :
    b.socket.Later (b.write data).2.socket := by
  fun_induction write b data with
  | case1 => exact .refl
  | case2 => exact .refl
  | case3 b data _ _ _ b₁ hf =>
      have flushed := later_flush { b with buffer := b.buffer ++ data.take b.room }
      rwa [hf] at flushed
  | case4 b data _ _ _ b₁ hf ih =>
      have flushed := later_flush { b with buffer := b.buffer ++ data.take b.room }
      rw [hf] at flushed
      exact flushed.trans ih

/-- A flush that fails breaks the socket. The buffer has been accepted when the write went well, and
else only the beginning that the write took of it. -/
theorem flush_failed (breaks : start.Breaks) (later : start.Later b.socket)
    (h : b.flush = (.error f, b')) :
    b'.socket.Broken ∧ (b'.socket.sent = b.delivered ∨
      ∃ taken, taken <+: b.buffer ∧ b'.socket.sent = b.socket.sent ++ taken ∧
        (start.AcceptsWhole → taken = [])) := by
  simp only [flush] at h
  split at h
  · rename_i empty
    obtain ⟨hf, rfl⟩ := Prod.mk.inj h
    refine ⟨(breaks _ later).2 (by simp [hf]), .inl ?_⟩
    rw [delivered, empty, List.append_nil]
    exact Socket.sent_flush _
  · rename_i some_bytes
    split at h
    · rename_i hw
      obtain ⟨-, rfl⟩ := Prod.mk.inj h
      have failed : (b.socket.write b.buffer).1 ≠ .ok () := by simp [hw]
      obtain ⟨taken, htaken, sent⟩ := Socket.sent_write b.socket b.buffer
      have broken := (breaks _ later).1 _ some_bytes failed
      have whole (accepts : start.AcceptsWhole) := accepts _ later _ some_bytes failed
      rw [hw] at sent broken whole
      refine ⟨broken, .inr ⟨taken, htaken, sent, fun accepts => ?_⟩⟩
      exact List.append_right_eq_self.mp (sent.symm.trans (whole accepts))
    · rename_i socket hw
      obtain ⟨hf, rfl⟩ := Prod.mk.inj h
      have later' : start.Later socket := by
        have := later.write some_bytes
        rwa [hw] at this
      refine ⟨(breaks _ later').2 (by simp [hf]), .inl ?_⟩
      rw [delivered, ← Socket.write_ok hw]
      exact Socket.sent_flush _

/-- Writing out a buffer that is full. -/
theorem flush_filling (filling : b.Filling start size) (full : b.buffer.length = size)
    (h : b.flush = (.ok (), b')) : b'.Filling start size := by
  obtain ⟨sent, empty⟩ := flush_ok h
  have later := later_flush b
  rw [h] at later
  refine ⟨filling.later.trans later, (buffer_of_flush h).2.trans filling.capacity, ?_, ?_⟩
  · rw [empty]
    exact Nat.zero_le _
  · rw [sent, delivered]
    exact filling.blocks.append full

theorem Cut.mono {bytes more : Bytes} (cut : b.Cut start size bytes) (h : bytes <+: more) :
    b.Cut start size more :=
  ⟨cut.later, cut.broken, cut.sent.trans h, cut.blocks⟩

/-- After a flush all has been accepted that was on its way, or the stream is cut off. -/
theorem flush_ends (breaks : start.Breaks) (filling : b.Filling start size) :
    (b.flush.1 ≠ .ok () → b.flush.2.socket.Broken) ∧
      (b.flush.2.socket.sent = b.delivered ∨ b.flush.2.Cut start size b.delivered) := by
  have later := filling.later.trans (later_flush b)
  cases hf : b.flush with
  | mk x b' =>
      rw [hf] at later
      cases x with
      | ok _ => exact ⟨fun failed => absurd rfl failed, .inl (flush_ok hf).1⟩
      | error f =>
          obtain ⟨broken, sent | ⟨taken, htaken, sent, refused⟩⟩ :=
            flush_failed breaks filling.later hf
          · exact ⟨fun _ => broken, .inl sent⟩
          · refine ⟨fun _ => broken, .inr ⟨later, broken, ?_, fun accepts => ?_⟩⟩
            · rw [sent, delivered]
              exact (List.prefix_append_right_inj _).mpr htaken
            · rw [sent, refused accepts, List.append_nil]
              exact filling.blocks

theorem flush_cut (breaks : start.Breaks) (filling : b.Filling start size)
    (full : b.buffer.length = size) (h : b.flush = (.error f, b')) :
    b'.Cut start size b.delivered := by
  have later := filling.later.trans (later_flush b)
  obtain ⟨broken, sent | cut⟩ := flush_ends breaks filling
  · rw [h] at later broken sent
    refine ⟨later, broken nofun, sent ▸ List.prefix_refl _, fun _ => ?_⟩
    · rw [sent, delivered]
      exact filling.blocks.append full
  · rwa [h] at cut

/-- The buffer with as much of the data as it takes is full when the data is not less. -/
theorem Filling.fill (filling : b.Filling start size) (enough : ¬data.length < b.room) :
    Filling start size { b with buffer := b.buffer ++ data.take b.room } ∧
      (b.buffer ++ data.take b.room).length = size := by
  have full : (b.buffer ++ data.take b.room).length = size := by
    have := filling.within
    have := filling.capacity
    simp only [room] at enough ⊢
    simp only [List.length_append, List.length_take]
    omega
  exact ⟨⟨filling.later, filling.capacity, Nat.le_of_eq full, filling.blocks⟩, full⟩

theorem delivered_fill (b : BufferedSocket) (data : Bytes) :
    delivered { b with buffer := b.buffer ++ data.take b.room } ++ data.drop b.room =
      b.delivered ++ data := by
  simp only [delivered, List.append_assoc, List.take_append_drop]

theorem write_filling (filling : b.Filling start size) (h : b.write data = (.ok (), b')) :
    b'.Filling start size := by
  fun_induction write b data with
  | case1 =>
      cases h
      exact filling
  | case2 b data _ fits =>
      cases h
      refine ⟨filling.later, filling.capacity, ?_, filling.blocks⟩
      have := filling.capacity
      simp only [room] at fits
      simp only [List.length_append]
      omega
  | case3 => cases h
  | case4 b data _ enough _ b₁ hf ih =>
      obtain ⟨filled, full⟩ := filling.fill enough
      exact ih (flush_filling filled full hf) h

theorem write_cut (breaks : start.Breaks) (filling : b.Filling start size)
    (h : b.write data = (.error f, b')) : b'.Cut start size (b.delivered ++ data) := by
  fun_induction write b data with
  | case1 => cases h
  | case2 => cases h
  | case3 b data _ enough _ b₁ hf =>
      cases h
      obtain ⟨filled, full⟩ := filling.fill enough
      rw [← delivered_fill]
      exact (flush_cut breaks filled full hf).mono (List.prefix_append _ _)
  | case4 b data _ enough _ b₁ hf ih =>
      obtain ⟨filled, full⟩ := filling.fill enough
      obtain ⟨sent, empty⟩ := flush_ok hf
      have rest := ih (flush_filling filled full hf) h
      rwa [delivered, sent, empty, List.append_nil, delivered_fill] at rest

end Blocks

end BufferedSocket

end TermStats

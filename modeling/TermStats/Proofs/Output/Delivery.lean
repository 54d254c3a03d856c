import Mathlib.Algebra.Group.Int.Defs
import Mathlib.Algebra.GroupWithZero.Nat
import TermStats.Output.Buffered

/-!
What a socket has accepted, together with what its buffer still holds. A call that succeeds adds
its bytes to that and nothing else, and on a socket that never fails every call succeeds.
-/

namespace TermStats

/-- Accepts whatever it is given. -/
def SocketBehaviour.NeverFails (b : SocketBehaviour) : Prop :=
  (∀ calls sent data, b.onWrite calls sent data = .accepted) ∧
    ∀ calls sent, b.onFlush calls sent = .flushed

theorem SocketBehaviour.reliable_neverFails : reliable.NeverFails :=
  ⟨fun _ _ _ => rfl, fun _ _ => rfl⟩

namespace Socket

theorem write_ok {s s' : Socket} {data : Bytes} (h : s.write data = (.ok (), s')) :
    s'.sent = s.sent ++ data := by
  simp only [write] at h
  split at h <;> cases h
  rfl

theorem sent_flush (s : Socket) : s.flush.2.sent = s.sent := by
  simp only [flush]
  split <;> rfl

theorem behaviour_write (s : Socket) (data : Bytes) :
    (s.write data).2.behaviour = s.behaviour := by
  simp only [write]
  split <;> rfl

theorem behaviour_flush (s : Socket) : s.flush.2.behaviour = s.behaviour := by
  simp only [flush]
  split <;> rfl

theorem write_neverFails {s : Socket} (h : s.behaviour.NeverFails) (data : Bytes) :
    (s.write data).1 = .ok () := by
  simp only [write, h.1]

theorem flush_neverFails {s : Socket} (h : s.behaviour.NeverFails) : s.flush.1 = .ok () := by
  simp only [flush, h.2]

end Socket

namespace BufferedSocket

/-- All bytes on their way: those accepted, then those in the buffer. -/
def delivered (b : BufferedSocket) : Bytes :=
  b.socket.sent ++ b.buffer

theorem flush_ok {b b' : BufferedSocket} (h : b.flush = (.ok (), b')) :
    b'.socket.sent = b.delivered ∧ b'.buffer = [] := by
  refine ⟨?_, (buffer_of_flush h).1⟩
  simp only [flush] at h
  split at h
  · rename_i hb
    obtain ⟨-, rfl⟩ := Prod.mk.inj h
    rw [delivered, hb, List.append_nil]
    exact Socket.sent_flush _
  · split at h
    · cases h
    · rename_i hw
      obtain ⟨-, rfl⟩ := Prod.mk.inj h
      rw [delivered, ← Socket.write_ok hw]
      exact Socket.sent_flush _

theorem delivered_flush_ok {b b' : BufferedSocket} (h : b.flush = (.ok (), b')) :
    b'.delivered = b.delivered := by
  obtain ⟨sent, empty⟩ := flush_ok h
  rw [delivered, sent, empty, List.append_nil]

theorem write_ok {b b' : BufferedSocket} {data : Bytes} (h : b.write data = (.ok (), b')) :
    b'.delivered = b.delivered ++ data := by
  fun_induction write b data with
  | case1 b =>
      cases h
      exact (List.append_nil _).symm
  | case2 b data _ _ =>
      cases h
      exact (List.append_assoc _ _ _).symm
  | case3 => cases h
  | case4 b data _ _ _ b₁ hf ih =>
      obtain ⟨hsent, hbuffer⟩ := flush_ok hf
      have flushed : b₁.delivered = b.delivered ++ data.take b.room := by
        rw [delivered, hsent, hbuffer, List.append_nil]
        exact (List.append_assoc _ _ _).symm
      rw [ih h, flushed, List.append_assoc, List.take_append_drop]

end BufferedSocket
end TermStats

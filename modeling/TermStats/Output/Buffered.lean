import TermStats.Output.Socket

/-!
A socket behind a buffer of fixed size. The buffer is written out when it is full and
on demand. A buffer that could not be written keeps its bytes; what a failed write had
not yet put into it is dropped.
-/

namespace TermStats

structure BufferedSocket where
  socket : Socket
  buffer : Bytes
  capacity : Nat
  capacity_pos : 0 < capacity

namespace BufferedSocket

def defaultCapacity : Nat := 65536

/-- An empty buffer, as `allocate` gives it up to the largest capacity. Zero counts as one. -/
def ofSocket (socket : Socket) (capacity : Nat) : BufferedSocket :=
  ⟨socket, [], max capacity 1, Nat.lt_of_lt_of_le Nat.one_pos (Nat.le_max_right _ _)⟩

instance : Inhabited BufferedSocket := ⟨ofSocket default defaultCapacity⟩

/-- The largest buffer there can be: its size fits a signed word. -/
def maxCapacity : Nat := (1 <<< 63) - 1

/-- Makes the buffer of a socket; one that is too large to be had is a panic. -/
def allocate (socket : Socket) (capacity : Nat) : Except Panic BufferedSocket :=
  if capacity ≤ maxCapacity then .ok (ofSocket socket capacity)
  else .error (.ofText "capacity overflow")

def flush (b : BufferedSocket) : Attempt BufferedSocket :=
  if b.buffer = [] then
    let (x, socket) := b.socket.flush
    (x, { b with socket := socket })
  else
    match b.socket.write b.buffer with
    | (.error f, socket) => (.error f, { b with socket := socket })
    | (.ok _, socket) =>
        let (x, socket) := socket.flush
        (x, { b with socket := socket, buffer := [] })

theorem buffer_of_flush {b b' : BufferedSocket} (h : b.flush = (.ok (), b')) :
    b'.buffer = [] ∧ b'.capacity = b.capacity := by
  simp only [flush] at h
  split at h
  · rename_i hb
    simp only [Prod.mk.injEq] at h
    obtain ⟨_, rfl⟩ := h
    exact ⟨hb, rfl⟩
  · split at h
    · cases h
    · simp only [Prod.mk.injEq] at h
      obtain ⟨_, rfl⟩ := h
      exact ⟨rfl, rfl⟩

/-- How many bytes the buffer still takes. -/
def room (b : BufferedSocket) : Nat :=
  b.capacity - b.buffer.length

/-- Puts `data` into the buffer, writing the buffer out whenever it is full. -/
def write (b : BufferedSocket) (data : Bytes) : Attempt BufferedSocket :=
  if data = [] then (.ok (), b)
  else if data.length < b.room then (.ok (), { b with buffer := b.buffer ++ data })
  else
    match _h : { b with buffer := b.buffer ++ data.take b.room }.flush with
    | (.error f, b') => (.error f, b')
    | (.ok _, b') => b'.write (data.drop b.room)
termination_by data.length + b.buffer.length
decreasing_by
  have empty := buffer_of_flush _h
  have pos := b.capacity_pos
  rename_i hd _ _
  have := List.length_pos_iff.2 hd
  simp only [room, List.length_drop, empty.1, List.length_nil]
  omega

end BufferedSocket
end TermStats

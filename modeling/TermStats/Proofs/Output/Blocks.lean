import TermStats.Proofs.Output.Calls

/-!
What a buffered socket makes of calls. Its writes are the whole blocks of the bytes on their way,
one after another, on any socket; the loop that fills the buffer comes to its end on any socket too,
also from a buffer that a failed call left full. Where no call fails, nothing is lost.
-/

namespace TermStats

/-- Writes a block and flushes the socket. -/
def Socket.deliver (s : Socket) (block : Bytes) : Attempt Socket :=
  (s.write block).andThen Socket.flush

/-- The blocks of the given size that some bytes begin with; what is less than a block is left
out. -/
def wholeBlocks (size : Nat) (bytes : Bytes) : List Bytes :=
  if 0 < size ∧ size ≤ bytes.length then bytes.take size :: wholeBlocks size (bytes.drop size)
  else []
termination_by bytes.length
decreasing_by
  rw [List.length_drop]
  omega

theorem wholeBlocks_of_lt {size : Nat} {bytes : Bytes} (h : bytes.length < size) :
    wholeBlocks size bytes = [] := by
  rw [wholeBlocks, if_neg fun whole => Nat.not_le.mpr h whole.2]

theorem wholeBlocks_append {block bytes : Bytes} (h : block ≠ []) :
    wholeBlocks block.length (block ++ bytes) = block :: wholeBlocks block.length bytes := by
  have whole : 0 < block.length ∧ block.length ≤ (block ++ bytes).length :=
    ⟨List.length_pos_iff.mpr h, by rw [List.length_append]; exact Nat.le_add_right _ _⟩
  rw [wholeBlocks, if_pos whole, List.take_left, List.drop_left]

theorem length_of_mem_wholeBlocks {size : Nat} {bytes block : Bytes}
    (h : block ∈ wholeBlocks size bytes) : block.length = size := by
  fun_induction wholeBlocks size bytes with
  | case1 bytes whole ih =>
      rcases List.mem_cons.mp h with rfl | h
      · rw [List.length_take, Nat.min_eq_left whole.2]
      · exact ih h
  | case2 => cases h

/-- A call on a buffered socket. -/
inductive BufferCall where
  | write (data : Bytes)
  | flush
  deriving Repr, DecidableEq

def BufferCall.data : BufferCall → Bytes
  | write data => data
  | flush => []

namespace BufferedSocket

def call (b : BufferedSocket) : BufferCall → Attempt BufferedSocket
  | .write data => b.write data
  | .flush => b.flush

/-- The buffered socket after some calls, whether they succeed or not. -/
def after (b : BufferedSocket) (calls : List BufferCall) : BufferedSocket :=
  calls.foldl (fun b c => (b.call c).2) b

/-- The blocks that writing `data` sends. -/
def blocksOf (b : BufferedSocket) (data : Bytes) : List Bytes :=
  if data = [] then [] else wholeBlocks b.capacity (b.buffer ++ data)

/-- One pass of the loop that writes `data`: the buffer takes what it has room for, and is written
out when that fills it. -/
def pass (b : BufferedSocket) (data : Bytes) : Attempt BufferedSocket :=
  let filled := { b with buffer := b.buffer ++ data.take b.room }
  if filled.buffer.length = filled.capacity then filled.flush else (.ok (), filled)

/-- The loop makes some passes, until no data is left or a pass fails, and ends so. -/
inductive Loop : BufferedSocket → Bytes → Nat → Attempt BufferedSocket → Prop where
  | finished {b : BufferedSocket} : Loop b [] 0 (.ok (), b)
  | failed {b b' : BufferedSocket} {data : Bytes} {f : Fault} (some_data : data ≠ [])
      (h : b.pass data = (.error f, b')) : Loop b data 1 (.error f, b')
  | next {b b' : BufferedSocket} {data : Bytes} {passes : Nat} {r : Attempt BufferedSocket}
      (some_data : data ≠ []) (h : b.pass data = (.ok (), b'))
      (rest : Loop b' (data.drop b.room) passes r) : Loop b data (passes + 1) r

variable {b b' : BufferedSocket} {data : Bytes}

theorem capacity_flush (b : BufferedSocket) : b.flush.2.capacity = b.capacity := by
  simp only [flush]
  split
  · rfl
  · split <;> rfl

theorem length_buffer_flush_le (b : BufferedSocket) :
    b.flush.2.buffer.length ≤ b.buffer.length := by
  simp only [flush]
  split
  · exact Nat.le_refl _
  · split
    · exact Nat.le_refl _
    · exact Nat.zero_le _

/-- Writing out a buffer is writing a block. -/
theorem flush_eq_deliver (h : b.buffer ≠ []) :
    b.flush.map id (·.socket) = b.socket.deliver b.buffer := by
  rw [flush, if_neg h, Socket.deliver]
  cases b.socket.write b.buffer with
  | mk x socket => cases x <;> rfl

/-- The buffer with the data it has room for, where the data is not less. -/
theorem length_fill (within : b.buffer.length ≤ b.capacity) (enough : ¬ data.length < b.room) :
    (b.buffer ++ data.take b.room).length = b.capacity := by
  simp only [room] at enough ⊢
  rw [List.length_append, List.length_take]
  omega

theorem length_rest (within : b.buffer.length ≤ b.capacity) (enough : ¬ data.length < b.room) :
    b.buffer.length + data.length = b.capacity + (data.drop b.room).length := by
  simp only [room] at enough ⊢
  rw [List.length_drop]
  omega

theorem fill_ne_nil (within : b.buffer.length ≤ b.capacity) (enough : ¬ data.length < b.room) :
    b.buffer ++ data.take b.room ≠ [] := by
  rw [← List.length_pos_iff, length_fill within enough]
  exact b.capacity_pos

theorem pass_of_enough (within : b.buffer.length ≤ b.capacity) (enough : ¬ data.length < b.room) :
    b.pass data = { b with buffer := b.buffer ++ data.take b.room }.flush :=
  if_pos (length_fill within enough)

theorem capacity_write (b : BufferedSocket) (data : Bytes) :
    (b.write data).2.capacity = b.capacity := by
  fun_induction write b data with
  | case1 | case2 => rfl
  | case3 b data _ _ _ _ hf =>
      have same := capacity_flush { b with buffer := b.buffer ++ data.take b.room }
      rwa [hf] at same
  | case4 b data _ _ _ _ hf ih => exact ih.trans (buffer_of_flush hf).2

/-- A write never makes the buffer too long, and no full buffer stays behind one that succeeds. -/
theorem within_write (within : b.buffer.length ≤ b.capacity) (data : Bytes) :
    (b.write data).2.buffer.length ≤ b.capacity ∧
      (b.buffer.length < b.capacity → (b.write data).1 = .ok () →
        (b.write data).2.buffer.length < b.capacity) := by
  fun_induction write b data with
  | case1 => exact ⟨within, fun below _ => below⟩
  | case2 b data _ fits =>
      have below : (b.buffer ++ data).length < b.capacity := by
        simp only [room] at fits
        rw [List.length_append]
        omega
      exact ⟨Nat.le_of_lt below, fun _ _ => below⟩
  | case3 b data _ enough _ _ hf =>
      have le := length_buffer_flush_le { b with buffer := b.buffer ++ data.take b.room }
      rw [hf] at le
      refine ⟨Nat.le_trans le (Nat.le_of_eq (length_fill within enough)), fun _ ok => ?_⟩
      cases ok
  | case4 b data _ _ _ b₁ hf ih =>
      obtain ⟨empty, same⟩ := buffer_of_flush hf
      dsimp only at same
      have below : b₁.buffer.length < b₁.capacity := by
        rw [empty]
        exact b₁.capacity_pos
      obtain ⟨le, lt⟩ := ih (Nat.le_of_lt below)
      rw [same] at le lt
      exact ⟨le, fun _ ok => lt (same ▸ below) ok⟩

theorem blocksOf_of_empty (h : b.buffer = []) (data : Bytes) :
    b.blocksOf data = wholeBlocks b.capacity data := by
  rw [blocksOf, h, List.nil_append]
  split
  · rename_i none
    rw [none, wholeBlocks_of_lt b.capacity_pos]
  · rfl

theorem blocksOf_of_enough (within : b.buffer.length ≤ b.capacity) (some_data : data ≠ [])
    (enough : ¬ data.length < b.room) : b.blocksOf data =
      (b.buffer ++ data.take b.room) :: wholeBlocks b.capacity (data.drop b.room) := by
  have full := length_fill within enough
  have whole : b.buffer ++ data = (b.buffer ++ data.take b.room) ++ data.drop b.room := by
    rw [List.append_assoc, List.take_append_drop]
  rw [blocksOf, if_neg some_data, whole, ← full, wholeBlocks_append (fill_ne_nil within enough)]

/-- On any socket, a write sends the whole blocks of what is buffered and what is written, up to the
first that fails. -/
theorem write_eq_blocks (within : b.buffer.length ≤ b.capacity) (data : Bytes) :
    (b.write data).map id (·.socket) =
      Attempt.each Socket.deliver b.socket (b.blocksOf data) := by
  fun_induction write b data with
  | case1 => rfl
  | case2 b data some_data fits =>
      have less : (b.buffer ++ data).length < b.capacity := by
        simp only [room] at fits
        rw [List.length_append]
        omega
      rw [blocksOf, if_neg some_data, wholeBlocks_of_lt less]
      rfl
  | case3 b data some_data enough f b₁ hf =>
      have sent := flush_eq_deliver (b := { b with buffer := b.buffer ++ data.take b.room })
        (fill_ne_nil within enough)
      rw [hf] at sent
      rw [blocksOf_of_enough within some_data enough, Attempt.each, ← sent]
      rfl
  | case4 b data some_data enough _ b₁ hf ih =>
      obtain ⟨empty, same⟩ := buffer_of_flush hf
      dsimp only at same
      have sent := flush_eq_deliver (b := { b with buffer := b.buffer ++ data.take b.room })
        (fill_ne_nil within enough)
      rw [hf] at sent
      rw [blocksOf_of_enough within some_data enough, Attempt.each, ← sent, ih (by simp [empty]),
        blocksOf_of_empty empty, same]
      rfl

/-- The loop ends on any socket. A pass takes data or, where the buffer is full already, empties it,
so there are no more passes than blocks and one for what is left. -/
theorem exists_loop (within : b.buffer.length ≤ b.capacity) (data : Bytes) :
    ∃ passes ≤ (b.buffer.length + data.length) / b.capacity + 1,
      Loop b data passes (b.write data) := by
  fun_induction write b data with
  | case1 => exact ⟨0, Nat.zero_le _, .finished⟩
  | case2 b data some_data fits =>
      have below : (b.buffer ++ data).length ≠ b.capacity := by
        simp only [room] at fits
        rw [List.length_append]
        omega
      have all : data.take b.room = data := List.take_of_length_le (Nat.le_of_lt fits)
      have taken : b.pass data = (.ok (), { b with buffer := b.buffer ++ data }) := by
        rw [pass, all, if_neg below]
      refine ⟨1, Nat.le_add_left _ _, .next some_data taken ?_⟩
      rw [List.drop_of_length_le (Nat.le_of_lt fits)]
      exact .finished
  | case3 b data some_data enough f b₁ hf =>
      refine ⟨1, Nat.le_add_left _ _, .failed some_data ?_⟩
      rwa [pass_of_enough within enough]
  | case4 b data some_data enough _ b₁ hf ih =>
      obtain ⟨empty, same⟩ := buffer_of_flush hf
      obtain ⟨passes, few, loop⟩ := ih (by simp [empty])
      refine ⟨passes + 1, Nat.succ_le_succ (Nat.le_trans few (Nat.le_of_eq ?_)),
        .next some_data ?_ loop⟩
      · rw [empty, same, length_rest within enough, List.length_nil, Nat.zero_add,
          Nat.add_div_left _ b.capacity_pos]
      · rwa [pass_of_enough within enough]

section Calls

theorem later_call (b : BufferedSocket) (c : BufferCall) :
    b.socket.Later (b.call c).2.socket := by
  cases c with
  | write data => exact later_write b data
  | flush => exact later_flush b

/-- On any socket, calls keep the capacity and never make the buffer too long. -/
theorem within_after (within : b.buffer.length ≤ b.capacity) (calls : List BufferCall) :
    (b.after calls).capacity = b.capacity ∧ (b.after calls).buffer.length ≤ b.capacity := by
  induction calls generalizing b with
  | nil => exact ⟨rfl, within⟩
  | cons c rest ih =>
      have step : (b.call c).2.capacity = b.capacity ∧
          (b.call c).2.buffer.length ≤ b.capacity := by
        cases c with
        | write data => exact ⟨capacity_write b data, (within_write within data).1⟩
        | flush => exact ⟨capacity_flush b, Nat.le_trans (length_buffer_flush_le b) within⟩
      obtain ⟨capacity, within'⟩ := ih (b := (b.call c).2) (step.1 ▸ step.2)
      rw [step.1] at capacity within'
      exact ⟨capacity, within'⟩

/-- Nothing has failed nor can fail, `bytes` are on their way, and the buffer is not full. -/
structure Flows (bytes : Bytes) (b : BufferedSocket) : Prop where
  never : b.socket.behaviour.NeverFails
  delivered : b.delivered = bytes
  below : b.buffer.length < b.capacity

/-- A call on a socket that never fails succeeds, and puts its data on the way. -/
theorem Flows.call {bytes : Bytes} (flows : b.Flows bytes) (c : BufferCall) :
    (b.call c).1 = .ok () ∧ (b.call c).2.Flows (bytes ++ c.data) := by
  have never : (b.call c).2.socket.behaviour.NeverFails :=
    (later_call b c).behaviour ▸ flows.never
  cases c with
  | write data =>
      have ok := write_neverFails flows.never data
      have delivered := write_ok (Prod.ext ok rfl : b.write data = (.ok (), (b.write data).2))
      have below := (within_write (Nat.le_of_lt flows.below) data).2 flows.below ok
      rw [flows.delivered] at delivered
      refine ⟨ok, never, delivered, ?_⟩
      rwa [BufferedSocket.call, capacity_write]
  | flush =>
      have ok := flush_neverFails flows.never
      have flushed : b.flush = (.ok (), b.flush.2) := Prod.ext ok rfl
      refine ⟨ok, never, ?_, ?_⟩
      · rw [BufferedSocket.call, delivered_flush_ok flushed, flows.delivered, BufferCall.data,
          List.append_nil]
      · rw [BufferedSocket.call, (buffer_of_flush flushed).1]
        exact b.flush.2.capacity_pos

theorem Flows.after {bytes : Bytes} (flows : b.Flows bytes) (calls : List BufferCall) :
    (b.after calls).Flows (bytes ++ calls.flatMap (·.data)) := by
  induction calls generalizing b bytes with
  | nil => rwa [List.flatMap_nil, List.append_nil]
  | cons c rest ih =>
      rw [List.flatMap_cons, ← List.append_assoc]
      exact ih (flows.call c).2

theorem flows_ofSocket {socket : Socket} (never : socket.behaviour.NeverFails) (capacity : Nat) :
    (ofSocket socket capacity).Flows socket.sent :=
  ⟨never, List.append_nil _, (ofSocket socket capacity).capacity_pos⟩

end Calls

/-- On a socket that never fails, no call on a buffer of any capacity fails, and after any calls
what has been accepted and what is buffered are all that was written, in order; the buffer is not
full, and a flush has all accepted, whatever the capacity. On any socket, and with the buffer that
any calls left, a write sends blocks that are as long as the buffer, and its loop comes to an
end. -/
theorem delivers_in_blocks {socket : Socket} {capacity : Nat} {calls : List BufferCall}
    {b : BufferedSocket} (reached : (ofSocket socket capacity).after calls = b) :
    (socket.behaviour.NeverFails →
      (∀ c, (b.call c).1 = .ok ()) ∧
      b.socket.sent ++ b.buffer = socket.sent ++ calls.flatMap (·.data) ∧
      b.buffer.length < max capacity 1 ∧
      b.flush.2.socket.sent = socket.sent ++ calls.flatMap (·.data)) ∧
    ∀ data,
      (b.write data).map id (·.socket) =
        Attempt.each Socket.deliver b.socket (b.blocksOf data) ∧
      (∀ block ∈ b.blocksOf data, block.length = max capacity 1) ∧
      ∃ passes ≤ (b.buffer.length + data.length) / max capacity 1 + 1,
        Loop b data passes (b.write data) := by
  subst reached
  have start : (ofSocket socket capacity).buffer.length ≤ (ofSocket socket capacity).capacity :=
    Nat.zero_le _
  obtain ⟨same, within⟩ := within_after start calls
  have size : ((ofSocket socket capacity).after calls).capacity = max capacity 1 := same
  rw [← same] at within
  refine ⟨fun never => ?_, fun data => ?_⟩
  · have flows := (flows_ofSocket never capacity).after calls
    have flushed := (flows.call .flush).1
    refine ⟨fun c => (flows.call c).1, flows.delivered, size ▸ flows.below, ?_⟩
    exact (flush_ok (Prod.ext flushed rfl)).1.trans flows.delivered
  · refine ⟨write_eq_blocks within data, fun block h => ?_, size ▸ exists_loop within data⟩
    rw [blocksOf] at h
    split at h
    · cases h
    · exact (length_of_mem_wholeBlocks h).trans size

end BufferedSocket

/-- Fails on its first write, and takes all later ones. -/
def SocketBehaviour.stumbling : SocketBehaviour where
  onWrite calls _ _ := if calls = 0 then .failed 0 "connection reset by peer" else .accepted
  onFlush _ _ := .flushed

/-- The first write leaves the buffer full; the next sends it and one block more, in three
passes. -/
theorem BufferedSocket.delivers_in_blocks_stumbling :
    (∃ b, (ofSocket (.ofBehaviour .stumbling) 2).after [.write [1, 2]] = b ∧ b.buffer = [1, 2] ∧
      (b.write [3, 4, 5]).map id (·.socket) =
        Attempt.each Socket.deliver b.socket [[1, 2], [3, 4]] ∧
      ∃ passes ≤ 3, Loop b [3, 4, 5] passes (b.write [3, 4, 5])) ∧
    ∃ b, (ofSocket (.ofBehaviour .reliable) 2).after [.write [1, 2, 3], .flush, .write [4]] = b ∧
      b.buffer = [4] ∧ b.socket.sent ++ b.buffer = [1, 2, 3, 4] := by
  have stopped : (ofSocket (.ofBehaviour .stumbling) 2).after [.write [1, 2]] = _ := rfl
  have full : ((ofSocket (.ofBehaviour .stumbling) 2).after [.write [1, 2]]).buffer = [1, 2] := by
    decide +kernel
  have went_on : (ofSocket (.ofBehaviour .reliable) 2).after
      [.write [1, 2, 3], .flush, .write [4]] = _ := rfl
  refine ⟨⟨_, rfl, full, ?_⟩, _, rfl, by decide +kernel, ?_⟩
  · obtain ⟨sent, _, ends⟩ := (delivers_in_blocks stopped).2 [3, 4, 5]
    have blocks : ((ofSocket (.ofBehaviour .stumbling) 2).after [.write [1, 2]]).blocksOf
        [3, 4, 5] = [[1, 2], [3, 4]] := by
      decide +kernel
    rw [blocks] at sent
    rw [full] at ends
    exact ⟨sent, ends⟩
  · exact ((delivers_in_blocks went_on).1 SocketBehaviour.reliable_neverFails).2.1

end TermStats

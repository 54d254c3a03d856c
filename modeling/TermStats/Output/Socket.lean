import TermStats.Fault
import TermStats.Text.Utf8

/-!
Sockets. What a socket does on a call is given from outside and may depend on how many
calls came before and on all it has accepted; the socket records what it accepted and
how many calls succeeded.
-/

namespace TermStats

inductive WriteOutcome where
  | accepted
  /-- A failure after the first `taken` bytes. -/
  | failed (taken : Nat) (reason : String)
  | panicked (text : String)
  deriving Repr, DecidableEq, Inhabited

inductive FlushOutcome where
  | flushed
  | failed (reason : String)
  | panicked (text : String)
  deriving Repr, DecidableEq, Inhabited

structure SocketBehaviour where
  onWrite : (calls : Nat) → (sent data : Bytes) → WriteOutcome
  onFlush : (calls : Nat) → (sent : Bytes) → FlushOutcome

namespace SocketBehaviour

/-- Never fails. -/
def reliable : SocketBehaviour :=
  ⟨fun _ _ _ => .accepted, fun _ _ => .flushed⟩

instance : Inhabited SocketBehaviour := ⟨reliable⟩

/-- A socket in memory that panics or fails on a write beyond a limit, taking nothing of it, and
whose flushes may fail. -/
def limited (failAfter panicAfter : Option Nat) (failFlush : Bool) : SocketBehaviour where
  onWrite _ sent data :=
    let total := sent.length + data.length
    if panicAfter.any (· < total) then .panicked "socket panicked"
    else if failAfter.any (· < total) then .failed 0 "connection reset by peer"
    else .accepted
  onFlush _ _ := if failFlush then .failed "flush failed" else .flushed

end SocketBehaviour

structure Socket where
  behaviour : SocketBehaviour
  sent : Bytes
  calls : Nat
  writes : Nat
  flushes : Nat
  deriving Inhabited

namespace Socket

def ofBehaviour (b : SocketBehaviour) : Socket :=
  ⟨b, [], 0, 0, 0⟩

def write (s : Socket) (data : Bytes) : Attempt Socket :=
  match s.behaviour.onWrite s.calls s.sent data with
  | .accepted =>
      (.ok (), { s with sent := s.sent ++ data, calls := s.calls + 1, writes := s.writes + 1 })
  | .failed taken reason =>
      (.error (.error (.io "socket write" reason)),
        { s with sent := s.sent ++ data.take taken, calls := s.calls + 1 })
  | .panicked text => (.error (.panic (.ofText text)), { s with calls := s.calls + 1 })

def flush (s : Socket) : Attempt Socket :=
  match s.behaviour.onFlush s.calls s.sent with
  | .flushed => (.ok (), { s with calls := s.calls + 1, flushes := s.flushes + 1 })
  | .failed reason =>
      (.error (.error (.io "socket flush" reason)), { s with calls := s.calls + 1 })
  | .panicked text => (.error (.panic (.ofText text)), { s with calls := s.calls + 1 })

end Socket
end TermStats

import TermStats.Output.Buffered
import TermStats.Wire.Encoder

/-!
The writer of one output stream. It enforces `(fieldStart term* fieldEnd)* streamEnd`:
a call out of order fails, and any failure poisons the stream, so that all later calls
fail. A failed stream can still be closed with the markers it lacks.
-/

namespace TermStats

inductive StreamState where
  | idle
  | inField
  | ended
  | poisoned
  deriving Repr, DecidableEq, Inhabited

def StreamState.name : StreamState → String
  | idle => "Idle"
  | inField => "InField"
  | ended => "Ended"
  | poisoned => "Poisoned"

structure OutputStream where
  socket : BufferedSocket
  encoder : Wire.Encoder
  state : StreamState
  fieldOpen : Bool
  endWritten : Bool
  deriving Inhabited

namespace OutputStream

def ofSocket (socket : BufferedSocket) : OutputStream :=
  ⟨socket, .start, .idle, false, false⟩

def isEnded (s : OutputStream) : Bool :=
  s.state = .ended

def isPoisoned (s : OutputStream) : Bool :=
  s.state = .poisoned

/-- What follows a call on the socket: an error poisons the stream, a panic leaves its state
alone. -/
def settle (s : OutputStream) (r : Attempt BufferedSocket) : Attempt OutputStream :=
  match r with
  | (.ok _, b) => (.ok (), { s with socket := b })
  | (.error (.error e), b) => (.error (.error e), { s with socket := b, state := .poisoned })
  | (.error (.panic p), b) => (.error (.panic p), { s with socket := b })

def emit (s : OutputStream) (record : Bytes) : Attempt OutputStream :=
  s.settle (s.socket.write record)

/-- Runs `write` in state `expected`, and poisons the stream in any other. -/
def inState (s : OutputStream) (expected : StreamState) (operation : String)
    (write : Attempt OutputStream) : Attempt OutputStream :=
  if s.state = expected then write
  else
    (.error (.error (.invalidOperation s!"{operation} in stream state {s.state.name}")),
      { s with state := .poisoned })

def fieldStart (s : OutputStream) (name : String) (kind : TermKind) (numStats : Nat) :
    Attempt OutputStream :=
  s.inState .idle "write_field_start" <|
    let (record, encoder) := s.encoder.fieldStart name kind numStats
    ({ s with encoder := encoder }.emit record).andThen fun s =>
      (.ok (), { s with state := .inField, fieldOpen := true })

/-- Writes the record of one term, with the stats of each of the strictly ascending groups one after
another. -/
def term (s : OutputStream) (id : TermId) (docFreq : UInt64) (groups : List UInt32)
    (stats : List Int64) : Attempt OutputStream :=
  s.inState .inField "write_term_group_stats" <|
    match s.encoder.term id docFreq groups stats with
    | .error f => (.error (.error f.toError), { s with state := .poisoned })
    | .ok (record, encoder) => { s with encoder := encoder }.emit record

def fieldEnd (s : OutputStream) : Attempt OutputStream :=
  s.inState .inField "write_field_end" <|
    let (record, encoder) := s.encoder.fieldEnd
    ({ s with encoder := encoder }.emit record).andThen fun s =>
      (.ok (), { s with state := .idle, fieldOpen := false })

def streamEnd (s : OutputStream) : Attempt OutputStream :=
  s.inState .idle "write_stream_end" <|
    let (record, encoder) := s.encoder.streamEnd
    ({ s with encoder := encoder }.emit record).andThen fun s =>
      (.ok (), { s with state := .ended, endWritten := true })

/-- Writes out the buffer, in any state. -/
def flush (s : OutputStream) : Attempt OutputStream :=
  s.settle s.socket.flush

/-- The markers that a reader of the stream would miss. -/
def missingMarkers (s : OutputStream) : Bytes :=
  (if s.fieldOpen then s.encoder.fieldEnd.1 else [])
    ++ (if s.endWritten then [] else s.encoder.streamEnd.1)

/-- Ends a stream after a failure, whatever its state: writes the missing markers and flushes. -/
def closeAfterFailure (s : OutputStream) : Attempt OutputStream :=
  let s := { s with state := .poisoned }
  match s.socket.write s.missingMarkers with
  | (.error f, b) => (.error f, { s with socket := b })
  | (.ok _, b) =>
      let (x, b) := b.flush
      let s := { s with socket := b, fieldOpen := false, endWritten := true }
      (x, if x.isOk then { s with state := .ended } else s)

end OutputStream
end TermStats

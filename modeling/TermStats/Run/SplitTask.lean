import TermStats.Output.Stream
import TermStats.Run.GroupTotals
import TermStats.Shard.Provider

/-!
The work for one output stream: merge the terms of a field's split, total each term's
documents by group, and write a record for every term that has a counted document. A
task that fails closes its stream and gives its socket back.
-/

namespace TermStats

structure SplitTask where
  provider : Provider
  split : Nat
  numGroups : Nat
  numStats : Nat
  binary : Bool
  bufferSize : Nat
  deriving Inhabited

/-- The socket of a stream between tasks. A task that panics while it opens or closes its stream
loses it. -/
structure SocketSlot where
  socket : Socket
  lost : Bool
  deriving Inhabited

namespace SplitTask

def field (t : SplitTask) : String :=
  t.provider.field

/-- What a task works on: its stream, and the totals that it uses for one term after another. -/
structure Work where
  stream : OutputStream
  totals : GroupTotals
  deriving Inhabited

def noTotals (t : SplitTask) : GroupTotals :=
  .empty t.numGroups t.numStats t.binary

/-- The shard of a posting, and the doc ids of its posting list. -/
def locate (t : SplitTask) (id : TermId) (p : Posting) : Except Fault (Shard × DocIds) :=
  match t.provider.shard? p.source with
  | none =>
      .error (.error (.invalidFormat "term descriptor"
        s!"posting of {id.text} from unknown source {p.source}"))
  | some shard =>
      match shard.field t.field with
      | .error e => .error (.error e)
      | .ok files =>
          match DocIds.locate files.docs.bytes p.address p.freq with
          | .error f => .error (.error
              (.invalidFormat (fieldElement shard.directory t.field) f.toError.message))
          | .ok ids => .ok (shard, ids)

def addDoc (table : PackedTable) (element : String) (totals : GroupTotals) :
    Except PostingFault Int64 → Attempt GroupTotals
  | .error f => (.error (.error (.invalidFormat element f.toError.message)), totals)
  | .ok doc => totals.addRow table element doc

/-- Adds the rows of a posting list's documents. -/
def addPosting (t : SplitTask) (id : TermId) (totals : GroupTotals) (p : Posting) :
    Attempt GroupTotals :=
  match t.locate id p with
  | .error f => (.error f, totals)
  | .ok (shard, ids) =>
      .each (addDoc shard.table (fieldElement shard.directory t.field)) totals ids.items

/-- Totals all documents of a term, in place of those of the term before it. -/
def totalTerm (t : SplitTask) (totals : GroupTotals) (d : Descriptor) : Attempt GroupTotals :=
  totals.clear.andThen fun totals => .each (t.addPosting d.id) totals d.postings

/-- Writes the record of a term, if a document of it is in a counted group. -/
def writeTerm (t : SplitTask) (w : Work) (d : Descriptor) : Attempt Work :=
  match d.checkInvariant with
  | .error f => (.error (.error f.toError), w)
  | .ok _ =>
      match t.totalTerm w.totals d with
      | (.error f, totals) => (.error f, { w with totals := totals })
      | (.ok _, totals) =>
          if totals.isEmpty then (.ok (), { w with totals := totals })
          else
            match totals.sort with
            | (.error f, totals) => (.error f, { w with totals := totals })
            | (.ok _, totals) =>
                let (x, stream) :=
                  w.stream.term d.id d.totalFreq.toUInt64 totals.touched totals.listing
                (x, ⟨stream, totals⟩)

/-- Writes the record of the next item of the merge, which may be a fault. -/
def writeItem (t : SplitTask) (w : Work) : Except Error Descriptor → Attempt Work
  | .error e => (.error (.error e), w)
  | .ok d => t.writeTerm w d

def writeTerms (t : SplitTask) (s : OutputStream) (items : List (Except Error Descriptor)) :
    Attempt OutputStream :=
  let (x, w) := Attempt.each t.writeItem ⟨s, t.noTotals⟩ items
  (x, w.stream)

/-- Writes the whole stream of the split. -/
def writeStream (t : SplitTask) (s : OutputStream) : Attempt OutputStream :=
  (s.fieldStart t.field t.provider.kind t.numStats).andThen fun s =>
    match t.provider.mergeSplit t.split with
    | .error e => (.error (.error e), s)
    | .ok merge =>
        (((t.writeTerms s merge.items).andThen (·.fieldEnd)).andThen (·.streamEnd)).andThen
          (·.flush)

def openStream (t : SplitTask) (socket : Socket) : Except Panic OutputStream :=
  (BufferedSocket.allocate socket t.bufferSize).map .ofSocket

/-- Runs the task on the socket in its slot. Whatever fails between opening and closing the stream
becomes the task's error, once the stream is closed; a panic while opening or closing gets out. -/
def run (t : SplitTask) (slot : SocketSlot) : Attempt SocketSlot :=
  if slot.lost then
    (.error (.panic (.ofText "socket lock: PoisonError \x7b .. \x7d")), slot)
  else
    match t.openStream slot.socket with
    | .error p => (.error (.panic p), ⟨slot.socket, true⟩)
    | .ok stream =>
        let (x, s) := t.writeStream stream
        match catchPanic x with
        | .ok _ => (.ok (), ⟨s.socket.socket, false⟩)
        | .error e =>
            match s.closeAfterFailure with
            | (.error (.panic p), s) => (.error (.panic p), ⟨s.socket.socket, true⟩)
            | (_, s) =>
                (.error (.error (.task t.field t.split e)), ⟨s.socket.socket, false⟩)

end SplitTask
end TermStats

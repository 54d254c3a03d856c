/-!
The errors every operation of the library reports, with their texts. Decoders and
writers have fault types of their own that name the cause; each is rendered into
an `Error` once, where it leaves its module.
-/

namespace TermStats

inductive Error where
  /-- A caller's argument is inconsistent or out of range. -/
  | invalidArgument (name message : String)
  /-- An operation was called out of order. -/
  | invalidOperation (name : String)
  /-- Stored or transmitted data breaks its format. -/
  | invalidFormat (element message : String)
  | io (context reason : String)
  /-- A task's error, with the stream it was to write. -/
  | task (field : String) (split : Nat) (cause : Error)
  | panicked (message : String)
  deriving Repr, DecidableEq, Inhabited

namespace Error

def message : Error → String
  | invalidArgument name text => s!"invalid argument {name}: {text}"
  | invalidOperation name => s!"invalid operation {name}"
  | invalidFormat element text => s!"invalid storage format for '{element}': {text}"
  | io context reason => s!"IO error for '{context}': {reason}"
  | task field split cause =>
      s!"task for field '{field}' split {split} failed: " ++ cause.message
  | panicked text => s!"task panicked: {text}"

def kindName : Error → String
  | invalidArgument .. => "InvalidArgument"
  | invalidOperation .. => "InvalidOperation"
  | invalidFormat .. => "InvalidFormat"
  | io .. => "Io"
  | task .. => "Task"
  | panicked .. => "Panicked"

/-- The innermost error, below any number of task layers. -/
def root : Error → Error
  | task _ _ cause => cause.root
  | e => e

def isInvalidFormat (e : Error) : Bool :=
  match e.root with
  | invalidFormat .. => true
  | _ => false

/-- A failure of the system, reported without a context. -/
def ofSystem (reason : String) : Error :=
  io "" reason

/-- The root is never itself a task layer. -/
theorem root_root (e : Error) : e.root.root = e.root := by
  induction e with
  | task field split cause ih => exact ih
  | _ => rfl

end Error

/-- Passes when `holds`, and otherwise rejects argument `name`, quoting the condition. -/
def requireArgument (holds : Bool) (name condition : String) : Except Error Unit :=
  if holds then .ok () else .error (.invalidArgument name condition)

/-- Passes when `holds`, and otherwise reports `name` as malformed data, quoting the condition. -/
def requireFormat (holds : Bool) (name condition : String) : Except Error Unit :=
  if holds then .ok () else .error (.invalidFormat name condition)

end TermStats

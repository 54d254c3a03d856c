import TermStats.Error

/-!
Computations that run code handed in from outside (table accessors, sockets, tasks)
may panic as well as fail. A `Fault` is either; `catchPanic` is the only place where
a panic becomes an error.
-/

namespace TermStats

/-- An abrupt end. The payload is its text, if it has one. -/
structure Panic where
  payload : Option String
  deriving Repr, DecidableEq, Inhabited

namespace Panic

def ofText (text : String) : Panic := ⟨some text⟩

def text (p : Panic) : String :=
  p.payload.getD "unknown panic payload"

end Panic

inductive Fault where
  | error (e : Error)
  | panic (p : Panic)
  deriving Repr, DecidableEq, Inhabited

def Fault.caught : Fault → Error
  | error e => e
  | panic p => .panicked p.text

def catchPanic {α : Type} : Except Fault α → Except Error α
  | .ok a => .ok a
  | .error f => .error f.caught

theorem catchPanic_ok {α : Type} {r : Except Fault α} {a : α} :
    catchPanic r = .ok a ↔ r = .ok a := by
  cases r <;> simp [catchPanic]

/-- What an operation on a state comes to: how it ended, and the state it left behind. -/
abbrev Attempt (σ : Type) := Except Fault Unit × σ

namespace Attempt

variable {σ : Type}

/-- Goes on from the state left behind, unless the operation failed. -/
def andThen (r : Attempt σ) (next : σ → Attempt σ) : Attempt σ :=
  match r with
  | (.ok _, s) => next s
  | (.error f, s) => (.error f, s)

theorem andThen_ok (s : σ) (next : σ → Attempt σ) : andThen (.ok (), s) next = next s := rfl

theorem andThen_error (f : Fault) (s : σ) (next : σ → Attempt σ) :
    andThen (.error f, s) next = (.error f, s) := rfl

/-- Goes through a list, from each state to the next, up to the first failure. -/
def each {α : Type} (step : σ → α → Attempt σ) (s : σ) : List α → Attempt σ
  | [] => (.ok (), s)
  | a :: rest => (step s a).andThen fun s => each step s rest

end Attempt
end TermStats

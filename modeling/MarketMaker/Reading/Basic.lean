import MarketMaker.Fault.Failure
import MarketMaker.Json.Basic

/-! Reading values out of JSON. A reading collects every problem of its parts, each with its place.
A fault of the domain ends it at once, whatever else was found. -/

namespace MarketMaker

inductive Reading (α : Type)
  | accepted (value : α)
  | rejected (problems : List Problem)
  | refused (cause : Fault)
  deriving Repr

namespace Reading

variable {α β : Type}

def map (f : α → β) : Reading α → Reading β
  | accepted a => accepted (f a)
  | rejected ps => rejected ps
  | refused c => refused c

/-- Both values; the problems of the first come before those of the second. -/
def both : Reading α → Reading β → Reading (α × β)
  | refused c, _ => refused c
  | _, refused c => refused c
  | rejected ps, rejected qs => rejected (ps ++ qs)
  | rejected ps, accepted _ => rejected ps
  | accepted _, rejected qs => rejected qs
  | accepted a, accepted b => accepted (a, b)

instance : Applicative Reading where
  pure := accepted
  map := map
  seq f x := ((f.both (x ()))).map fun p => p.1 p.2

def andThen (r : Reading α) (f : α → Reading β) : Reading β :=
  match r with
  | accepted a => f a
  | rejected ps => rejected ps
  | refused c => refused c

def problem (kind : ProblemKind) : Reading α := rejected [⟨kind, []⟩]

/-- Puts a step in front of the path of every problem. -/
def within (step : String) : Reading α → Reading α
  | rejected ps => rejected (ps.map fun p => { p with path := step :: p.path })
  | r => r

def ofExcept : Except ValueFault α → Reading α
  | .ok a => accepted a
  | .error e => problem (.value e)

def toResult : Reading α → Result α
  | accepted a => .ok a
  | rejected ps => .error (.rejected ps)
  | refused c => fail c

/-! ### Lists -/

/-- Reads the items of a list from the given index on. -/
def itemsFrom (read : Json → Reading α) : Nat → List Json → Reading (List α)
  | _, [] => accepted []
  | i, v :: rest =>
    (both ((read v).within (toString i)) (itemsFrom read (i + 1) rest)).map fun p => p.1 :: p.2

def list (read : Json → Reading α) : Json → Reading (List α)
  | .list items => itemsFrom read 0 items
  | _ => problem .listType

/-! ### Objects -/

abbrev Fields := List (String × Json)

/-- The fields of an object; `otherwise` is the problem of any other value. -/
def object (otherwise : ProblemKind) (read : Fields → Reading α) : Json → Reading α
  | .object fields => read fields
  | _ => problem otherwise

def required (name : String) (read : Json → Reading α) (fields : Fields) : Reading α :=
  match Json.lookup name fields with
  | some v => (read v).within name
  | none => (problem .missing).within name

def optional (name : String) (default : α) (read : Json → Reading α) (fields : Fields) :
    Reading α :=
  match Json.lookup name fields with
  | some v => (read v).within name
  | none => accepted default

end Reading

end MarketMaker

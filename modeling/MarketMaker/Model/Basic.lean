import MarketMaker.Json.Reader
import MarketMaker.Json.Writer
import MarketMaker.Reading.Basic

namespace MarketMaker

structure Model (α : Type) where
  read : Json → Reading α
  write : α → Json

namespace Model

variable {α : Type}

/-- Whether a value comes back from its JSON text. -/
def returns [DecidableEq α] (m : Model α) (a : α) : Bool :=
  match Json.parse (Json.render (m.write a)) with
  | .error _ => false
  | .ok v =>
    match m.read v with
    | .accepted b => a = b
    | _ => false

structure Inspection where
  written : Json
  returns : Bool

def inspect [DecidableEq α] (m : Model α) (v : Json) : Reading Inspection :=
  (m.read v).map fun a => ⟨m.write a, m.returns a⟩

def listOf (m : Model α) : Model (List α) where
  read := Reading.list m.read
  write items := .list (items.map m.write)

end Model

end MarketMaker

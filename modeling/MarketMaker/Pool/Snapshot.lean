import MarketMaker.Pool.Model

/-! Snapshots of pools with their supply of shares, and files of them. -/

namespace MarketMaker

open Reading

structure Snapshot where
  pool : Pool
  supply : Int
  deriving DecidableEq, Repr

namespace Snapshot

def ofFields (fields : Fields) : Reading Snapshot :=
  Snapshot.mk <$> required "pool" Pool.model.read fields
    <*> optional "total_share" 0 amount fields

def toJson (s : Snapshot) : Json :=
  .object [("pool", s.pool.toJson), ("total_share", .int s.supply)]

def model : Model Snapshot := ⟨object .modelType ofFields, toJson⟩

def fileModel : Model (List Snapshot) where
  read := object .modelType (optional "pools" [] model.listOf.read)
  write snapshots := .object [("pools", model.listOf.write snapshots)]

def nestingLimit : Nat := 990

def ofFileText (text : String) : Result (List Snapshot) :=
  match Json.parseWithin nestingLimit text with
  | .error .malformed => .error .malformedText
  | .error (.nestedTooDeep container) => .error (.nestedTooDeep container)
  | .error (.numeralTooLong digits) => .error (.value (.integerTooLong digits))
  | .ok v => (fileModel.read v).toResult

/-- Reads a file that may not be there. -/
def ofFile : Option String → Result (List Snapshot)
  | none => .error .missingFile
  | some text => ofFileText text

end Snapshot

end MarketMaker

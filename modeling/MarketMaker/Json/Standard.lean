import MarketMaker.Json.Basic
import MarketMaker.Text.Numeral

/-! Standard values: those whose numbers are all finite and whose texts are all strings. Only they
can be sent in a reply. Apart from that, integers may be too long to be written. -/

namespace MarketMaker.Json

mutual

def isStandard : Json → Bool
  | .decimal x => x.nearest?.isSome
  | .brokenText _ => false
  | .list items => allStandard items
  | .object fields => fieldsStandard fields
  | _ => true

def allStandard : List Json → Bool
  | [] => true
  | v :: rest => isStandard v && allStandard rest

/-- Of several values under one name only the last counts. -/
def fieldsStandard : List (String × Json) → Bool
  | [] => true
  | (name, v) :: rest => ((lookup name rest).isSome || isStandard v) && fieldsStandard rest

end

mutual

def isWritable : Json → Bool
  | .int n => Text.isWritable n
  | .list items => allWritable items
  | .object fields => fieldsWritable fields
  | _ => true

def allWritable : List Json → Bool
  | [] => true
  | v :: rest => isWritable v && allWritable rest

def fieldsWritable : List (String × Json) → Bool
  | [] => true
  | (_, v) :: rest => isWritable v && fieldsWritable rest

end

end MarketMaker.Json

/-! Endpoints and their paths. Pool identifiers and denoms may hold slashes; the path of decimals is
tried before that of a pool, and the identifier in it reaches to the last `/decimals/`. -/

namespace MarketMaker.Http

inductive Endpoint
  | health
  | pools
  | decimals (pool denom : String)
  | pool (identifier : String)
  | simulate
  | reverseSimulate
  | simulateRoute
  | reverseSimulateRoute
  deriving DecidableEq, Repr

namespace Endpoint

def method : Endpoint → String
  | health | pools | decimals _ _ | pool _ => "GET"
  | simulate | reverseSimulate | simulateRoute | reverseSimulateRoute => "POST"

def fixedPaths : List (String × Endpoint) :=
  [ ("/pools", pools),
    ("/simulate", simulate),
    ("/reverse-simulate", reverseSimulate),
    ("/simulate-operations", simulateRoute),
    ("/reverse-simulate-operations", reverseSimulateRoute),
    ("/health", health) ]

def afterStart? (start s : List Char) : Option (List Char) :=
  if start.isPrefixOf s then some (s.drop start.length) else none

/-- The parts before and after the last place where a text stands in another. -/
def splitAtLast? (mark : List Char) : List Char → Option (List Char × List Char)
  | [] => none
  | c :: rest =>
    match splitAtLast? mark rest with
    | some (before, after) => some (c :: before, after)
    | none => (afterStart? mark (c :: rest)).map fun after => ([], after)

/-- A newline at the end of a path does not count. -/
def dropNewline (s : List Char) : List Char :=
  if s.getLast? = some '\n' then s.dropLast else s

/-- The endpoint of a pool's path after its fixed start; no part of it holds a newline. -/
def ofPoolPath? (s : List Char) : Option Endpoint :=
  if s.contains '\n' then none
  else
    match splitAtLast? "/decimals/".toList s with
    | some (identifier, denom) =>
      some (decimals (String.ofList identifier) (String.ofList denom))
    | none => some (pool (String.ofList s))

def ofPath? (path : String) : Option Endpoint :=
  let s := dropNewline path.toList
  match fixedPaths.find? fun e => e.1.toList = s with
  | some e => some e.2
  | none => (afterStart? "/pools/".toList s).bind ofPoolPath?

def withoutSlashes (path : String) : String :=
  String.ofList (path.toList.reverse.dropWhile (· = '/')).reverse

def otherSlash (path : String) : String :=
  if path.toList.getLast? = some '/' then withoutSlashes path else path ++ "/"

end Endpoint

end MarketMaker.Http

import MarketMaker.Http.Escape

namespace MarketMaker.Http

abbrev Parameters := List (String × String)

structure Target where
  path : String
  parameters : Parameters
  deriving DecidableEq, Repr

/-- The parts of a text before and after the first character of a kind; nothing for the second when
there is none. -/
def cutAt (stop : Char → Bool) (s : List Char) : List Char × Option (List Char) :=
  match s.dropWhile fun c => !stop c with
  | [] => (s, none)
  | _ :: rest => (s.takeWhile fun c => !stop c, some rest)

def splitAt (separator : Char) : List Char → List (List Char)
  | [] => [[]]
  | c :: rest =>
    match splitAt separator rest with
    | [] => [[c]]
    | piece :: pieces =>
      if c = separator then [] :: piece :: pieces else (c :: piece) :: pieces

namespace Target

/-! ### Parts of a reference -/

def isSchemeChar (c : Char) : Bool := c.isAlphanum || c = '+' || c = '-' || c = '.'

/-- Drops a scheme with its colon; the answer tells whether there was one. -/
def dropScheme (s : List Char) : Bool × List Char :=
  match s with
  | c :: _ =>
    match s.dropWhile isSchemeChar with
    | ':' :: rest => if c.isAlpha then (true, rest) else (false, s)
    | _ => (false, s)
  | [] => (false, s)

def endsAuthority (c : Char) : Bool := c = '/' || c = '?' || c = '#'

/-- Drops two slashes and the authority after them; the answer tells whether it named a host. -/
def dropAuthority (s : List Char) : Bool × List Char :=
  match s with
  | '/' :: '/' :: rest =>
    (rest.takeWhile (!endsAuthority ·) ≠ [], rest.dropWhile (!endsAuthority ·))
  | _ => (false, s)

def fromRoot (path : List Char) : List Char := '/' :: path.dropWhile (· = '/')

/-! ### Dot segments -/

/-- Goes up one segment; the first one stays when it is empty. -/
def goUp (done : List (List Char)) : List (List Char) :=
  if done = [] ∨ done = [[]] then done else done.dropLast

def resolveSegment (done : List (List Char)) (segment : List Char) : List (List Char) :=
  if segment = ['.'] then done
  else if segment = ['.', '.'] then goUp done
  else done ++ [segment]

/-- Takes out the segments that mean here and up. -/
def resolve (path : List Char) : List Char :=
  ['/'].intercalate ((splitAt '/' path).foldl resolveSegment [])

def orRoot (path : List Char) : List Char := if path = [] then ['/'] else path

/-! ### Reading -/

def component (s : List Char) : String :=
  String.ofList (unescape (escape (s.map fun c => if c = '+' then ' ' else c)))

def parameter? (piece : List Char) : Option (String × String) :=
  if piece = [] then none
  else
    let parts := cutAt (· = '=') piece
    some (component parts.1, component (parts.2.getD []))

def parametersOf (query : List Char) : Parameters := (splitAt '&' query).filterMap parameter?

/-- The path as it is routed: escapes are replaced by the client and once more by the server. -/
def pathOf (reference : List Char) (absolute : Bool) : String :=
  let path := if absolute then reference else fromRoot reference
  String.ofList (unescape (unescape (escape (orRoot (resolve path)))))

/-- Reads a reference. Scheme, authority and fragment are dropped. -/
def ofReference (text : String) : Target :=
  let scheme := dropScheme text.toList
  let authority := dropAuthority scheme.2
  let withoutFragment := (cutAt (· = '#') authority.2).1
  let parts := cutAt (· = '?') withoutFragment
  ⟨pathOf parts.1 (scheme.1 && authority.1), parametersOf (parts.2.getD [])⟩

/-- The last value given to a parameter. -/
def parameter (t : Target) (name : String) : Option String :=
  (t.parameters.reverse.find? fun p => p.1 = name).map Prod.snd

end Target

end MarketMaker.Http

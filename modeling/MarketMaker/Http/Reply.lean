import MarketMaker.Fault.Failure
import MarketMaker.Json.Standard

/-! Replies. A domain fault is reported with its text; the problems of a body are reported with
their places, if the values that they are about can be sent. -/

namespace MarketMaker.Http

inductive Content
  | none
  | json (v : Json)
  | text (s : String)

structure Reply where
  status : Nat
  content : Content

namespace Reply

def ok (v : Json) : Reply := ⟨200, .json v⟩

def detail (status : Nat) (text : String) : Reply :=
  ⟨status, .json (.object [("detail", .text text)])⟩

def notFound : Reply := detail 404 "Not Found"

def methodNotAllowed : Reply := detail 405 "Method Not Allowed"

def redirect : Reply := ⟨307, .none⟩

def internalError : Reply := ⟨500, .text "Internal Server Error"⟩

/-- The statuses of domain faults: an unknown pool is not found, all else is a bad request. -/
def faultStatus (fault : Fault) : Nat := if fault.kind = .unExistingPool then 404 else 400

def ofFault (fault : Fault) : Reply :=
  ⟨faultStatus fault,
    .json (.object [("detail", .text fault.message), ("error", .text fault.kind.name)])⟩

def ofFailure : Failure → Reply
  | .fault cause => ofFault cause
  | _ => internalError

def ofResult {α : Type} (write : α → Json) : Result α → Reply
  | .ok a => ok (write a)
  | .error e => ofFailure e

end Reply

/-! ### Problems -/

def problemToJson (p : Problem) : Json :=
  .object
    ([("type", .text p.kind.name), ("loc", .list (p.path.map .text))] ++
      match p.kind.message? with
      | some text => [("msg", .ofCodePoints text)]
      | none => [])

/-- The value that a problem is about; what is missing is missing from the value around it. The
first step of the path names the body. -/
def subject (body : Json) (p : Problem) : Json :=
  let path := p.path.drop 1
  (body.at? (if p.kind = .missing then path.dropLast else path)).getD .null

/-- The reply to problems of a body. It shows the values that they are about, so that it cannot be
given where one of these is not standard. -/
def unprocessable (body : Json) (problems : List Problem) : Reply :=
  if problems.all fun p => (subject body p).isStandard then
    ⟨422, .json (.object [("detail", .list (problems.map problemToJson))])⟩
  else .internalError

end MarketMaker.Http

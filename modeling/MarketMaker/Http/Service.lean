import MarketMaker.Http.Body
import MarketMaker.Http.Endpoint
import MarketMaker.Http.Target
import MarketMaker.Pool.Snapshot
import MarketMaker.Query.Model

/-! The query service. It answers requests from a state that settings and a file of pools define; no
request changes the state. -/

namespace MarketMaker.Http

structure Request where
  method : String
  target : Target
  /-- The text of the body, empty when there is none. -/
  body : String
  deriving DecidableEq, Repr

/-! ### Reading -/

/-- Reads a body by a model; an empty one is missing. -/
def readBody {α : Type} (model : Model α) : Option Json → Reading α
  | none => (Reading.problem .missing).within "body"
  | some v => (model.read v).within "body"

def withReading {α : Type} (body : Option Json) (reading : Reading α) (reply : α → Reply) : Reply :=
  match reading with
  | .accepted a => reply a
  | .rejected problems => unprocessable (body.getD .null) problems
  | .refused cause => .ofFault cause

/-! ### Endpoints -/

def readLimit (t : Target) : Reading (Option Int) :=
  match t.parameter "limit" with
  | none => .accepted none
  | some text => (((Reading.ofText text).within "limit").within "query").map some

def listPools (s : State) (t : Target) : Reply :=
  withReading none (readLimit t) fun limit =>
    .ofResult PoolInfo.pageModel.write (s.listPools (t.parameter "start_after") limit)

def priceReply {α : Type} (model : Model PriceRequest) (write : α → Json)
    (price : PriceRequest → Result α) (body : Option Json) : Reply :=
  withReading body (readBody model body) fun r => .ofResult write (price r)

def routeReply (model : Model RouteRequest) (write : RouteQuote → Json)
    (price : RouteRequest → Result RouteQuote) (body : Option Json) : Reply :=
  withReading body (readBody model body) fun r => .ofResult write (price r)

def health : Reply := .ok (.object [("status", .text "ok")])

def answer (s : State) (t : Target) (body : Option Json) : Endpoint → Reply
  | .health => health
  | .pools => listPools s t
  | .decimals pool denom => .ofResult DecimalsInfo.toJson (s.assetDecimals pool denom)
  | .pool identifier => .ofResult PoolInfo.toJson (s.findPool identifier)
  | .simulate =>
    priceReply (PriceRequest.forward .modelAttributesType) SwapQuote.model.write
      (fun r => s.quote r.coin r.otherDenom r.pool) body
  | .reverseSimulate =>
    priceReply (PriceRequest.backward .modelAttributesType) OfferQuote.model.write
      (fun r => s.quoteOffer r.coin r.otherDenom r.pool) body
  | .simulateRoute =>
    routeReply (RouteRequest.forward .modelAttributesType) RouteQuote.forwardModel.write
      (fun r => s.quoteRoute r.amount r.hops) body
  | .reverseSimulateRoute =>
    routeReply (RouteRequest.backward .modelAttributesType) RouteQuote.backwardModel.write
      (fun r => s.quoteRouteOffer r.amount r.hops) body

def bodyFor (endpoint : Endpoint) (request : Request) : Except Reply (Option Json) :=
  if endpoint.method = "POST" then parseBody request.body else .ok none

/-- An unreadable body comes first, then a state that cannot be built; the health of the service
depends on neither. -/
def serveEndpoint (state : Result State) (request : Request) (endpoint : Endpoint) : Reply :=
  if endpoint = .health then health
  else
    match bodyFor endpoint request with
    | .error reply => reply
    | .ok body =>
      match state with
      | .error e => .ofFailure e
      | .ok s => answer s request.target body endpoint

def unrouted (path : String) : Reply :=
  if path ≠ "/" ∧ (Endpoint.ofPath? (Endpoint.otherSlash path)).isSome then .redirect
  else .notFound

/-- A request with the method `HEAD` gets no content. -/
def withoutContent (method : String) (reply : Reply) : Reply :=
  if method = "HEAD" then { reply with content := .none } else reply

def serve (state : Result State) (request : Request) : Reply :=
  withoutContent request.method <|
    match Endpoint.ofPath? request.target.path with
    | none => unrouted request.target.path
    | some endpoint =>
      if request.method = endpoint.method then serveEndpoint state request endpoint
      else .methodNotAllowed

/-! ### State -/

/-- The state of snapshots: the manager holds the balances and the supplies of all of them. -/
def seedAll : List Snapshot → Action Ledger Unit
  | [] => pure ()
  | snapshot :: rest => do
    Ledger.seed managerAddress snapshot.pool snapshot.supply
    seedAll rest

def stateOfSnapshots (config : Config) (snapshots : List Snapshot) : Result State :=
  match seedAll snapshots Ledger.empty with
  | .error e _ => .error e
  | .ok _ ledger =>
    .ok { config, registry := .ofPools (snapshots.map Snapshot.pool), provisions := .empty, ledger }

/-- The state that an environment defines; `file` gives the text of a file by its name. -/
def stateOfEnvironment (env : Environment) (file : String → Option String) : Result State := do
  let config ← (Config.ofEnvironment env).mapError .value
  match config.poolsFile with
  | none => stateOfSnapshots config []
  | some name => do
    let snapshots ← Snapshot.ofFile (file name)
    stateOfSnapshots config snapshots

end MarketMaker.Http

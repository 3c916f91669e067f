import MarketMaker.Http.Service
import MarketMaker.Proofs.Http.Endpoint
import MarketMaker.Proofs.Http.Reference
import MarketMaker.Proofs.Snapshot
import MarketMaker.Proofs.Supply

/-! # What the service answers for its pools

A stored pool is answered at the path of its identifier, and the decimals of its assets at the paths
of their denoms, as far as these paths lead there. No other endpoint gives the same reply, so that
this is all: the pools and assets whose paths lead elsewhere are not reached at them. -/

namespace MarketMaker

/-! ## States of the service -/

/-- Pools are valid and kept under their identifiers, and supplies are amounts. -/
structure State.Sound (s : State) : Prop where
  registry : s.registry.Sound
  ledger : s.ledger.Sound

theorem Registry.sound_ofPools {pools : List Pool} (h : ∀ p ∈ pools, p.Valid) :
    (ofPools pools).Sound := by
  have hfrom {r : Registry} (hr : r.Sound) : (pools.foldl save r).Sound := by
    induction pools generalizing r with
    | nil => exact hr
    | cons p rest ih =>
        rw [List.forall_mem_cons] at h
        exact ih h.2 (hr.save h.1)
  exact hfrom sound_empty

namespace Http

theorem sound_of_seedAll {snapshots : List Snapshot} {l l' : Ledger} {u : Unit} (h : l.Sound)
    (hok : seedAll snapshots l = .ok u l') : l'.Sound := by
  induction snapshots generalizing l with
  | nil =>
      obtain ⟨-, rfl⟩ := Action.pure_eq_ok.1 hok
      exact h
  | cons snapshot rest ih =>
      obtain ⟨_, m, hseed, hrest⟩ := Action.bind_eq_ok.1 hok
      have hm := h.left_seed managerAddress snapshot.pool snapshot.supply
      rw [Action.left, hseed] at hm
      exact ih hm hrest

theorem sound_of_stateOfSnapshots {config : Config} {snapshots : List Snapshot} {s : State}
    (hsnapshots : ∀ x ∈ snapshots, x.Valid) (h : stateOfSnapshots config snapshots = .ok s) :
    s.Sound := by
  unfold stateOfSnapshots at h
  split at h
  next => cases h
  next hseed =>
    cases h
    refine ⟨Registry.sound_ofPools fun p hp => ?_, sound_of_seedAll Ledger.sound_empty hseed⟩
    obtain ⟨x, hx, rfl⟩ := List.mem_map.1 hp
    exact (hsnapshots x hx).pool_valid

theorem valid_of_ofFile {text : Option String} {snapshots : List Snapshot}
    (h : Snapshot.ofFile text = .ok snapshots) : ∀ x ∈ snapshots, x.Valid := by
  cases text with
  | none => cases h
  | some text =>
      rw [Snapshot.ofFile, Snapshot.ofFileText] at h
      split at h
      next => cases h
      next => cases h
      next => cases h
      next => exact Snapshot.faithful_fileModel.valid (Reading.toResult_eq_ok.1 h)

/-- Whatever file of pools the service is given, its state is sound if it has one. -/
theorem sound_of_stateOfEnvironment {env : Environment} {file : String → Option String} {s : State}
    (h : stateOfEnvironment env file = .ok s) : s.Sound := by
  obtain ⟨config, -, h⟩ := Result.bind_eq_ok.1 h
  cases hname : config.poolsFile with
  | none =>
      rw [hname] at h
      exact sound_of_stateOfSnapshots (List.forall_mem_nil _) h
  | some name =>
      rw [hname] at h
      obtain ⟨snapshots, hfile, h⟩ := Result.bind_eq_ok.1 h
      exact sound_of_stateOfSnapshots (valid_of_ofFile hfile) h

/-! ## Replies -/

theorem Reply.ofFault_ne_ok (cause : Fault) (v : Json) : ofFault cause ≠ .ok v := by
  intro h
  have hstatus : faultStatus cause = 200 := congrArg Reply.status h
  unfold faultStatus at hstatus
  split at hstatus
  · cases hstatus
  · cases hstatus

theorem Reply.ofResult_eq_ok_iff {α : Type} {write : α → Json} {x : Result α} {v : Json} :
    ofResult write x = .ok v ↔ ∃ a, x = .ok a ∧ write a = v := by
  cases x with
  | ok a => simp [ofResult, Reply.ok]
  | error e =>
      simp only [ofResult, reduceCtorEq, false_and, exists_false, iff_false]
      cases e with
      | fault cause => exact ofFault_ne_ok cause v
      | _ => exact fun h => nomatch congrArg Reply.status h

theorem unprocessable_ne_ok (body : Json) (problems : List Problem) (v : Json) :
    unprocessable body problems ≠ .ok v := by
  intro h
  unfold unprocessable at h
  split at h
  · cases congrArg Reply.status h
  · cases congrArg Reply.status h

theorem exists_page_of_listPools {s : State} {t : Target} {v : Json}
    (h : listPools s t = .ok v) : ∃ page, PoolInfo.pageModel.write page = v := by
  unfold listPools withReading at h
  split at h
  next =>
    obtain ⟨page, -, hpage⟩ := Reply.ofResult_eq_ok_iff.1 h
    exact ⟨page, hpage⟩
  next => exact absurd h (unprocessable_ne_ok _ _ _)
  next => exact absurd h (Reply.ofFault_ne_ok _ _)

theorem unrouted_ne_ok (path : String) (v : Json) : unrouted path ≠ .ok v := by
  intro h
  unfold unrouted at h
  split at h
  · cases congrArg Reply.status h
  · cases congrArg Reply.status h

/-- An endpoint that takes no body answers from the state alone. -/
theorem serveEndpoint_of_get {s : State} {request : Request} {e : Endpoint}
    (h : e.method = "GET") :
    serveEndpoint (.ok s) request e = answer s request.target none e := by
  have hbody : bodyFor e request = .ok none := by
    rw [bodyFor, h]
    rfl
  rw [serveEndpoint, hbody]
  split
  next he =>
    rw [he]
    rfl
  next => rfl

/-- A request that only reads is answered by the endpoint of its path, if that takes no body. -/
theorem serve_eq_ok_iff {s : State} {request : Request} {v : Json}
    (hget : request.method = "GET") :
    serve (.ok s) request = .ok v ↔ ∃ e, Endpoint.ofPath? request.target.path = some e ∧
      e.method = "GET" ∧ answer s request.target none e = .ok v := by
  have hcontent (reply : Reply) : withoutContent request.method reply = reply := by
    rw [hget]
    rfl
  rw [serve, hcontent]
  cases Endpoint.ofPath? request.target.path with
  | none => simp [unrouted_ne_ok]
  | some e =>
      by_cases he : e.method = "GET"
      · simp [hget, he, serveEndpoint_of_get he]
      · have hother : Reply.methodNotAllowed ≠ .ok v := fun h => nomatch congrArg Reply.status h
        simp [hget, he, Ne.symm he, hother]

/-! ## Which endpoint replied

The replies of different endpoints have different fields, and the decimals name their asset. -/

section

variable {s : State} {t : Target} {e : Endpoint}

theorem exists_pool_of_answer {info : PoolInfo} (hget : e.method = "GET")
    (h : answer s t none e = .ok info.toJson) : ∃ identifier, e = .pool identifier := by
  cases e with
  | pool identifier => exact ⟨identifier, rfl⟩
  | health => simp [answer, health, Reply.ok, PoolInfo.toJson] at h
  | pools =>
      obtain ⟨page, hpage⟩ := exists_page_of_listPools h
      simp [PoolInfo.pageModel, PoolInfo.toJson] at hpage
  | decimals pool denom =>
      obtain ⟨other, -, hother⟩ := Reply.ofResult_eq_ok_iff.1 h
      simp [DecimalsInfo.toJson, PoolInfo.toJson] at hother
  | simulate | reverseSimulate | simulateRoute | reverseSimulateRoute =>
      exact absurd hget (by decide)

theorem eq_decimals_of_answer {info : DecimalsInfo} (hget : e.method = "GET")
    (h : answer s t none e = .ok info.toJson) : e = .decimals info.pool info.denom := by
  cases e with
  | pool identifier =>
      obtain ⟨other, -, hother⟩ := Reply.ofResult_eq_ok_iff.1 h
      simp [DecimalsInfo.toJson, PoolInfo.toJson] at hother
  | health => simp [answer, health, Reply.ok, DecimalsInfo.toJson] at h
  | pools =>
      obtain ⟨page, hpage⟩ := exists_page_of_listPools h
      simp [PoolInfo.pageModel, DecimalsInfo.toJson] at hpage
  | decimals pool denom =>
      obtain ⟨other, hother, hsame⟩ := Reply.ofResult_eq_ok_iff.1 h
      simp only [State.assetDecimals, Result.bind_eq_ok, Except.ok.injEq] at hother
      obtain ⟨p, -, i, -, rfl⟩ := hother
      simp only [DecimalsInfo.toJson, Json.object.injEq, List.cons.injEq, Prod.mk.injEq,
        Json.text.injEq, true_and] at hsame
      rw [hsame.1, hsame.2.1]
  | simulate | reverseSimulate | simulateRoute | reverseSimulateRoute =>
      exact absurd hget (by decide)

end

/-! ## Stored pools -/

section

variable {s : State} {p : Pool}

theorem poolInfo_of_get? (hs : s.Sound) (hp : s.registry.get? p.identifier = some p) :
    s.poolInfo p = .ok ⟨p, ⟨p.lpDenom, s.shareSupply p⟩⟩ := by
  have hvalid := (hs.registry _ _ hp).2
  have hnonneg : 0 ≤ s.shareSupply p := Int.le_trans
    (hs.ledger.nonneg managerAddress p.lpDenom) (hs.ledger.balance_le_supply managerAddress _)
  have hcoin : (⟨p.lpDenom, s.shareSupply p⟩ : Coin).Valid :=
    ⟨hvalid.lpDenom_ne, hnonneg, hs.ledger.fits _⟩
  simp only [State.poolInfo, Result.bind_eq_ok, Coin.make_eq_ok_iff]
  exact ⟨_, ⟨hcoin, rfl⟩, rfl⟩

theorem findPool_of_get? (hs : s.Sound) (hp : s.registry.get? p.identifier = some p) :
    s.findPool p.identifier = .ok ⟨p, ⟨p.lpDenom, s.shareSupply p⟩⟩ := by
  simp only [State.findPool, State.pool, Result.bind_eq_ok, Registry.get_eq_ok_iff]
  exact ⟨p, hp, poolInfo_of_get? hs hp⟩

/-- Places of assets and of their decimals go together. -/
theorem assetDecimals_of_get? (hs : s.Sound) (hp : s.registry.get? p.identifier = some p)
    {c : Coin} {places : Int} (h : (c, places) ∈ p.assets.zip p.decimals) :
    s.assetDecimals p.identifier c.denom = .ok ⟨p.identifier, c.denom, places⟩ := by
  have hvalid := (hs.registry _ _ hp).2
  obtain ⟨i, hi⟩ := List.getElem?_of_mem h
  obtain ⟨hasset, hplaces⟩ := List.getElem?_zip_eq_some.1 hi
  have hdecimals : p.decimalsAt i = places := by
    rw [Pool.decimalsAt, hplaces]
    rfl
  simp only [State.assetDecimals, State.pool, Result.bind_eq_ok, Registry.get_eq_ok_iff]
  exact ⟨p, hp, i, Pool.indexOf_of_getElem? hvalid.denoms_nodup hasset, by rw [hdecimals]⟩

/-- Identifiers are made of letters, digits, points and slashes. -/
theorem newline_not_mem_identifier (h : p.Valid) : '\n' ∉ p.identifier.toList := by
  intro hmem
  have hchar := List.all_eq_true.1 h.identifier_chars _ hmem
  revert hchar
  decide

theorem serve_pool_iff (hs : s.Sound) (hp : s.registry.get? p.identifier = some p)
    {request : Request} (hget : request.method = "GET")
    (hpath : request.target.path = "/pools/" ++ p.identifier) :
    serve (.ok s) request = .ok (PoolInfo.toJson ⟨p, ⟨p.lpDenom, s.shareSupply p⟩⟩) ↔
      ¬"/decimals/".toList <:+: p.identifier.toList := by
  have hnewline := newline_not_mem_identifier (hs.registry _ _ hp).2
  rw [serve_eq_ok_iff hget, hpath]
  constructor
  · intro ⟨e, he, hmethod, hanswer⟩
    obtain ⟨other, rfl⟩ := exists_pool_of_answer hmethod hanswer
    exact ((Endpoint.ofPath?_pool_iff hnewline).1 he).2
  · intro hnone
    refine ⟨.pool p.identifier, (Endpoint.ofPath?_pool_iff hnewline).2 ⟨rfl, hnone⟩, rfl, ?_⟩
    rw [answer, findPool_of_get? hs hp]
    rfl

theorem serve_decimals_iff (hs : s.Sound) (hp : s.registry.get? p.identifier = some p)
    {c : Coin} {places : Int} (hc : (c, places) ∈ p.assets.zip p.decimals)
    {request : Request} (hget : request.method = "GET")
    (hpath : request.target.path = "/pools/" ++ p.identifier ++ "/decimals/" ++ c.denom) :
    serve (.ok s) request = .ok (DecimalsInfo.toJson ⟨p.identifier, c.denom, places⟩) ↔
      '\n' ∉ c.denom.toList ∧ ¬"/decimals/".toList <:+: '/' :: c.denom.toList := by
  have hnewline := newline_not_mem_identifier (hs.registry _ _ hp).2
  rw [serve_eq_ok_iff hget, hpath, ← Endpoint.ofPath?_decimals_iff hnewline]
  constructor
  · intro ⟨e, he, hmethod, hanswer⟩
    rw [he, eq_decimals_of_answer hmethod hanswer]
  · intro he
    refine ⟨_, he, rfl, ?_⟩
    rw [answer, assetDecimals_of_get? hs hp hc]
    rfl

/-- How a state serves a path: it answers requests for the path with a value exactly under a
condition, and there is a reference that spells the path. -/
structure Serves (s : State) (path : String) (v : Json) (condition : Prop) : Prop where
  spelled : ∃ reference, (Target.ofReference reference).path = path
  answered : ∀ request : Request, request.method = "GET" → request.target.path = path →
    (serve (.ok s) request = .ok v ↔ condition)

/-- A stored pool is served at the path of its identifier exactly if that does not read as a path
of decimals, and the decimals of an asset at the path of its denom exactly if the denom holds no
newline and does not read, after its slash, as another path of decimals. -/
theorem served_iff (hs : s.Sound) (hp : s.registry.get? p.identifier = some p) :
    Serves s ("/pools/" ++ p.identifier) (PoolInfo.toJson ⟨p, ⟨p.lpDenom, s.shareSupply p⟩⟩)
        (¬"/decimals/".toList <:+: p.identifier.toList) ∧
      ∀ c places, (c, places) ∈ p.assets.zip p.decimals →
        Serves s ("/pools/" ++ p.identifier ++ "/decimals/" ++ c.denom)
          (DecimalsInfo.toJson ⟨p.identifier, c.denom, places⟩)
          ('\n' ∉ c.denom.toList ∧ ¬"/decimals/".toList <:+: '/' :: c.denom.toList) := by
  have hspelled (rest : String) :
      ∃ reference, (Target.ofReference reference).path = "/pools/" ++ rest := by
    have hslash : ("/pools/" ++ rest).toList = '/' :: ("pools/".toList ++ rest.toList) := by
      rw [String.toList_append]
      rfl
    exact ⟨_, congrArg Target.path (Target.ofReference_reference hslash)⟩
  refine ⟨⟨hspelled _, fun request hget hpath => serve_pool_iff hs hp hget hpath⟩, ?_⟩
  intro c places hc
  refine ⟨?_, fun request hget hpath => serve_decimals_iff hs hp hc hget hpath⟩
  rw [String.append_assoc, String.append_assoc]
  exact hspelled _

end

/-- A pool whose identifier has a slash, and so have its denoms. -/
def slashed : Pool where
  identifier := "a/b"
  assets := [⟨"ibc/X", 10⟩, ⟨"u/decimals/v", 20⟩]
  curve := .constantProduct
  lpDenom := "factory/a/b"
  fees := {}
  decimals := [6, 18]

def shadowed : Pool where
  identifier := "a/decimals/b"
  assets := [⟨"x", 1⟩, ⟨"y", 2⟩]
  curve := .constantProduct
  lpDenom := "factory/a/decimals/b"
  fees := {}
  decimals := [6, 6]

def slashedSnapshots : List Snapshot := [⟨slashed, 7⟩, ⟨shadowed, 0⟩]

def getting (reference : String) : Request := ⟨"GET", .ofReference reference, ""⟩

theorem served_slashed :
    ∃ s, stateOfSnapshots {} slashedSnapshots = .ok s ∧
      serve (.ok s) (getting "/pools/a/b") =
        .ok (PoolInfo.toJson ⟨slashed, ⟨"factory/a/b", 7⟩⟩) ∧
      serve (.ok s) (getting "/pools/a%2Fb/decimals/ibc%2FX") =
        .ok (DecimalsInfo.toJson ⟨"a/b", "ibc/X", 6⟩) := by
  obtain ⟨s, hstate⟩ : ∃ s, stateOfSnapshots {} slashedSnapshots = .ok s := ⟨_, rfl⟩
  have hsound : s.Sound := sound_of_stateOfSnapshots (by decide) hstate
  have hstored : s.registry.get? slashed.identifier = some slashed := by
    cases hstate
    rfl
  have hsupply : s.shareSupply slashed = 7 := by
    cases hstate
    rfl
  obtain ⟨hpool, hassets⟩ := served_iff hsound hstored
  rw [hsupply] at hpool
  have hasset := hassets ⟨"ibc/X", 10⟩ 6 (by decide)
  refine ⟨s, hstate, (hpool.answered _ rfl ?_).2 ?_, (hasset.answered _ rfl ?_).2 ?_⟩
  · rfl
  · decide
  · rfl
  · decide

/-- The path of the shadowed pool, and that of the second asset, lead to decimals of pools that are
not there. -/
theorem not_served_shadowed :
    shadowed.Valid ∧ ∃ s, stateOfSnapshots {} slashedSnapshots = .ok s ∧
      s.registry.get? "a/decimals/b" = some shadowed ∧
      serve (.ok s) (getting "/pools/a/decimals/b") = .ofFault (.unExistingPool "a") ∧
      serve (.ok s) (getting "/pools/a/b/decimals/u/decimals/v") =
        .ofFault (.unExistingPool "a/b/decimals/u") := by
  refine ⟨by decide, _, rfl, rfl, ?_, ?_⟩
  · rfl
  · rfl

end Http

end MarketMaker

import MarketMaker.Proofs.Http.Service
import MarketMaker.Proofs.Pages

/-! # How many pools a listing answers

A page holds at most 100 of the pools after its start, as long as its limit is not negative. A
negative limit leaves out pools at the end instead, and what is left has no upper bound: it exceeds
a page as soon as there are enough pools. -/

namespace MarketMaker

namespace Registry

variable {r : Registry} {start : Option String} {limit : Option Int}

/-! ## Items that are cut off -/

section

variable {α β : Type} {count : Int} {items : List α}

/-- A count takes items from the front; where it is negative, all but as many. -/
theorem cut_eq_take (count : Int) (items : List α) :
    cut count items = items.take (if 0 ≤ count then count else items.length + count).toNat := by
  unfold cut
  split
  · rfl
  · congr 1
    omega

theorem length_cut_le_iff {most : Int} (hmost : 0 ≤ most) (hcount : count ≤ most) :
    ((cut count items).length : Int) ≤ most ↔
      0 ≤ count ∨ (items.length : Int) + count ≤ most := by
  rw [cut_eq_take, List.length_take]
  split <;> omega

/-- A negative count leaves nothing, as a count of zero does, if it reaches the first item. -/
theorem cut_eq_take_iff :
    cut count items = items.take count.toNat ↔ 0 ≤ count ∨ (items.length : Int) + count ≤ 0 := by
  by_cases hcount : 0 ≤ count
  · rw [cut_eq_take, if_pos hcount]
    exact iff_of_true rfl (.inl hcount)
  · have hnone : count.toNat = 0 := by omega
    rw [cut_eq_take, if_neg hcount, hnone, List.take_zero, List.take_eq_nil_iff,
      ← List.length_eq_zero_iff]
    omega

theorem filterMap_take {f : α → Option β} (h : ∀ x ∈ items, (f x).isSome) (n : Nat) :
    (items.take n).filterMap f = (items.filterMap f).take n := by
  induction items generalizing n with
  | nil => simp
  | cons x rest ih =>
      rw [List.forall_mem_cons] at h
      obtain ⟨y, hy⟩ := Option.isSome_iff_exists.1 h.1
      cases n with
      | zero => simp
      | succ n => simp [hy, ih h.2]

end

/-! ## Pools of a page -/

theorem isSome_of_mem_identifiersAfter {id : String} (h : id ∈ r.identifiersAfter start) :
    (r.get? id).isSome := Table.contains_iff_mem_keys.2 (mem_identifiersAfter.1 h).1

theorem length_poolsAfter : (r.poolsAfter start).length = (r.identifiersAfter start).length :=
  List.filterMap_length_eq_length.2 fun _ => isSome_of_mem_identifiersAfter

theorem page_eq_cut : r.page start limit = cut (pageSize limit) (r.poolsAfter start) := by
  have hstored : ∀ id ∈ r.identifiersAfter start, (r.get? id).isSome :=
    fun _ => isSome_of_mem_identifiersAfter
  rw [page, ← pageSize, cut, cut, length_poolsAfter]
  split
  · exact filterMap_take hstored _
  · exact filterMap_take hstored _

theorem mem_poolsAfter_of_mem_page {p : Pool} (h : p ∈ r.page start limit) :
    p ∈ r.poolsAfter start := by
  rw [page_eq_cut, cut_eq_take] at h
  exact List.mem_of_mem_take h

/-- The pools after a start, each of them once, in the order of their identifiers. -/
structure Follow (r : Registry) (start : Option String) (pools : List Pool) : Prop where
  ascending : pools.Pairwise fun p q => p.identifier < q.identifier
  mem_iff : ∀ p, p ∈ pools ↔ r.get? p.identifier = some p ∧ ∀ s ∈ start, s < p.identifier

theorem follow_poolsAfter (h : r.Keyed) (start : Option String) :
    r.Follow start (r.poolsAfter start) := ⟨pairwise_poolsAfter h start, fun _ => mem_poolsAfter h⟩

theorem Sound.keyed (h : r.Sound) : r.Keyed := fun id p hp => (h id p hp).1

/-! ## Registries of many pools -/

/-- Pools of different identifiers are all kept, in the order in which they came. -/
theorem keys_ofPools {pools : List Pool} (h : (pools.map Pool.identifier).Nodup) :
    (ofPools pools).keys = pools.map Pool.identifier := by
  have hfrom {r : Registry} (hr : (r.keys ++ pools.map Pool.identifier).Nodup) :
      (pools.foldl save r).keys = r.keys ++ pools.map Pool.identifier := by
    clear h
    induction pools generalizing r with
    | nil => simp
    | cons p rest ih =>
        have hnew : p.identifier ∉ r.keys := by
          intro hmem
          exact (List.nodup_append.1 hr).2.2 _ hmem _ (by simp) rfl
        have hkeys : (r.save p).keys = r.keys ++ [p.identifier] :=
          Table.keys_put_of_none (Table.get?_eq_none_iff.2 hnew) p
        rw [List.foldl_cons, ih (by rw [hkeys]; simpa using hr), hkeys]
        simp
  exact hfrom h

theorem length_poolsAfter_none (r : Registry) : (r.poolsAfter none).length = r.keys.length := by
  simp [length_poolsAfter, identifiersAfter]

end Registry

namespace State

variable {s : State} {start : Option String} {limit : Option Int}

def infoOf (s : State) (p : Pool) : PoolInfo := ⟨p, ⟨p.lpDenom, s.shareSupply p⟩⟩

theorem listPools_eq_ok (hs : s.Sound) :
    s.listPools start limit = .ok ((s.registry.page start limit).map s.infoOf) := by
  have hstored : ∀ p ∈ s.registry.page start limit, s.poolInfo p = .ok (s.infoOf p) := by
    intro p hp
    have hfollows := Registry.mem_poolsAfter_of_mem_page hp
    exact Http.poolInfo_of_get? hs ((Registry.mem_poolsAfter hs.registry.keyed).1 hfollows).1
  have hall {pools : List Pool} (h : ∀ p ∈ pools, s.poolInfo p = .ok (s.infoOf p)) :
      pools.mapM s.poolInfo = .ok (pools.map s.infoOf) := by
    induction pools with
    | nil => rfl
    | cons p rest ih =>
        rw [List.forall_mem_cons] at h
        exact Result.mapM_cons_eq_ok.2 ⟨_, _, h.1, ih h.2, rfl⟩
  exact hall hstored

end State

namespace Http

variable {s : State} {start : Option String} {limit : Option Int}

theorem serve_pools (hs : s.Sound) {request : Request} (hget : request.method = "GET")
    (hpath : request.target.path = "/pools") (hlimit : readLimit request.target = .accepted limit) :
    serve (.ok s) request = .ok (PoolInfo.pageModel.write
      ((s.registry.page (request.target.parameter "start_after") limit).map s.infoOf)) := by
  rw [serve_eq_ok_iff hget, hpath]
  refine ⟨.pools, rfl, rfl, ?_⟩
  rw [answer, listPools, hlimit, withReading, State.listPools_eq_ok hs]
  rfl

end Http

/-! ## What is listed -/

/-- A listing answers the first pools after the start, as many as its limit says and 100 at most,
exactly if the limit is not negative or would leave out all of these pools. A negative limit leaves
out as many of them at the end, so that no more than 100 are answered exactly if no more are left.
The registry, the query and the service answer the same page. -/
theorem listed_within_cap_iff {s : State} (hs : s.Sound) (start : Option String)
    (limit : Option Int) :
    s.registry.Follow start (s.registry.poolsAfter start) ∧
      s.registry.page start limit = (s.registry.poolsAfter start).take
        (if 0 ≤ Registry.pageSize limit then Registry.pageSize limit
          else (s.registry.poolsAfter start).length + Registry.pageSize limit).toNat ∧
      (s.registry.page start limit =
          (s.registry.poolsAfter start).take (Registry.pageSize limit).toNat ↔
        0 ≤ Registry.pageSize limit ∨
          ((s.registry.poolsAfter start).length : Int) + Registry.pageSize limit ≤ 0) ∧
      (((s.registry.page start limit).length : Int) ≤ Registry.maxLimit ↔
        0 ≤ Registry.pageSize limit ∨
          (s.registry.poolsAfter start).length + Registry.pageSize limit ≤ Registry.maxLimit) ∧
      s.queryPools none start limit = .ok ((s.registry.page start limit).map s.infoOf) ∧
      ∀ request : Http.Request, request.method = "GET" → request.target.path = "/pools" →
        request.target.parameter "start_after" = start →
        Http.readLimit request.target = .accepted limit →
        Http.serve (.ok s) request =
          .ok (PoolInfo.pageModel.write ((s.registry.page start limit).map s.infoOf)) := by
  refine ⟨Registry.follow_poolsAfter hs.registry.keyed start, ?_, ?_, ?_,
    State.listPools_eq_ok hs, ?_⟩
  · rw [Registry.page_eq_cut, Registry.cut_eq_take]
  · rw [Registry.page_eq_cut]
    exact Registry.cut_eq_take_iff
  · rw [Registry.page_eq_cut]
    exact Registry.length_cut_le_iff (by decide) (Int.min_le_right _ _)
  · rintro request hget hpath rfl hlimit
    exact Http.serve_pools hs hget hpath hlimit

def crowd (n : Nat) : List Pool :=
  (List.range n).map fun i => Registry.plainPool ("o." ++ toString i)

def crowdedState (n : Nat) : State := { State.empty {} with registry := .ofPools (crowd n) }

theorem sound_crowdedState {n : Nat} (h : ∀ p ∈ crowd n, p.Valid) : (crowdedState n).Sound :=
  ⟨Registry.sound_ofPools h, Ledger.sound_empty⟩

theorem length_poolsAfter_crowdedState (n : Nat) :
    ((crowdedState n).registry.poolsAfter none).length = n := by
  have hdistinct : ((crowd n).map Pool.identifier).Nodup := by
    rw [crowd, List.map_map]
    refine List.Nodup.map (fun i j hij => ?_) List.nodup_range
    have hdigits : i.repr = j.repr := by simpa [Registry.plainPool] using hij
    have hvalue := congrArg (fun digits => Text.ofAsciiDigits digits.toList) hdigits
    simpa only [Nat.toList_repr, Text.ofAsciiDigits_toDigits] using hvalue
  rw [Registry.length_poolsAfter_none, crowdedState, Registry.keys_ofPools hdistinct,
    List.length_map, crowd, List.length_map, List.length_range]

/-- A limit that leaves out all of three pools, and one that takes two of them. -/
theorem listed_within_cap_three :
    (crowdedState 3).Sound ∧ (crowdedState 3).registry.page none (some (-3)) = [] ∧
      (crowdedState 3).queryPools none none (some 2) =
        .ok (((crowd 3).take 2).map (crowdedState 3).infoOf) ∧
      Http.serve (.ok (crowdedState 3)) (Http.getting "/pools?limit=-3") =
        .ok (PoolInfo.pageModel.write []) := by
  have hsound : (crowdedState 3).Sound := sound_crowdedState (by decide +kernel)
  have hlength := length_poolsAfter_crowdedState 3
  obtain ⟨-, -, hnone, -, -, hserve⟩ := listed_within_cap_iff hsound none (some (-3))
  obtain ⟨-, htwo, -, -, hquery, -⟩ := listed_within_cap_iff hsound none (some 2)
  have hempty : (crowdedState 3).registry.page none (some (-3)) = [] := by
    rw [hnone.2 (.inr (by rw [hlength]; decide))]
    rfl
  have hpools : (crowdedState 3).registry.poolsAfter none = crowd 3 := by cbv
  have hpage : (crowdedState 3).registry.page none (some 2) = (crowd 3).take 2 := by
    rw [htwo, hpools]
    rfl
  refine ⟨hsound, hempty, ?_, ?_⟩
  · rw [hquery, hpage]
  · rw [hserve _ rfl rfl rfl rfl, hempty]
    rfl

/-- With 102 pools, a limit of -1 makes a page of 101. -/
theorem page_exceeds_cap :
    (crowdedState 102).Sound ∧
      ((crowdedState 102).registry.page none (some (-1))).length = 101 ∧
      ∃ page, (crowdedState 102).queryPools none none (some (-1)) = .ok page ∧ page.length = 101 ∧
        Http.serve (.ok (crowdedState 102)) (Http.getting "/pools?limit=-1") =
          .ok (PoolInfo.pageModel.write page) := by
  have hsound : (crowdedState 102).Sound := sound_crowdedState (by decide +kernel)
  have hlength : ((crowdedState 102).registry.page none (some (-1))).length = 101 := by
    rw [Registry.page_eq_cut, Registry.cut_eq_take, List.length_take,
      length_poolsAfter_crowdedState]
    rfl
  refine ⟨hsound, hlength, _, State.listPools_eq_ok hsound, ?_, ?_⟩
  · rw [List.length_map, hlength]
  · exact Http.serve_pools hsound rfl rfl rfl

end MarketMaker

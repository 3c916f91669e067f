import Mathlib.Data.List.Permutation
import Mathlib.Data.List.Sort
import MarketMaker.Proofs.Reserve

/-! # Pages that follow each other

Pools are listed a page at a time. A page is what the pools after its start begin with, so where
each page starts after the last pool of the one before, the pages together are all of them. -/

namespace MarketMaker.Registry

variable {r : Registry} {start : Option String} {limit : Option Int}

/-- Every pool is kept under its own identifier. -/
def Keyed (r : Registry) : Prop := ∀ id p, r.get? id = some p → p.identifier = id

theorem Keyed.save (h : r.Keyed) (p : Pool) : (r.save p).Keyed := by
  intro id q hq
  rw [Registry.save, Table.get?_put] at hq
  split at hq
  · rename_i hid
    cases hq
    exact hid
  · exact h id q hq

theorem keyed_ofPools (pools : List Pool) : (ofPools pools).Keyed := by
  have hfrom {r : Registry} (hr : r.Keyed) : (pools.foldl save r).Keyed := by
    induction pools generalizing r with
    | nil => exact hr
    | cons p rest ih => exact ih (hr.save p)
  exact hfrom fun _ _ h => nomatch h

/-! ## Identifiers after a start -/

theorem mem_identifiersAfter {id : String} :
    id ∈ r.identifiersAfter start ↔ id ∈ r.keys ∧ ∀ s ∈ start, s < id := by
  rw [identifiersAfter, List.mem_filter, List.mem_mergeSort]
  cases start with
  | none => simp
  | some s => simp

/-- Identifiers are listed in the order of their code points, none of them twice. -/
theorem pairwise_identifiersAfter (r : Registry) (start : Option String) :
    (r.identifiersAfter start).Pairwise (· < ·) := by
  have hsorted : (r.keys.mergeSort fun a b => decide (a ≤ b)).Pairwise
      fun a b => decide (a ≤ b) = true := by
    refine List.pairwise_mergeSort (fun a b c hab hbc => ?_) (fun a b => ?_) r.keys
    · exact decide_eq_true (String.le_trans (of_decide_eq_true hab) (of_decide_eq_true hbc))
    · simpa using String.le_total a b
  have hnodup : (r.keys.mergeSort fun a b => decide (a ≤ b)).Nodup :=
    (List.mergeSort_perm r.keys _).nodup_iff.2 r.nodup
  refine ((hsorted.and hnodup).imp ?_).filter _
  rintro a b ⟨hle, hne⟩
  exact String.not_le.1 fun hge => hne (String.le_antisymm (of_decide_eq_true hle) hge)

/-- After an identifier that is listed come those that are listed after it. -/
theorem identifiersAfter_eq_of_append {front rest : List String} {last : String}
    (h : r.identifiersAfter start = front ++ last :: rest) :
    r.identifiersAfter (some last) = rest := by
  have hsorted := r.pairwise_identifiersAfter start
  rw [h, List.pairwise_append, List.pairwise_cons] at hsorted
  obtain ⟨-, ⟨hrest, hsorted⟩, hfront⟩ := hsorted
  refine (r.pairwise_identifiersAfter (some last)).eq_of_mem_iff hsorted fun id => ?_
  rw [mem_identifiersAfter]
  constructor
  · rintro ⟨hkey, hlast⟩
    replace hlast : last < id := hlast last rfl
    have hlisted : last ∈ r.identifiersAfter start := h ▸ by simp
    have hid : id ∈ r.identifiersAfter start :=
      mem_identifiersAfter.2 ⟨hkey, fun s hs =>
        String.lt_trans ((mem_identifiersAfter.1 hlisted).2 s hs) hlast⟩
    rw [h, List.mem_append, List.mem_cons] at hid
    rcases hid with hid | rfl | hid
    · exact absurd (hfront id hid last List.mem_cons_self) (String.lt_asymm hlast)
    · exact absurd hlast (String.lt_irrefl _)
    · exact hid
  · intro hid
    have hlisted : id ∈ r.identifiersAfter start := h ▸ by simp [hid]
    refine ⟨(mem_identifiersAfter.1 hlisted).1, fun s hs => ?_⟩
    obtain rfl := Option.mem_some_iff.1 hs
    exact hrest id hid

/-! ## Pools after a start -/

/-- The pools that follow a start, or all of them, ascending by identifier. -/
def poolsAfter (r : Registry) (start : Option String) : List Pool :=
  (r.identifiersAfter start).filterMap r.get?

theorem map_identifier_filterMap (h : r.Keyed) {ids : List String}
    (hkeys : ∀ id ∈ ids, id ∈ r.keys) :
    (ids.filterMap r.get?).map Pool.identifier = ids := by
  induction ids with
  | nil => rfl
  | cons id rest ih =>
      rw [List.forall_mem_cons] at hkeys
      cases hget : r.get? id with
      | none => exact absurd hkeys.1 (Table.get?_eq_none_iff.1 hget)
      | some p => rw [List.filterMap_cons_some hget, List.map_cons, ih hkeys.2, h id p hget]

theorem pairwise_poolsAfter (h : r.Keyed) (start : Option String) :
    (r.poolsAfter start).Pairwise fun p q => p.identifier < q.identifier := by
  have hids : (r.poolsAfter start).map Pool.identifier = r.identifiersAfter start :=
    map_identifier_filterMap h fun _ hid => (mem_identifiersAfter.1 hid).1
  exact List.pairwise_map.1 (hids ▸ r.pairwise_identifiersAfter start)

theorem mem_poolsAfter (h : r.Keyed) {p : Pool} :
    p ∈ r.poolsAfter start ↔ r.get? p.identifier = some p ∧ ∀ s ∈ start, s < p.identifier := by
  simp only [poolsAfter, List.mem_filterMap, mem_identifiersAfter]
  constructor
  · rintro ⟨id, ⟨-, hstart⟩, hget⟩
    obtain rfl := h id p hget
    exact ⟨hget, hstart⟩
  · rintro ⟨hget, hstart⟩
    have hkey : p.identifier ∈ r.keys := by
      rw [← Table.contains_iff_mem_keys, Table.contains, hget]
      rfl
    exact ⟨p.identifier, ⟨hkey, hstart⟩, hget⟩

/-! ## One page -/

/-- The most pools of a page. -/
def pageSize (limit : Option Int) : Int := min (limit.getD defaultLimit) maxLimit

theorem page_eq (hlimit : 0 ≤ pageSize limit) : r.page start limit =
    ((r.identifiersAfter start).take (pageSize limit).toNat).filterMap r.get? := by
  rw [page, cut, ← pageSize, if_pos hlimit]

theorem map_identifier_page (h : r.Keyed) (hlimit : 0 ≤ pageSize limit) :
    (r.page start limit).map Pool.identifier =
      (r.identifiersAfter start).take (pageSize limit).toNat := by
  rw [page_eq hlimit]
  exact map_identifier_filterMap h fun _ hid =>
    (mem_identifiersAfter.1 (List.mem_of_mem_take hid)).1

theorem length_page_le (hlimit : 0 ≤ pageSize limit) :
    (r.page start limit).length ≤ pageSize limit := by
  have hlength := List.length_filterMap_le r.get?
    ((r.identifiersAfter start).take (pageSize limit).toNat)
  have htake := List.length_take_le (pageSize limit).toNat (r.identifiersAfter start)
  rw [page_eq hlimit]
  omega

/-- A page is empty only where nothing is left. -/
theorem poolsAfter_eq_nil (h : r.Keyed) (hlimit : 1 ≤ pageSize limit)
    (hpage : r.page start limit = []) : r.poolsAfter start = [] := by
  have hids : (r.page start limit).map Pool.identifier = _ := map_identifier_page h (by omega)
  rw [hpage, List.map_nil, eq_comm, List.take_eq_nil_iff] at hids
  rw [poolsAfter, hids.resolve_left (by omega), List.filterMap_nil]

/-- What is left begins with the page, and goes on after the last pool of the page. -/
theorem poolsAfter_eq_append (h : r.Keyed) (hlimit : 0 ≤ pageSize limit) {front : List Pool}
    {last : Pool} (hpage : r.page start limit = front ++ [last]) :
    r.poolsAfter start = r.page start limit ++ r.poolsAfter (some last.identifier) := by
  have hids : (r.page start limit).map Pool.identifier = _ := map_identifier_page h hlimit
  rw [hpage, List.map_append, List.map_singleton] at hids
  have hsplit := (List.take_append_drop (pageSize limit).toNat (r.identifiersAfter start)).symm
  have hrest : r.identifiersAfter (some last.identifier) =
      (r.identifiersAfter start).drop (pageSize limit).toNat := by
    rw [← hids, List.append_assoc] at hsplit
    exact identifiersAfter_eq_of_append hsplit
  rw [poolsAfter, poolsAfter, hrest, page_eq hlimit, ← List.filterMap_append, List.take_append_drop]

/-! ## All pages -/

/-- The pages from a start on, each starting after the last pool of the one before, until one is
empty. -/
inductive Paged (r : Registry) (limit : Option Int) : Option String → List (List Pool) → Prop
  | done {start : Option String} (empty : r.page start limit = []) : Paged r limit start []
  | next {start : Option String} {front : List Pool} {last : Pool} {rest : List (List Pool)}
      (page : r.page start limit = front ++ [last])
      (more : Paged r limit (some last.identifier) rest) :
      Paged r limit start ((front ++ [last]) :: rest)

namespace Paged

theorem unique {pages others : List (List Pool)} (h : Paged r limit start pages)
    (h' : Paged r limit start others) : pages = others := by
  induction h generalizing others with
  | done empty =>
      cases h' with
      | done => rfl
      | next page => simp [empty] at page
  | next page more ih =>
      cases h' with
      | done empty => simp [empty] at page
      | next page' more' =>
          obtain ⟨rfl, hlast⟩ := List.append_inj' (page.symm.trans page') rfl
          obtain rfl := List.singleton_inj.1 hlast
          rw [ih more']

theorem flatten_eq {pages : List (List Pool)} (h : Paged r limit start pages) (hr : r.Keyed)
    (hlimit : 1 ≤ pageSize limit) : pages.flatten = r.poolsAfter start := by
  induction h with
  | done empty => rw [poolsAfter_eq_nil hr hlimit empty, List.flatten_nil]
  | next page more ih =>
      rw [poolsAfter_eq_append hr (by omega) page, List.flatten_cons, ih, page]

theorem length_le {pages : List (List Pool)} (h : Paged r limit start pages)
    (hlimit : 0 ≤ pageSize limit) : ∀ page ∈ pages, page.length ≤ pageSize limit := by
  induction h with
  | done => exact fun _ hpage => nomatch hpage
  | next page more ih => exact List.forall_mem_cons.2 ⟨page ▸ length_page_le hlimit, ih⟩

end Paged

/-- The pages come to an end: each takes some of what is left. -/
theorem exists_paged (h : r.Keyed) (hlimit : 1 ≤ pageSize limit) (start : Option String) :
    ∃ pages, Paged r limit start pages := by
  induction hleft : (r.poolsAfter start).length using Nat.strongRecOn generalizing start with
  | ind left ih =>
      rcases List.eq_nil_or_concat (r.page start limit) with hempty | ⟨front, last, hpage⟩
      · exact ⟨[], .done hempty⟩
      · rw [List.concat_eq_append] at hpage
        have hrest := poolsAfter_eq_append h (by omega) hpage
        have hless : (r.poolsAfter (some last.identifier)).length < left := by
          rw [← hleft, hrest, hpage, List.length_append, List.length_append]
          simp only [List.length_singleton]
          omega
        obtain ⟨rest, hpaged⟩ := ih _ hless (some last.identifier) rfl
        exact ⟨_, .next hpage hpaged⟩

/-- Pages of any size, one after the other, come to an end, and together they are the pools after
the start, each of them once, in the order of their identifiers. -/
theorem pages_visit_each_once (h : r.Keyed) (hlimit : ∀ l ∈ limit, 1 ≤ l) (start : Option String) :
    ∃ pages, (∀ others, Paged r limit start others ↔ others = pages) ∧
      (∀ page ∈ pages, (page.length : Int) ≤ min (limit.getD defaultLimit) maxLimit) ∧
      (pages.flatten.Pairwise fun p q => p.identifier < q.identifier) ∧
      ∀ p, p ∈ pages.flatten ↔
        r.get? p.identifier = some p ∧ ∀ s ∈ start, s < p.identifier := by
  have hsize : 1 ≤ pageSize limit := by
    cases limit with
    | none => decide
    | some l =>
        have hl := hlimit l rfl
        simp only [pageSize, Option.getD_some, maxLimit]
        omega
  obtain ⟨pages, hpaged⟩ := exists_paged h hsize start
  refine ⟨pages, fun others => ⟨fun hothers => hothers.unique hpaged, ?_⟩,
    hpaged.length_le (by omega), ?_, fun p => ?_⟩
  · rintro rfl
    exact hpaged
  · rw [hpaged.flatten_eq h hsize]
    exact pairwise_poolsAfter h start
  · rw [hpaged.flatten_eq h hsize]
    exact mem_poolsAfter h

def plainPool (identifier : String) : Pool where
  identifier
  assets := [⟨"uom", 1000⟩, ⟨"uusd", 4000⟩]
  curve := .constantProduct
  lpDenom := "factory/" ++ identifier
  fees := {}
  decimals := [6, 6]

/-- Two pages from a start that is not stored, with a page that is full and one that is not. -/
theorem pages_visit_each_once_fromBetween :
    ∃ r : Registry, r.Keyed ∧
      Paged r (some 2) (some "o.aa") [[plainPool "o.b", plainPool "o.c"], [plainPool "o.d"]] ∧
      r.get? "o.a" = some (plainPool "o.a") ∧
      ∀ p, p ∈ [plainPool "o.b", plainPool "o.c", plainPool "o.d"] ↔
        r.get? p.identifier = some p ∧ "o.aa" < p.identifier := by
  let r := ofPools [plainPool "o.c", plainPool "o.a", plainPool "o.d", plainPool "o.b"]
  have hkeyed : r.Keyed := keyed_ofPools _
  have hfirst : r.page (some "o.aa") (some 2) = [plainPool "o.b"] ++ [plainPool "o.c"] := by cbv
  have hsecond : r.page (some "o.c") (some 2) = [] ++ [plainPool "o.d"] := by cbv
  have hthird : r.page (some "o.d") (some 2) = [] := by cbv
  have hpaged := Paged.next hfirst (.next hsecond (.done hthird))
  obtain ⟨pages, hall, -, -, hstored⟩ :=
    @pages_visit_each_once r (some 2) hkeyed (by simp) (some "o.aa")
  obtain rfl := (hall _).1 hpaged
  refine ⟨r, hkeyed, hpaged, by cbv, fun p => ?_⟩
  simpa using hstored p

end MarketMaker.Registry

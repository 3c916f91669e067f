import MarketMaker.Proofs.Chain.Dependence
import MarketMaker.Proofs.Chain.Journey
import MarketMaker.Proofs.Chain.Once
import MarketMaker.Proofs.Conservation

/-! # Operations on different pools commute

Pools share the manager's balances, the fee collector and the supplies of their denoms. None of that
is what an operation depends on, so what two operations on different pools do does not depend on
which of them comes first. -/

namespace MarketMaker

/-- Shares have denoms of their own: no two pools issue the same, and no pool holds any. -/
structure Registry.SharesApart (r : Registry) : Prop where
  issues : ∀ id p id' p', r.get? id = some p → r.get? id' = some p' → id ≠ id' →
    p.lpDenom ≠ p'.lpDenom
  holds : ∀ id p id' p', r.get? id = some p → r.get? id' = some p' → p'.lpDenom ∉ p.denoms

namespace Registry.SharesApart

variable {r : Registry} {id id' : String} {p p' : Pool}

theorem avoids (h : r.SharesApart) (hp : r.get? id = some p) (hp' : r.get? id' = some p')
    (hne : id ≠ id') : p.Avoids p'.lpDenom :=
  ⟨h.issues id p id' p' hp hp' hne, h.holds id p id' p' hp hp'⟩

theorem notShare (h : r.SharesApart) (hp : r.get? id = some p) {denom : String}
    (hdenom : denom ∈ p.denoms) : r.NotShare denom := by
  intro id' p' hp' he
  exact h.holds id p id' p' hp hp' (he ▸ hdenom)

end Registry.SharesApart

theorem Registry.sharesApart_iff {r : Registry} : r.SharesApart ↔
    ∀ e ∈ r.entries, ∀ e' ∈ r.entries,
      (e.1 ≠ e'.1 → e.2.lpDenom ≠ e'.2.lpDenom) ∧ e'.2.lpDenom ∉ e.2.denoms := by
  constructor
  · intro h e he e' he'
    have hp := Table.get?_of_mem_entries he
    have hp' := Table.get?_of_mem_entries he'
    exact ⟨h.issues _ _ _ _ hp hp', h.holds _ _ _ _ hp hp'⟩
  · intro h
    refine ⟨fun id p id' p' hp hp' => ?_, fun id p id' p' hp hp' => ?_⟩
    · exact (h _ (Table.mem_entries_of_get? hp) _ (Table.mem_entries_of_get? hp')).1
    · exact (h _ (Table.mem_entries_of_get? hp) _ (Table.mem_entries_of_get? hp')).2

instance (r : Registry) : Decidable r.SharesApart := decidable_of_iff _ r.sharesApart_iff.symm

namespace Chain

open Ledger

variable {c c₁ c₂ c' m m' : Chain}

/-! ## After an operation on another pool -/

/-- Where no asset of a pool is short of the reserves, the manager holds what the pool records. -/
theorem steady_of_surplus {name : String} (hregular : c.Regular) (hauto : c.autoConfirm = true)
    (hsurplus : ∀ p, c.state.registry.get? name = some p → ∀ denom ∈ p.denoms,
      0 ≤ c.surplus denom) : c.Steady name where
  auto := hauto
  registry := hregular.registry
  covers :=
    { ledger := hregular.ledger
      held := by
        intro p hp denom hdenom
        have hle := Table.measureAt_le_sumBy (f := fun p : Pool => p.reserve denom)
          (fun id p hp => Pool.reserve_nonneg (hregular.registry id p hp).2 denom) name
        rw [Table.measureAt_of_get? hp] at hle
        exact Int.le_trans hle (Int.sub_nonneg.1 (hsurplus p hp denom hdenom)) }

theorem Steady.counted {name : String} (h : c.Steady name) : c.counted.Steady name :=
  ⟨h.auto, h.registry, h.covers⟩

/-- What was written of one pool leaves what an operation on another depends on as it was. -/
theorem CameTo.agreeAt {p : Pool} {gain : String → String → Int} {issue : String → Int}
    {name : String} (h : CameTo c c' p gain issue) (hname : p.identifier ≠ name)
    (hissue : ∀ other, c.state.registry.get? name = some other → issue other.lpDenom = 0) :
    c.state.AgreeAt name c'.state where
  config := h.config
  record := by rw [h.registry, Registry.save, Table.get?_put, if_neg hname]
  supply other hother := by
    rw [State.shareSupply, State.shareSupply, h.moved.supply, hissue other hother, Int.add_zero]

/-- An operation comes to the same on steady chains that agree on its pool. -/
theorem cameTo_of_execute {sender : String} {funds : List Coin} {op : Operation} {r r' : Response}
    (hc : c.Steady op.poolName) (hm : m.Steady op.poolName)
    (hagree : c.state.AgreeAt op.poolName m.state) (hlock : op.Unlocked)
    (hsender : sender ≠ managerAddress) (hfunds : ∀ x ∈ funds, x.Valid)
    (h : execute sender funds op c = .ok r c') (h' : execute sender funds op m = .ok r' m') :
    ∃ pool p gain issue, c.state.registry.get? op.poolName = some pool ∧
      p.identifier = pool.identifier ∧ (∀ share, pool.Avoids share → issue share = 0) ∧
        CameTo c c' p gain issue ∧ CameTo m m' p gain issue := by
  have hcalls : (m.nextCall sender funds).sender = (c.nextCall sender funds).sender ∧
      (m.nextCall sender funds).funds = (c.nextCall sender funds).funds := ⟨rfl, rfl⟩
  obtain ⟨pool, p, gain, issue, hstored, hid, hapart, hcame, hcame'⟩ :=
    cameTo_of_transact hc.counted hm.counted hagree hlock (nextCall_fromUser hsender hfunds)
      hcalls.1 hcalls.2 (execute_eq_ok.1 h) (execute_eq_ok.1 h')
  exact ⟨pool, p, gain, issue, hstored, hid, hapart, ⟨hcame.config, hcame.registry, hcame.moved⟩,
    ⟨hcame'.config, hcame'.registry, hcame'.moved⟩⟩

section Pools

variable (hreachable : c.Reachable) (hauto : c.autoConfirm = true)
  (hcollector : c.state.config.feeCollector ≠ managerAddress)
  (hheld : ∀ denom, c.state.registry.reserves denom ≤ c.state.held denom)
  (hshares : c.state.registry.SharesApart)
include hreachable hauto hheld

theorem steady_of_reachable (name : String) : c.Steady name :=
  steady_of_surplus hreachable.regular hauto fun _ _ denom _ => Int.sub_nonneg.2 (hheld denom)

include hcollector hshares

/-- An operation on one pool leaves another pool steady, and all that operations on it depend on. -/
theorem steady_after_other {sender : String} {funds : List Coin} {op : Operation} {r : Response}
    {name : String} (horderly : c.Orderly (.execute sender funds op)) (hlock : op.Unlocked)
    (hname : op.poolName ≠ name) (h : execute sender funds op c = .ok r c') :
    c'.Steady name ∧ c.state.AgreeAt name c'.state := by
  have hsteady := steady_of_reachable hreachable hauto hheld op.poolName
  have hafter : after (perform (.execute sender funds op)) c = c' := by
    rw [after_perform_execute, after_eq_of_ok h]
  obtain ⟨hsender, hfunds, hpays⟩ : sender ≠ managerAddress ∧ (∀ x ∈ funds, x.Valid) ∧
      op.PaysUser := by
    cases horderly with
    | execute sender_ne funds_valid pays => exact ⟨sender_ne, funds_valid, pays⟩
  obtain ⟨pool, p, gain, issue, hstored, hid, hapart, hcame, -⟩ :=
    cameTo_of_execute hsteady hsteady (.refl _ _) hlock hsender hfunds h h
  have hagree : c.state.AgreeAt name c'.state := by
    refine hcame.agreeAt ?_ fun other hother => hapart _ (hshares.avoids hstored hother hname)
    rw [hid, (hsteady.registry _ _ hstored).1]
    exact hname
  refine ⟨steady_of_surplus ?_ ?_ fun other hother denom hdenom => ?_, hagree⟩
  · rw [← hafter]
    exact (hreachable.step (.execute hfunds)).regular
  · rw [← hafter, (sameSettings_after _ c).autoConfirm, hauto]
  · have hshare := hshares.notShare (hagree.record ▸ hother) hdenom
    rw [← hafter, surplus_after_execute (hreachable.sound hauto hcollector) hauto horderly hshare]
    exact Int.sub_nonneg.2 (hheld denom)

end Pools

/-! ## Both orders -/

/-- The same pools, supplies and balances. -/
structure SameHoldings (c c' : Chain) : Prop where
  registry : c.state.registry = c'.state.registry
  supply : ∀ denom, c.state.ledger.supply denom = c'.state.ledger.supply denom
  balance : ∀ address denom,
    c.state.ledger.balance address denom = c'.state.ledger.balance address denom

/-- Transactions that come to the same in both orders leave the same. -/
theorem sameHoldings_of_cameTo {pool p p' : Pool} {gain gain' : String → String → Int}
    {issue issue' : String → Int} (hstored : c.state.registry.get? pool.identifier = some pool)
    (hid : p.identifier = pool.identifier) (hne : p.identifier ≠ p'.identifier)
    (h₁ : CameTo c c₁ p gain issue) (h₁₂ : CameTo c₁ c' p' gain' issue')
    (h₂ : CameTo c c₂ p' gain' issue') (h₂₁ : CameTo c₂ m' p gain issue) : c'.SameHoldings m' where
  registry := by
    have hkey : p.identifier ∈ c.state.registry.keys := by
      rw [hid, ← Table.contains_iff_mem_keys, Table.contains, hstored]
      rfl
    rw [h₁₂.registry, h₁.registry, h₂₁.registry, h₂.registry]
    exact Table.put_comm hne hkey p p'
  supply d := by
    rw [h₁₂.moved.supply, h₁.moved.supply, h₂₁.moved.supply, h₂.moved.supply, Int.add_right_comm]
  balance a d := by
    rw [h₁₂.moved.balance, h₁.moved.balance, h₂₁.moved.balance, h₂.moved.balance,
      Int.add_right_comm]

/-- On a chain that confirms at once and holds what its pools record, and whose shares have denoms
of their own, two operations of users on different pools that lock nothing and succeed in both
orders leave the same pools, supplies and balances in both. -/
theorem execute_comm {sender sender' : String} {funds funds' : List Coin} {op op' : Operation}
    {r₁ r₁₂ r₂ r₂₁ : Response} {c₁₂ c₂₁ : Chain} (hreachable : c.Reachable)
    (hauto : c.autoConfirm = true) (hcollector : c.state.config.feeCollector ≠ managerAddress)
    (hheld : ∀ denom, c.state.registry.reserves denom ≤ c.state.held denom)
    (hshares : c.state.registry.SharesApart) (horderly : c.Orderly (.execute sender funds op))
    (horderly' : c.Orderly (.execute sender' funds' op')) (hlock : op.Unlocked)
    (hlock' : op'.Unlocked) (hname : op.poolName ≠ op'.poolName)
    (h₁ : execute sender funds op c = .ok r₁ c₁)
    (h₁₂ : execute sender' funds' op' c₁ = .ok r₁₂ c₁₂)
    (h₂ : execute sender' funds' op' c = .ok r₂ c₂)
    (h₂₁ : execute sender funds op c₂ = .ok r₂₁ c₂₁) : c₁₂.SameHoldings c₂₁ := by
  obtain ⟨hsteady₁, hagree₁⟩ := steady_after_other hreachable hauto hcollector hheld hshares
    horderly hlock hname h₁
  obtain ⟨hsteady₂, hagree₂⟩ := steady_after_other hreachable hauto hcollector hheld hshares
    horderly' hlock' hname.symm h₂
  have hsteady := steady_of_reachable hreachable hauto hheld
  cases horderly with
  | execute sender_ne funds_valid pays =>
      cases horderly' with
      | execute sender_ne' funds_valid' pays' =>
          obtain ⟨pool, p, gain, issue, hstored, hid, -, hcame₁, hcame₂₁⟩ :=
            cameTo_of_execute (hsteady _) hsteady₂ hagree₂ hlock sender_ne funds_valid h₁ h₂₁
          obtain ⟨pool', p', gain', issue', hstored', hid', -, hcame₂, hcame₁₂⟩ :=
            cameTo_of_execute (hsteady _) hsteady₁ hagree₁ hlock' sender_ne' funds_valid' h₂ h₁₂
          have hpool := (hreachable.regular.registry _ _ hstored).1
          have hpool' := (hreachable.regular.registry _ _ hstored').1
          refine sameHoldings_of_cameTo (hpool ▸ hstored) hid ?_ hcame₁ hcame₁₂ hcame₂ hcame₂₁
          rw [hid, hpool, hid', hpool']
          exact hname

/-- The chain with two neighbouring pools, and somebody who can trade in the second. -/
def crossingChain : Chain :=
  after (perform (.fund "bob" [⟨"uusd", 20000⟩])) Route.neighbourChain

def crossingDeposit : Operation :=
  .deposit { pool := "uom.uusd", maxSpread := some ⟨500000000000000000⟩ }

def crossingSwap : Operation :=
  .swap { pool := "uusd.uatom", askDenom := "uatom", maxSpread := some ⟨500000000000000000⟩ }

/-- Every denom of the two pools is with the manager exactly as it is recorded. -/
theorem surplus_crossingChain (denom : String) : crossingChain.surplus denom = 0 := by
  rw [crossingChain, surplus_after_fund (by decide), Route.neighbourChain, Route.neighbours]
  simp only [List.map_cons, List.map_nil, run_cons, run_nil]
  rw [surplus_after_addPool (by decide) ⟨_, rfl⟩ rfl,
    surplus_after_addPool (by decide) ⟨_, rfl⟩ rfl, surplus_after_fund (by decide)]
  rfl

theorem execute_comm_crossing : ∃ r₁ r₁₂ r₂ r₂₁ c₁ c₁₂ c₂ c₂₁,
    execute "alice" [⟨"uom", 50001⟩] crossingDeposit crossingChain = .ok r₁ c₁ ∧
      execute "bob" [⟨"uusd", 20000⟩] crossingSwap c₁ = .ok r₁₂ c₁₂ ∧
        execute "bob" [⟨"uusd", 20000⟩] crossingSwap crossingChain = .ok r₂ c₂ ∧
          execute "alice" [⟨"uom", 50001⟩] crossingDeposit c₂ = .ok r₂₁ c₂₁ ∧
            c₁₂.SameHoldings c₂₁ := by
  let deposit := execute "alice" [⟨"uom", 50001⟩] crossingDeposit
  let swap := execute "bob" [⟨"uusd", 20000⟩] crossingSwap
  have hreachable : crossingChain.Reachable :=
    Route.reachable_neighbourChain.step (.fund (by decide))
  have hheld : ∀ denom, crossingChain.state.registry.reserves denom ≤
      crossingChain.state.held denom := fun denom =>
    Int.sub_nonneg.1 (Int.le_of_eq (surplus_crossingChain denom).symm)
  have hshares : crossingChain.state.registry.SharesApart := by decide +kernel
  have h₁ : deposit.succeeds crossingChain = true := by decide +kernel
  have h₁₂ : swap.succeeds (after deposit crossingChain) = true := by decide +kernel
  have h₂ : swap.succeeds crossingChain = true := by decide +kernel
  have h₂₁ : deposit.succeeds (after swap crossingChain) = true := by decide +kernel
  obtain ⟨r₁, h₁⟩ := exists_ok_after h₁
  obtain ⟨r₁₂, h₁₂⟩ := exists_ok_after h₁₂
  obtain ⟨r₂, h₂⟩ := exists_ok_after h₂
  obtain ⟨r₂₁, h₂₁⟩ := exists_ok_after h₂₁
  exact ⟨r₁, r₁₂, r₂, r₂₁, _, _, _, _, h₁, h₁₂, h₂, h₂₁,
    execute_comm hreachable rfl (by decide) hheld hshares
      (.execute (by decide) (by decide) (by decide)) (.execute (by decide) (by decide) (by decide))
      (by decide) (by decide) (by decide) h₁ h₁₂ h₂ h₂₁⟩

end Chain

end MarketMaker

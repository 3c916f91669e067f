import MarketMaker.Proofs.Chain.Reachable
import MarketMaker.Proofs.Solvency

/-! # What stands behind locked positions

Shares that are locked go to the farm manager, and a position records them. A position that is added
to records all that it holds in the denom of what came last. So the farm manager holds of every
denom what the positions record of it, as long as none of them changes its denom, and no longer. -/

namespace MarketMaker

/-! ## Positions and balances of a ledger -/

namespace Ledger

/-- How much of a denom a position records. -/
def recorded (denom : String) (p : Position) : Int :=
  if p.asset.denom = denom then p.asset.amount else 0

/-- How much of a denom all positions record. -/
def lockedTotal (l : Ledger) (denom : String) : Int := l.positions.sumBy (recorded denom)

/-- An address holds of every denom what the positions record of it. -/
def Backs (l : Ledger) (address : String) : Prop :=
  ∀ denom, l.lockedTotal denom = l.balance address denom

/-- No position has another denom than before. -/
def KeepsDenoms (l l' : Ledger) : Prop :=
  ∀ id p p', l.position? id = some p → l'.position? id = some p' → p'.asset.denom = p.asset.denom

/-- Every position records something. -/
def RecordsSome (l : Ledger) : Prop := ∀ id p, l.position? id = some p → 0 < p.asset.amount

/-- Neither the positions nor what an address holds differ. -/
structure Kept (address : String) (l l' : Ledger) : Prop where
  positions : l'.positions = l.positions
  balance : ∀ denom, l'.balance address denom = l.balance address denom

structure Added (address : String) (asset : Coin) (p : Position) (l l' : Ledger) : Prop where
  asset_pos : 0 < asset.amount
  sum_eq : lockedAsset (l.position? p.identifier) asset = .ok p.asset
  positions : l'.positions = l.positions.put p.identifier p
  balance : ∀ denom, l'.balance address denom = l.balance address denom + Coin.total denom [asset]

/-- Nothing was locked, or once. -/
inductive Stored (address : String) (l l' : Ledger) : Prop
  | kept (kept : Kept address l l')
  | added {asset : Coin} {p : Position} (added : Added address asset p l l')

variable {address : String} {asset : Coin} {p : Position} {l l₁ l' : Ledger}

theorem Kept.trans (h : Kept address l l₁) (h' : Kept address l₁ l') : Kept address l l' where
  positions := h'.positions.trans h.positions
  balance denom := (h'.balance denom).trans (h.balance denom)

theorem Kept.added (h : Kept address l l₁) (h' : Added address asset p l₁ l') :
    Added address asset p l l' where
  asset_pos := h'.asset_pos
  sum_eq := by
    rw [position?, ← h.positions]
    exact h'.sum_eq
  positions := by
    rw [← h.positions]
    exact h'.positions
  balance denom := by
    rw [h'.balance, h.balance]

theorem Kept.stored (h : Kept address l l₁) (h' : Stored address l₁ l') : Stored address l l' := by
  cases h' with
  | kept kept => exact .kept (h.trans kept)
  | added added => exact .added (h.added added)

theorem Kept.backs (h : Kept address l l') (hb : l.Backs address) : l'.Backs address := by
  intro denom
  rw [lockedTotal, h.positions, h.balance]
  exact hb denom

theorem Kept.keepsDenoms (h : Kept address l l') : l.KeepsDenoms l' := by
  intro id p p' hp hp'
  rw [position?, h.positions, ← position?, hp] at hp'
  cases hp'
  rfl

namespace Added

/-- Whether denoms are kept depends on the position alone that was added to. -/
theorem keepsDenoms_iff (h : Added address asset p l l') : l.KeepsDenoms l' ↔
    ∀ old, l.position? p.identifier = some old → asset.denom = old.asset.denom := by
  have hdenom := denom_of_lockedAsset h.sum_eq
  have hafter (id : String) :
      l'.position? id = if p.identifier = id then some p else l.position? id := by
    rw [position?, h.positions, Table.get?_put, ← position?]
  constructor
  · intro hkeeps old hold
    have hnew := hafter p.identifier
    rw [if_pos rfl] at hnew
    rw [← hdenom]
    exact hkeeps _ _ _ hold hnew
  · intro hsame id q q' hq hq'
    rw [hafter] at hq'
    by_cases hid : p.identifier = id
    · subst hid
      rw [if_pos rfl] at hq'
      cases hq'
      rw [hdenom]
      exact hsame q hq
    · rw [if_neg hid, hq] at hq'
      cases hq'
      rfl

/-- What a position held in another denom is recorded in the new one, but is not held in it. -/
theorem backs_iff (h : Added address asset p l l') (hb : l.Backs address) (hsome : l.RecordsSome) :
    l'.Backs address ↔
      ∀ old, l.position? p.identifier = some old → asset.denom = old.asset.denom := by
  have hdenom := denom_of_lockedAsset h.sum_eq
  have hamount := amount_of_lockedAsset h.sum_eq
  have hbacks : l'.Backs address ↔ ∀ denom, recorded denom p -
      ((l.position? p.identifier).map (recorded denom)).getD 0 = Coin.total denom [asset] := by
    apply forall_congr'
    intro denom
    have htotal : l'.lockedTotal denom = l.lockedTotal denom + recorded denom p -
        ((l.position? p.identifier).map (recorded denom)).getD 0 := by
      rw [lockedTotal, h.positions, Table.sumBy_put]
      rfl
    rw [htotal, hb denom, h.balance]
    omega
  rw [hbacks]
  cases hold : l.position? p.identifier with
  | none =>
      rw [hold] at hamount
      constructor
      · intro _ old hnone
        cases hnone
      · intro _ denom
        simp only [recorded, hdenom, hamount, Coin.total_singleton, Option.map_none,
          Option.getD_none]
        split <;> omega
  | some old =>
      have hpos := hsome _ _ hold
      rw [hold] at hamount
      simp only [Option.map_some, Option.getD_some] at hamount ⊢
      constructor
      · intro hequal other hother
        cases hother
        have hat := hequal old.asset.denom
        simp only [recorded, hdenom, hamount, Coin.total_singleton, ite_true] at hat
        by_contra hne
        rw [if_neg hne, if_neg hne] at hat
        omega
      · intro hsame denom
        have hdenoms := hsame old rfl
        simp only [recorded, hdenom, hamount, Coin.total_singleton, ← hdenoms]
        split <;> omega

theorem recordsSome (h : Added address asset p l l') (hsome : l.RecordsSome) :
    l'.RecordsSome := by
  have hpos := h.asset_pos
  have hamount := amount_of_lockedAsset h.sum_eq
  intro id q hq
  rw [position?, h.positions, Table.get?_put, ← position?] at hq
  split at hq
  · cases hq
    cases hold : l.position? p.identifier with
    | none =>
        simp only [hold, Option.map_none, Option.getD_none] at hamount
        omega
    | some old =>
        have hold_pos := hsome _ _ hold
        simp only [hold, Option.map_some, Option.getD_some] at hamount
        omega
  · exact hsome id q hq

end Added

namespace Stored

/-- Where an address backs the positions, it goes on to do so exactly if denoms are kept. -/
theorem backs_iff_keepsDenoms (h : Stored address l l') (hb : l.Backs address)
    (hsome : l.RecordsSome) : l'.Backs address ↔ l.KeepsDenoms l' := by
  cases h with
  | kept kept => exact ⟨fun _ => kept.keepsDenoms, fun _ => kept.backs hb⟩
  | added added => rw [added.backs_iff hb hsome, added.keepsDenoms_iff]

theorem recordsSome (h : Stored address l l') (hsome : l.RecordsSome) : l'.RecordsSome := by
  cases h with
  | kept kept =>
      intro id p hp
      rw [position?, kept.positions] at hp
      exact hsome id p hp
  | added added => exact added.recordsSome hsome

end Stored

theorem kept_of_transfer {source target : String} {coins : List Coin} {u : Unit}
    (h : transfer source target coins l = .ok u l') (hsource : source ≠ address)
    (htarget : target ≠ address) : Kept address l l' where
  positions := positions_of_transfer h
  balance denom := by
    rw [(moved_of_transfer h).balance, gainOf_of_ne hsource, gainOf_of_ne htarget]
    exact Int.add_zero _

end Ledger

/-! ## Operations -/

/-- An operation that does not name an address as its receiver. -/
def Operation.PaysOthers (address : String) : Operation → Prop
  | .deposit order => order.receiver ≠ some address
  | .swap order => order.receiver ≠ some address
  | .withdraw _ => True

instance (address : String) (op : Operation) : Decidable (op.PaysOthers address) :=
  match op with
  | .deposit order => inferInstanceAs (Decidable (order.receiver ≠ some address))
  | .swap order => inferInstanceAs (Decidable (order.receiver ≠ some address))
  | .withdraw _ => inferInstanceAs (Decidable True)

/-- The farm manager is neither the manager of the pools nor the collector of the fees. -/
structure Config.SetsFarmApart (config : Config) : Prop where
  manager_ne : managerAddress ≠ config.farmManager
  collector_ne : config.feeCollector ≠ config.farmManager

namespace Chain

open Ledger

variable {address : String} {c c₁ c' : Chain}

theorem Carried.kept {effects : List Effect} (h : Carried effects c c')
    (hlocks : Effect.locks effects = []) (hgains : ∀ d, Effect.gains effects address d = 0) :
    Kept address c.state.ledger c'.state.ledger where
  positions := (h.samePositions hlocks).positions
  balance denom := by
    rw [h.moved.balance, hgains, Int.add_zero]

theorem kept_of_fills {order : SwapOrder} {s : State} {call : Call} {offer : Coin} {pool : Pool}
    {sides : AssetPair} {q : SwapQuote} {o : Outcome}
    (h : order.Fills s call offer pool sides q o) (hcarried : Carried o.settlement.effects c c')
    (hmanager : managerAddress ≠ address) (hcollector : s.config.feeCollector ≠ address)
    (hreceiver : call.receiver order.receiver ≠ address) :
    Kept address c.state.ledger c'.state.ledger := by
  apply hcarried.kept h.locks_eq
  intro d
  rw [h.effects_eq, SwapOrder.gains_effects _ _ _ h.sound, single_of_ne hreceiver,
    single_of_ne hcollector, single_of_ne hmanager]
  rfl

theorem kept_of_paid {identifier : String} {s : State} {call : Call} {pool : Pool} {amount : Int}
    {o : Outcome} (h : Withdrawal.Paid identifier s call pool amount o)
    (hcarried : Carried o.settlement.effects c c') (hmanager : managerAddress ≠ address)
    (hsender : call.sender ≠ address) : Kept address c.state.ledger c'.state.ledger := by
  apply hcarried.kept h.locks_eq
  intro d
  rw [h.gains_eq, gainOf_of_ne hsender, gainOf_of_ne hmanager, single_of_ne hmanager]
  rfl

/-- A deposit locks its shares with the farm manager, or gives them to its receiver. -/
theorem stored_of_accepted {d : Deposit} {s : State} {pool : Pool} {deposits balances : List Int}
    {share : Int} {issued : List Effect} {o : Outcome}
    (h : d.Accepted s pool deposits balances share issued o)
    (hcarried : Carried o.settlement.effects c c') (hfarm : s.config.farmManager = address)
    (hmanager : managerAddress ≠ address) (hreceiver : d.receiver ≠ address) :
    Stored address c.state.ledger c'.state.ledger := by
  have hgains (denom : String) : Effect.gains o.settlement.effects address denom =
      single (d.holder s.config) ⟨pool.lpDenom, share⟩ address denom := by
    rw [h.gains_eq, single_of_ne hmanager, ite_self, Int.zero_add]
  have hlocks := h.locks_eq
  cases hduration : d.unlockingDuration with
  | none =>
      have hholder : d.holder s.config ≠ address := by
        simpa [Deposit.holder, hduration] using hreceiver
      rw [Deposit.lock?, hduration] at hlocks
      apply Stored.kept
      apply hcarried.kept hlocks
      intro denom
      rw [hgains, single_of_ne hholder]
  | some duration =>
      have hholder : d.holder s.config = address := by
        simpa [Deposit.holder, hduration] using hfarm
      have hshelved := hcarried.shelved
      rw [hlocks, Deposit.lock?, hduration] at hshelved
      obtain ⟨sum, hlocked⟩ := Shelved.single hshelved
      have hbalance (denom : String) : c'.state.ledger.balance address denom =
          c.state.ledger.balance address denom + Coin.total denom [⟨pool.lpDenom, share⟩] := by
        rw [hcarried.moved.balance, hgains, hholder, single_self]
      have hadded : Added address ⟨pool.lpDenom, share⟩
          ⟨c.lockName d.lockIdentifier, d.receiver, sum, duration⟩ c.state.ledger
            c'.state.ledger := ⟨h.share_pos, hlocked.sum_eq, hlocked.positions, hbalance⟩
      exact .added hadded

theorem stored_of_finished {h : HalfSwap} {p : Provision} (hf : Finished h p c c')
    (hconfig : c.state.config.SetsFarmApart) (hsender : p.sender ≠ c.state.config.farmManager)
    (hreceiver : p.receiver ≠ c.state.config.farmManager) :
    Stored c.state.config.farmManager c.state.ledger c'.state.ledger := by
  have hmanager := hconfig.manager_ne
  cases hf with
  | completed went fills traded config_eq stored accepted carried =>
      have htrader : (halfSwapCall h).receiver (halfSwapOrder h).receiver ≠
          c.state.config.farmManager := by
        rw [receiver_halfSwap]
        exact hmanager
      have htraded := kept_of_fills fills traded hmanager hconfig.collector_ne htrader
      have hfarm := congrArg Config.farmManager config_eq
      exact htraded.stored (stored_of_accepted accepted carried hfarm hmanager hreceiver)
  | refunded failed carried registry_eq =>
      apply Stored.kept
      apply carried.kept (p.locks_refund h.provision)
      intro d
      rw [p.gains_refund, gainOf_of_ne hsender, gainOf_of_ne hmanager]
      rfl

theorem stored_of_delivered {call : Call} {op : Operation} (h : Delivered call c c' op)
    (hconfig : c.state.config.SetsFarmApart) (hsender : call.sender ≠ c.state.config.farmManager)
    (hpays : op.PaysOthers c.state.config.farmManager) :
    Stored c.state.config.farmManager c.state.ledger c'.state.ledger := by
  have hmanager := hconfig.manager_ne
  cases h with
  | settled paid settles carried books =>
      have hfunds := kept_of_transfer paid hsender hmanager
      cases settles with
      | deposited stored brings run =>
          obtain ⟨_, _, _, _, haccepted⟩ := Deposit.accepted_of_run run
          have hreceiver := Call.receiver_ne hsender hpays
          exact hfunds.stored (stored_of_accepted haccepted carried rfl hmanager hreceiver)
      | withdrawn paid' => exact .kept (hfunds.trans (kept_of_paid paid' carried hmanager hsender))
      | swapped fills =>
          have hreceiver := Call.receiver_ne hsender hpays
          have hfilled := kept_of_fills fills carried hmanager hconfig.collector_ne hreceiver
          exact .kept (hfunds.trans hfilled)
  | queued paid begins manual eq =>
      rw [eq]
      exact .kept (kept_of_transfer paid hsender hmanager)
  | finished paid begins auto finished dropped =>
      have hfunds := kept_of_transfer paid hsender hmanager
      refine hfunds.stored (stored_of_finished finished hconfig ?_ ?_)
      · rw [begins.started.provision_eq]
        exact hsender
      · rw [begins.started.provision_eq]
        exact Call.receiver_ne hsender hpays

/-! ## One event -/

/-- An event that names an address neither as sender nor as receiver. -/
def Event.Avoids (address : String) : Event → Prop
  | .execute sender _ op => sender ≠ address ∧ op.PaysOthers address
  | .fund receiver _ => receiver ≠ address
  | .runDeferred _ | .addPool _ => True

instance (address : String) (e : Event) : Decidable (e.Avoids address) :=
  match e with
  | .execute sender _ op => inferInstanceAs (Decidable (sender ≠ address ∧ op.PaysOthers address))
  | .fund receiver _ => inferInstanceAs (Decidable (receiver ≠ address))
  | .runDeferred _ | .addPool _ => inferInstanceAs (Decidable True)

/-- A chain on which the farm manager has to do with locked shares only. -/
structure KeepsFarmApart (c : Chain) : Prop where
  config : c.state.config.SetsFarmApart
  provisions : c.state.provisions.Each fun p =>
    p.sender ≠ c.state.config.farmManager ∧ p.receiver ≠ c.state.config.farmManager
  recorded : c.state.ledger.RecordsSome

theorem keepsFarmApart_empty {config : Config} (h : config.SetsFarmApart) (autoConfirm : Bool) :
    (empty config autoConfirm).KeepsFarmApart where
  config := h
  provisions _ _ hp := nomatch hp
  recorded _ _ hp := nomatch hp

/-- An event locks shares with the farm manager at most once, and moves nothing else there. -/
theorem stored_after (hf : c.KeepsFarmApart) {e : Event}
    (he : e.Avoids c.state.config.farmManager) :
    Stored c.state.config.farmManager c.state.ledger (after (perform e) c).state.ledger := by
  cases e with
  | execute sender funds op =>
      obtain ⟨hsender, hpays⟩ := he
      rw [after_perform_execute]
      rcases delivered_after_execute sender funds op c with h | ⟨c', -, heq⟩
      · exact stored_of_delivered (c := c.counted) h hf.config hsender hpays
      · rw [heq]
        exact .kept ⟨rfl, fun _ => rfl⟩
  | runDeferred h =>
      rw [after_perform_runDeferred]
      rcases finished_after_runDeferred h c with ⟨p, hp, hfinished⟩ | ⟨c', -, heq⟩
      · obtain ⟨hsender, hreceiver⟩ := hf.provisions _ p hp
        exact stored_of_finished hfinished hf.config hsender hreceiver
      · rw [heq]
        exact .kept ⟨rfl, fun _ => rfl⟩
  | fund receiver coins =>
      rw [perform, fund, ledger_after_withLedger]
      exact .kept ⟨positions_left_mintAll receiver coins _,
        fun denom => balance_left_mintAll (.inl he) _⟩
  | addPool pool =>
      rw [after_perform_addPool, ledger_after_withLedger]
      exact .kept ⟨positions_left_seed managerAddress pool _,
        fun denom => balance_left_seed (.inl hf.config.manager_ne) _⟩

theorem keepsFarmApart_after (hf : c.KeepsFarmApart) {e : Event}
    (he : e.Avoids c.state.config.farmManager) : (after (perform e) c).KeepsFarmApart where
  config := by
    rw [(sameSettings_after _ _).config]
    exact hf.config
  provisions := by
    rw [(sameSettings_after _ _).config]
    apply each_provision_after hf.provisions e
    rintro sender funds order l pool coin sides q st rfl begins
    obtain ⟨hsender, hpays⟩ := he
    rw [begins.started.provision_eq]
    exact ⟨hsender, Call.receiver_ne hsender hpays⟩
  recorded := (stored_after hf he).recordsSome hf.recorded

/-! ## Runs -/

/-- The farm manager holds of every denom what the positions record of it. -/
def FarmBacks (c : Chain) : Prop := c.state.ledger.Backs c.state.config.farmManager

/-- The positions are backed before, between and after the events. -/
def BackedThroughout (c : Chain) : List Event → Prop
  | [] => c.FarmBacks
  | e :: rest => c.FarmBacks ∧ (after (perform e) c).BackedThroughout rest

/-- No event changes the denom of a position. -/
def DenomsKeptThroughout (c : Chain) : List Event → Prop
  | [] => True
  | e :: rest =>
    c.state.ledger.KeepsDenoms (after (perform e) c).state.ledger ∧
      (after (perform e) c).DenomsKeptThroughout rest

theorem BackedThroughout.head {events : List Event} (h : c.BackedThroughout events) :
    c.FarmBacks := by
  cases events with
  | nil => exact h
  | cons e rest => exact h.1

theorem BackedThroughout.last {events : List Event} (h : c.BackedThroughout events) :
    (run events c).FarmBacks := by
  induction events generalizing c with
  | nil => exact h
  | cons e rest ih => exact ih h.2

theorem farmBacks_after_iff (hf : c.KeepsFarmApart) {e : Event}
    (he : e.Avoids c.state.config.farmManager) (hb : c.FarmBacks) :
    (after (perform e) c).FarmBacks ↔
      c.state.ledger.KeepsDenoms (after (perform e) c).state.ledger := by
  rw [FarmBacks, (sameSettings_after _ _).config]
  exact (stored_after hf he).backs_iff_keepsDenoms hb hf.recorded

theorem backedThroughout_iff_of_keepsFarmApart {events : List Event} (hf : c.KeepsFarmApart)
    (he : ∀ e ∈ events, e.Avoids c.state.config.farmManager) (hb : c.FarmBacks) :
    c.BackedThroughout events ↔ c.DenomsKeptThroughout events := by
  induction events generalizing c with
  | nil => exact ⟨fun _ => trivial, fun _ => hb⟩
  | cons e rest ih =>
      rw [List.forall_mem_cons] at he
      have hstep := farmBacks_after_iff hf he.1 hb
      have hrest := ih (keepsFarmApart_after hf he.1)
        (by rw [(sameSettings_after _ _).config]; exact he.2)
      constructor
      · intro h
        have hnext := h.2.head
        exact ⟨hstep.1 hnext, (hrest hnext).1 h.2⟩
      · intro h
        have hnext := hstep.2 h.1
        exact ⟨hb, (hrest hnext).2 h.2⟩

/-- Where only locked shares go to the farm manager, it holds in every state of a run, of every
denom, what the positions record of it, exactly if no event of the run changes the denom of a
position. -/
theorem backedThroughout_iff_denomsKeptThroughout {config : Config} {autoConfirm : Bool}
    (hconfig : config.SetsFarmApart) {events : List Event}
    (he : ∀ e ∈ events, e.Avoids config.farmManager) :
    (empty config autoConfirm).BackedThroughout events ↔
      (empty config autoConfirm).DenomsKeptThroughout events :=
  backedThroughout_iff_of_keepsFarmApart (keepsFarmApart_empty hconfig autoConfirm) he fun _ => rfl

/-! ### A position of two pools

A user adds shares of one pool to a position that holds shares of another. -/

def mixedRun : List Event :=
  [ .addPool firstPool, .addPool secondPool, .fund "alice" [⟨"uom", 10000⟩, ⟨"uusd", 8200⟩],
    .execute "alice" [⟨"uom", 5000⟩, ⟨"uusd", 5000⟩]
      (.deposit
        { pool := "o.first", unlockingDuration := some 86400, lockIdentifier := some "p1" }),
    .execute "alice" [⟨"uom", 5000⟩, ⟨"uusd", 3200⟩]
      (.deposit
        { pool := "o.second", unlockingDuration := some 86400, lockIdentifier := some "p1" }) ]

theorem not_denomsKeptThroughout_mixedRun :
    ¬(empty {} true).DenomsKeptThroughout mixedRun := by
  have hconfig : Config.SetsFarmApart {} := ⟨by decide, by decide⟩
  intro hkept
  have hbacked := (backedThroughout_iff_denomsKeptThroughout hconfig (by decide)).2 hkept
  have hfirst := hbacked.last "factory/first"
  revert hfirst
  decide +kernel

/-- The position counts 7000 shares of the second pool, of which the farm manager holds 3000, and
none of the first, of which it holds 4000. -/
theorem unbacked_mixedRun :
    let c := run mixedRun (empty {} true)
    c.state.ledger.position? "p1" = some ⟨"p1", "alice", ⟨"factory/second", 7000⟩, 86400⟩ ∧
      c.state.ledger.lockedTotal "factory/second" = 7000 ∧
        c.state.ledger.balance c.state.config.farmManager "factory/second" = 3000 ∧
          c.state.ledger.lockedTotal "factory/first" = 0 ∧
            c.state.ledger.balance c.state.config.farmManager "factory/first" = 4000 := by
  decide +kernel

end Chain

end MarketMaker

import MarketMaker.Proofs.Operation.Basic
import MarketMaker.Proofs.Supply

/-! # What is locked in positions

Of all that the manager asks for, locks alone touch positions. So what effects do to the positions
of a chain is read off the locks among them, one after the other. -/

namespace MarketMaker

/-- Shares that are to be locked on behalf of a receiver. -/
structure LockRequest where
  receiver : String
  asset : Coin
  /-- The position that is asked for; without one the chain names a position. -/
  identifier : Option String
  duration : Int
  deriving DecidableEq, Repr

/-! ## Locks of a ledger -/

namespace Ledger

variable {l l' : Ledger} {u : Unit}

theorem lock_eq_ok {identifier receiver : String} {asset : Coin} {duration : Int} {p : Position} :
    lock identifier receiver asset duration l = .ok p l' ↔
      ∃ sum, lockedAsset (l.position? identifier) asset = .ok sum ∧
        p = ⟨identifier, receiver, sum, duration⟩ ∧
          l' = { l with positions := l.positions.put identifier p } := by
  simp only [lock, Action.bind_eq_ok, Action.get_eq_ok, Action.lift_eq_ok, Action.set_eq_ok,
    Action.pure_eq_ok]
  constructor
  · rintro ⟨_, _, ⟨rfl, rfl⟩, sum, _, ⟨hsum, rfl⟩, _, _, rfl, rfl, rfl⟩
    exact ⟨sum, hsum, rfl, rfl⟩
  · rintro ⟨sum, hsum, rfl, rfl⟩
    exact ⟨l, l, ⟨rfl, rfl⟩, sum, l, ⟨hsum, rfl⟩, ⟨⟩, _, rfl, rfl, rfl⟩

/-- What is locked has the denom of what was added last. -/
theorem denom_of_lockedAsset {existing : Option Position} {asset sum : Coin}
    (h : lockedAsset existing asset = .ok sum) : sum.denom = asset.denom := by
  cases existing with
  | none =>
      cases h
      rfl
  | some p =>
      obtain ⟨_, -, rfl⟩ := Result.map_eq_ok.1 h
      rfl

/-- What is locked is what was there and what is added, whatever their denoms. -/
theorem amount_of_lockedAsset {existing : Option Position} {asset sum : Coin}
    (h : lockedAsset existing asset = .ok sum) :
    sum.amount = (existing.map fun p => p.asset.amount).getD 0 + asset.amount := by
  cases existing with
  | none =>
      cases h
      exact (Int.zero_add _).symm
  | some p =>
      obtain ⟨_, hadd, rfl⟩ := Result.map_eq_ok.1 h
      exact (Checked.add_eq_ok_iff.1 hadd).2

theorem positions_of_mint {address denom : String} {amount : Int}
    (h : mint address denom amount l = .ok u l') : l'.positions = l.positions := by
  obtain ⟨-, -, rfl⟩ := mint_eq_ok.1 h
  rfl

theorem positions_of_burn {address denom : String} {amount : Int}
    (h : burn address denom amount l = .ok u l') : l'.positions = l.positions := by
  obtain ⟨-, -, rfl⟩ := burn_eq_ok.1 h
  rfl

end Ledger

/-! ## Locks among effects -/

namespace Effect

/-- The lock that an effect asks for. -/
def lock? : Effect → Option LockRequest
  | lock _ _ receiver asset identifier duration => some ⟨receiver, asset, identifier, duration⟩
  | send .. | burn .. | mintShare .. | burnShare .. => none

/-- The locks among effects. -/
def locks (effects : List Effect) : List LockRequest := effects.filterMap lock?

theorem locks_cons (e : Effect) (rest : List Effect) :
    locks (e :: rest) = e.lock?.toList ++ locks rest := by
  rw [locks, List.filterMap_cons]
  cases e.lock? <;> rfl

theorem locks_append (effects more : List Effect) :
    locks (effects ++ more) = locks effects ++ locks more := List.filterMap_append

end Effect

namespace Chain

variable {c c₁ c' : Chain}

/-- Neither the positions nor the count of those that the chain has named differ. -/
structure SamePositions (c c' : Chain) : Prop where
  count : c'.positions = c.positions
  positions : c'.state.ledger.positions = c.state.ledger.positions

theorem SamePositions.trans (h : c.SamePositions c₁) (h' : c₁.SamePositions c') :
    c.SamePositions c' := ⟨h'.count.trans h.count, h'.positions.trans h.positions⟩

/-- The position that a lock goes to: the given one, or the next that the chain names. -/
def lockName (c : Chain) : Option String → String
  | some name => name
  | none => "position-" ++ toString (c.positions + 1)

/-- A lock that was carried out, with all that its position holds now. -/
structure Locked (k : LockRequest) (sum : Coin) (c c' : Chain) : Prop where
  sum_eq : Ledger.lockedAsset (c.state.ledger.position? (c.lockName k.identifier)) k.asset = .ok sum
  count : c'.positions = c.positions + if k.identifier = none then 1 else 0
  positions : c'.state.ledger.positions = c.state.ledger.positions.put (c.lockName k.identifier)
    ⟨c.lockName k.identifier, k.receiver, sum, k.duration⟩

/-- Locks that were carried out one after the other. -/
def Shelved : List LockRequest → Chain → Chain → Prop
  | [], c, c' => c.SamePositions c'
  | k :: rest, c, c' => ∃ c₁ sum, Locked k sum c c₁ ∧ Shelved rest c₁ c'

theorem SamePositions.shelved {ks : List LockRequest} (h : c.SamePositions c₁)
    (h' : Shelved ks c₁ c') : Shelved ks c c' := by
  cases ks with
  | nil => exact h.trans h'
  | cons k rest =>
      obtain ⟨c₂, sum, hlocked, hrest⟩ := h'
      have hname : c₁.lockName k.identifier = c.lockName k.identifier := by
        cases k.identifier with
        | some name => rfl
        | none => rw [lockName, lockName, h.count]
      refine ⟨c₂, sum, ⟨?_, ?_, ?_⟩, hrest⟩
      · rw [← hname, Ledger.position?, ← h.positions]
        exact hlocked.sum_eq
      · rw [← h.count]
        exact hlocked.count
      · rw [← hname, ← h.positions]
        exact hlocked.positions

theorem Shelved.append {ks more : List LockRequest} (h : Shelved ks c c₁)
    (h' : Shelved more c₁ c') : Shelved (ks ++ more) c c' := by
  induction ks generalizing c with
  | nil => exact SamePositions.shelved h h'
  | cons k rest ih =>
      obtain ⟨c₂, sum, hlocked, hrest⟩ := h
      exact ⟨c₂, sum, hlocked, ih hrest⟩

theorem Shelved.single {k : LockRequest} (h : Shelved [k] c c') : ∃ sum, Locked k sum c c' := by
  obtain ⟨c₁, sum, ⟨hsum, hcount, hpositions⟩, hsame⟩ := h
  exact ⟨sum, hsum, hsame.count.trans hcount, hsame.positions.trans hpositions⟩

theorem positionName_eq_ok {identifier : Option String} {name : String} :
    positionName identifier c = .ok name c' ↔ name = c.lockName identifier ∧
      c' = { c with positions := c.positions + if identifier = none then 1 else 0 } := by
  cases identifier with
  | some given => simp [positionName, lockName, Action.pure_eq_ok]
  | none =>
      simp only [positionName, freshPosition, Action.bind_eq_ok, Action.modify_eq_ok,
        Action.get_eq_ok, Action.pure_eq_ok]
      constructor
      · rintro ⟨_, _, rfl, _, _, ⟨rfl, rfl⟩, rfl, rfl⟩
        exact ⟨rfl, rfl⟩
      · rintro ⟨rfl, rfl⟩
        exact ⟨⟨⟩, _, rfl, _, _, ⟨rfl, rfl⟩, rfl, rfl⟩

/-! ## Effects that are carried out -/

theorem samePositions_of_withLedger {α : Type} {action : Action Ledger α} {a : α}
    (h : withLedger action c = .ok a c')
    (hp : ∀ l, action c.state.ledger = .ok a l → l.positions = c.state.ledger.positions) :
    c.SamePositions c' := by
  obtain ⟨l, hl, rfl⟩ := withLedger_eq_ok.1 h
  exact ⟨rfl, hp l hl⟩

theorem shelved_of_applyEffect {e : Effect} {u : Unit} (h : applyEffect e c = .ok u c') :
    Shelved e.lock?.toList c c' := by
  cases e with
  | send recipient coins =>
      exact samePositions_of_withLedger h fun _ => Ledger.positions_of_transfer
  | burn coins => exact samePositions_of_withLedger h fun _ => Ledger.positions_of_burnAll
  | mintShare denom amount recipient =>
      exact samePositions_of_withLedger h fun _ => Ledger.positions_of_mint
  | burnShare denom amount => exact samePositions_of_withLedger h fun _ => Ledger.positions_of_burn
  | lock service expands receiver asset identifier duration =>
      simp only [applyEffect, Action.bind_eq_ok, Action.pure_eq_ok] at h
      obtain ⟨_, c₁, hsend, name, c₂, hname, p, c₃, hlock, -, rfl⟩ := h
      have hsent := samePositions_of_withLedger hsend fun _ => Ledger.positions_of_transfer
      obtain ⟨rfl, rfl⟩ := positionName_eq_ok.1 hname
      obtain ⟨l, hl, rfl⟩ := withLedger_eq_ok.1 hlock
      obtain ⟨sum, hsum, rfl, rfl⟩ := Ledger.lock_eq_ok.1 hl
      exact hsent.shelved ⟨_, sum, ⟨hsum, rfl, rfl⟩, rfl, rfl⟩

/-- Effects without a lock name no position, whether they are carried out to the end or not. -/
theorem count_after_applyEffects {effects : List Effect} (h : Effect.locks effects = [])
    (c : Chain) : (after (applyEffects effects) c).positions = c.positions := by
  have hledger (action : Action Ledger Unit) (c : Chain) :
      (after (withLedger action) c).positions = c.positions := by
    unfold after withLedger
    cases action c.state.ledger <;> rfl
  induction effects generalizing c with
  | nil => rfl
  | cons e rest ih =>
      rw [Effect.locks_cons, List.append_eq_nil_iff] at h
      have hfirst : (after (applyEffect e) c).positions = c.positions := by
        cases e with
        | send recipient coins => exact hledger _ c
        | burn coins => exact hledger _ c
        | mintShare denom amount recipient => exact hledger _ c
        | burnShare denom amount => exact hledger _ c
        | lock service expands receiver asset identifier duration => cases h.1
      rcases after_bind (applyEffect e) (fun _ => applyEffects rest) c with
        ⟨_, c', hok, heq⟩ | ⟨-, heq⟩
      · rw [after_eq_of_ok hok] at hfirst
        exact (congrArg positions heq).trans ((ih h.2 c').trans hfirst)
      · exact (congrArg positions heq).trans hfirst

/-- Effects that were carried out: what they moved, and what they locked. -/
structure Carried (effects : List Effect) (c c' : Chain) : Prop where
  moved : c.state.ledger.Moved c'.state.ledger (Effect.gains effects) (Effect.issues effects)
  shelved : Shelved (Effect.locks effects) c c'

theorem carried_of_applyEffects {effects : List Effect} {u : Unit}
    (h : applyEffects effects c = .ok u c') : Carried effects c c' := by
  refine ⟨moved_of_applyEffects h, ?_⟩
  induction effects generalizing c with
  | nil =>
      obtain ⟨-, rfl⟩ := Action.pure_eq_ok.1 h
      exact ⟨rfl, rfl⟩
  | cons e rest ih =>
      obtain ⟨_, c₁, hfirst, hrest⟩ := Action.bind_eq_ok.1 h
      rw [Effect.locks_cons]
      exact (shelved_of_applyEffect hfirst).append (ih hrest)

theorem Carried.samePositions {effects : List Effect} (h : Carried effects c c')
    (hlocks : Effect.locks effects = []) : c.SamePositions c' := by
  have hshelved := h.shelved
  rwa [hlocks] at hshelved

/-- Effects count from any chain with the same ledger and the same count of positions. -/
theorem Carried.of_same {effects : List Effect} (h : Carried effects c₁ c')
    (hledger : c₁.state.ledger = c.state.ledger) (hcount : c₁.positions = c.positions) :
    Carried effects c c' :=
  ⟨hledger ▸ h.moved, SamePositions.shelved ⟨hcount, congrArg Ledger.positions hledger⟩ h.shelved⟩

end Chain

/-! ## What operations lock -/

namespace SwapOrder

theorem locks_effects (config : Config) (receiver ask : String) (q : SwapQuote) :
    Effect.locks (effects config receiver ask q) = [] := by
  rw [effects, Effect.locks_append, Effect.locks_append]
  split <;> split <;> split <;> rfl

theorem Fills.locks_eq {order : SwapOrder} {s : State} {call : Call} {offer : Coin} {pool : Pool}
    {sides : AssetPair} {q : SwapQuote} {o : Outcome}
    (h : order.Fills s call offer pool sides q o) : Effect.locks o.settlement.effects = [] := by
  rw [h.effects_eq, locks_effects]

end SwapOrder

theorem Withdrawal.Paid.locks_eq {identifier : String} {s : State} {call : Call} {pool : Pool}
    {amount : Int} {o : Outcome} (h : Paid identifier s call pool amount o) :
    Effect.locks o.settlement.effects = [] := by
  rw [h.effects_eq, Effect.locks_append]
  split <;> rfl

theorem Provision.locks_refund (p : Provision) (id : String) :
    Effect.locks (p.refund id).effects = [] := rfl

namespace Deposit

/-- The lock that a deposit asks for, if its shares are to be locked. -/
def lock? (d : Deposit) (pool : Pool) (share : Int) : Option LockRequest :=
  d.unlockingDuration.map fun duration =>
    ⟨d.receiver, ⟨pool.lpDenom, share⟩, d.lockIdentifier, duration⟩

namespace Accepted

variable {d : Deposit} {s : State} {pool : Pool} {deposits balances : List Int} {share : Int}
  {issued : List Effect} {o : Outcome}

theorem locks_eq (h : d.Accepted s pool deposits balances share issued o) :
    Effect.locks o.settlement.effects = (d.lock? pool share).toList := by
  have hminimum : Effect.locks (lockedEffects pool (s.shareSupply pool)) = [] := by
    unfold lockedEffects
    split <;> rfl
  have hissued := h.issued_eq
  rw [h.effects_eq, Effect.locks_append, hminimum, List.nil_append, lock?]
  unfold shareEffects at hissued
  cases hduration : d.unlockingDuration with
  | none =>
      rw [hduration] at hissued
      cases hissued
      rfl
  | some duration =>
      rw [hduration] at hissued
      obtain ⟨existing, -, heq⟩ := Result.bind_eq_ok.1 hissued
      cases heq
      rfl

/-- A position that a deposit names is its receiver's, if it is there. -/
theorem receiver_of_position (h : d.Accepted s pool deposits balances share issued o)
    {k : LockRequest} (hk : d.lock? pool share = some k) {name : String}
    (hname : k.identifier = some name) {p : Position} (hp : s.ledger.position? name = some p) :
    p.receiver = k.receiver := by
  obtain ⟨duration, hduration, rfl⟩ := Option.map_eq_some_iff.1 hk
  dsimp only at hname ⊢
  have hissued := h.issued_eq
  simp only [shareEffects, hduration, Result.bind_eq_ok] at hissued
  obtain ⟨existing, hexisting, -⟩ := hissued
  simp only [existingPosition, hname, Option.bind_some, hp, Result.guarded_eq_ok,
    Decidable.not_not] at hexisting
  exact hexisting.1

end Accepted

end Deposit

end MarketMaker

import MarketMaker.Proofs.Chain.Delivery
import MarketMaker.Proofs.Solvency

/-! # Who changes a position

A transaction locks shares for its sender, and in a position that it names only if that is the
sender's. Nothing of the kind is asked where the chain names the position: the name that comes next
may be one that somebody has given to a position before. -/

namespace MarketMaker

open Ledger

/-- A lock for an owner, in a position that is the owner's if it was asked for and is there. -/
structure LockRequest.OwnedBy (k : LockRequest) (owner : String) (c : Chain) : Prop where
  receiver : k.receiver = owner
  position : ∀ name p, k.identifier = some name → c.state.ledger.position? name = some p →
    p.receiver = owner

theorem DepositOrder.receiver_of_checkLock {order : DepositOrder} {call : Call}
    (h : order.checkLock call = .ok ()) (hlocks : order.unlockingDuration.isSome) :
    call.receiver order.receiver = call.sender := by
  simpa [checkLock, hlocks, fail] using h

namespace Chain

variable {c c₁ c' : Chain}

/-! ## The lock of a transaction -/

/-- At most one lock was carried out, and it is for an owner. -/
def LocksFor (owner : String) (order : DepositOrder) (c c' : Chain) : Prop :=
  ∃ k : Option LockRequest, Shelved k.toList c c' ∧ ∀ x, k = some x →
    x.OwnedBy owner c ∧ x.identifier = order.lockIdentifier ∧ order.unlockingDuration.isSome

theorem SamePositions.locksFor (h : c.SamePositions c') (owner : String) (order : DepositOrder) :
    c.LocksFor owner order c' := ⟨none, h, fun _ hx => nomatch hx⟩

theorem LocksFor.of_same {owner : String} {order : DepositOrder} (h : c.SamePositions c₁)
    (h' : c₁.LocksFor owner order c') : c.LocksFor owner order c' := by
  obtain ⟨k, hshelved, hk⟩ := h'
  refine ⟨k, h.shelved hshelved, fun x hx => ?_⟩
  obtain ⟨⟨hreceiver, hposition⟩, hrest⟩ := hk x hx
  refine ⟨⟨hreceiver, fun name p hname hp => hposition name p hname ?_⟩, hrest⟩
  rw [position?, h.positions]
  exact hp

/-- A deposit locks its shares for its receiver. -/
theorem locksFor_of_accepted {d : Deposit} {s : State} {pool : Pool} {deposits balances : List Int}
    {share : Int} {issued : List Effect} {o : Outcome} {order : DepositOrder} {owner : String}
    (h : d.Accepted s pool deposits balances share issued o)
    (hledger : s.ledger.positions = c.state.ledger.positions)
    (hduration : d.unlockingDuration = order.unlockingDuration)
    (hidentifier : d.lockIdentifier = order.lockIdentifier)
    (howner : order.unlockingDuration.isSome → d.receiver = owner)
    (hcarried : Carried o.settlement.effects c c') : c.LocksFor owner order c' := by
  refine ⟨d.lock? pool share, h.locks_eq ▸ hcarried.shelved, fun x hx => ?_⟩
  have hposition {name : String} {p : Position} (hname : x.identifier = some name)
      (hp : s.ledger.position? name = some p) : p.receiver = x.receiver :=
    h.receiver_of_position hx hname hp
  obtain ⟨duration, hsome, rfl⟩ := Option.map_eq_some_iff.1 hx
  have hlocks : order.unlockingDuration.isSome := by rw [← hduration, hsome]; rfl
  refine ⟨⟨howner hlocks, fun name p hname hp => ?_⟩, hidentifier, hlocks⟩
  rw [← howner hlocks]
  refine hposition hname ?_
  rw [position?, hledger]
  exact hp

theorem locksFor_of_finished {h : HalfSwap} {p : Provision} {order : DepositOrder} {owner : String}
    (hf : Finished h p c c') (hrequest : p.request = order.request)
    (howner : order.unlockingDuration.isSome → p.receiver = owner) : c.LocksFor owner order c' := by
  cases hf with
  | completed went fills traded config_eq stored accepted carried =>
      have hsame := traded.samePositions fills.locks_eq
      have hduration : p.completion.unlockingDuration = order.unlockingDuration :=
        congrArg ProvisionRequest.unlockingDuration hrequest
      have hidentifier : p.completion.lockIdentifier = order.lockIdentifier :=
        congrArg ProvisionRequest.lockIdentifier hrequest
      exact .of_same hsame (locksFor_of_accepted accepted rfl hduration
        hidentifier howner carried)
  | refunded failed carried registry_eq =>
      have hsame := carried.samePositions (p.locks_refund h.provision)
      exact hsame.locksFor owner order

/-- A transaction that succeeds changes no position, or it is a deposit and locks shares for its
sender. -/
theorem locks_of_transact {op : Operation} {call : Call} {r : Response}
    (h : transact op call c = .ok r c') : c.SamePositions c' ∨
      ∃ order, op = .deposit order ∧ c.LocksFor call.sender order c' := by
  have hfunded {l : Ledger}
      (hpaid : transfer call.sender managerAddress call.funds c.state.ledger = .ok () l) :
      c.SamePositions (c.funded l) := ⟨rfl, positions_of_transfer hpaid⟩
  cases delivered_of_transact h with
  | settled paid settles carried books =>
      have hsame := hfunded paid
      cases settles with
      | deposited stored brings run =>
          rename_i order coins
          obtain ⟨_, _, _, _, haccepted⟩ := Deposit.accepted_of_run run
          have howner := DepositOrder.receiver_of_checkLock (checkLock_of_transact h)
          have hlocks : (c.funded _).LocksFor call.sender order c' :=
            locksFor_of_accepted haccepted rfl rfl rfl howner carried
          exact .inr ⟨order, rfl, .of_same hsame hlocks⟩
      | withdrawn paid' => exact .inl (hsame.trans (carried.samePositions paid'.locks_eq))
      | swapped fills => exact .inl (hsame.trans (carried.samePositions fills.locks_eq))
  | queued paid begins manual eq =>
      left
      rw [eq]
      exact ⟨rfl, positions_of_transfer paid⟩
  | finished paid begins auto finished dropped =>
      rename_i order l _ _ _ _ st
      have hprovision := begins.started.provision_eq
      have hnoted : c.SamePositions (c.noted l call.transaction st.provision) :=
        ⟨rfl, positions_of_transfer paid⟩
      have howner (hlocks : order.unlockingDuration.isSome) :
          st.provision.receiver = call.sender := by
        rw [hprovision]
        exact DepositOrder.receiver_of_checkLock (checkLock_of_transact h) hlocks
      have hlocks := locksFor_of_finished finished (by rw [hprovision]) howner
      exact .inr ⟨order, rfl, .of_same hnoted hlocks⟩

/-! ## Positions of others -/

/-- A position has the receiver and the shares of a given one. -/
def Holds (c : Chain) (id : String) (p : Position) : Prop :=
  ∃ p', c.state.ledger.position? id = some p' ∧ p'.receiver = p.receiver ∧ p'.asset = p.asset

instance (c : Chain) (id : String) (p : Position) : Decidable (c.Holds id p) :=
  match h : c.state.ledger.position? id with
  | none => isFalse (by simp [Holds, h])
  | some p' =>
    decidable_of_iff (p'.receiver = p.receiver ∧ p'.asset = p.asset) (by simp [Holds, h])

/-- The chain has named one more position, and under this name. -/
def Named (c c' : Chain) (id : String) : Prop :=
  c'.positions = c.positions + 1 ∧ id = c.lockName none

instance (c c' : Chain) (id : String) : Decidable (c.Named c' id) :=
  inferInstanceAs (Decidable (_ ∧ _))

variable {id owner : String} {p : Position}

theorem SamePositions.holds (h : c.SamePositions c') (hp : c.state.ledger.position? id = some p) :
    c'.Holds id p := by
  refine ⟨p, ?_, rfl, rfl⟩
  rw [position?, h.positions]
  exact hp

theorem SamePositions.not_named (h : c.SamePositions c') : ¬c.Named c' id := by
  rintro ⟨hcount, -⟩
  have hsame := h.count
  omega

/-- A lock for an owner leaves another's position alone, unless the chain names it so. -/
theorem Locked.holds_iff {k : LockRequest} {sum : Coin} (h : Locked k sum c c')
    (hk : k.OwnedBy owner c) (hp : c.state.ledger.position? id = some p)
    (hother : p.receiver ≠ owner) : c'.Holds id p ↔ ¬c.Named c' id := by
  have hafter : c'.state.ledger.position? id =
      if c.lockName k.identifier = id then
        some ⟨c.lockName k.identifier, k.receiver, sum, k.duration⟩
      else some p := by
    rw [position?, h.positions, Table.get?_put, ← position?, hp]
  cases hidentifier : k.identifier with
  | some name =>
      have hne : c.lockName (some name) ≠ id := by
        rintro rfl
        exact hother (hk.position name p hidentifier hp)
      have hcount := h.count
      rw [hidentifier] at hafter hcount
      rw [if_neg hne] at hafter
      have hnot : ¬c.Named c' id := by
        rintro ⟨hmore, -⟩
        simp at hcount
        omega
      exact ⟨fun _ => hnot, fun _ => ⟨p, hafter, rfl, rfl⟩⟩
  | none =>
      have hcount := h.count
      rw [hidentifier] at hafter hcount
      rw [if_pos rfl] at hcount
      by_cases hname : c.lockName none = id
      · rw [if_pos hname] at hafter
        constructor
        · rintro ⟨p', hp', hreceiver, -⟩
          cases hafter.symm.trans hp'
          exact absurd (hreceiver.symm.trans hk.receiver) hother
        · exact fun hnot => absurd ⟨hcount, hname.symm⟩ hnot
      · rw [if_neg hname] at hafter
        exact ⟨fun _ hnamed => hname hnamed.2.symm, fun _ => ⟨p, hafter, rfl, rfl⟩⟩

theorem LocksFor.holds_iff {order : DepositOrder} (h : c.LocksFor owner order c')
    (hp : c.state.ledger.position? id = some p) (hother : p.receiver ≠ owner) :
    c'.Holds id p ↔ ¬c.Named c' id := by
  obtain ⟨k, hshelved, hk⟩ := h
  cases k with
  | none =>
      have hsame : c.SamePositions c' := hshelved
      exact ⟨fun _ => hsame.not_named, fun _ => hsame.holds hp⟩
  | some x =>
      obtain ⟨sum, hlocked⟩ := Shelved.single hshelved
      exact hlocked.holds_iff (hk x rfl).1 hp hother

/-- The chain names a position only for a deposit that locks its shares without saying where. -/
theorem LocksFor.of_named {order : DepositOrder} (h : c.LocksFor owner order c')
    (hnamed : c.Named c' id) :
    order.unlockingDuration.isSome ∧ order.lockIdentifier = none := by
  obtain ⟨k, hshelved, hk⟩ := h
  cases k with
  | none =>
      have hsame : c.SamePositions c' := hshelved
      exact absurd hnamed hsame.not_named
  | some x =>
      obtain ⟨sum, hlocked⟩ := Shelved.single hshelved
      obtain ⟨-, hidentifier, hlocks⟩ := hk x rfl
      refine ⟨hlocks, ?_⟩
      rw [← hidentifier]
      by_contra hsome
      have hcount := hlocked.count
      rw [if_neg hsome] at hcount
      have hmore := hnamed.1
      omega

/-- A transaction of anybody but its receiver leaves a position with its receiver and its shares
exactly if it fails, or does not name a position, or names it otherwise; and only a deposit that
locks its shares without saying where names one. -/
theorem holds_after_execute_iff {sender : String} {funds : List Coin} {op : Operation}
    (hp : c.state.ledger.position? id = some p) (hother : p.receiver ≠ sender) :
    ((after (execute sender funds op) c).Holds id p ↔
      ¬(Action.succeeds (execute sender funds op) c = true ∧
        c.Named (after (execute sender funds op) c) id)) ∧
      (Action.succeeds (execute sender funds op) c = true →
        c.Named (after (execute sender funds op) c) id →
          ∃ order, op = .deposit order ∧ order.unlockingDuration.isSome ∧
            order.lockIdentifier = none) := by
  by_cases hsucceeds : Action.succeeds (execute sender funds op) c = true
  · obtain ⟨r, hok⟩ := exists_ok_after hsucceeds
    have hlocks := locks_of_transact (execute_eq_ok.1 hok)
    simp only [hsucceeds, true_and, forall_const]
    rcases hlocks with hsame | ⟨order, rfl, hlocks⟩
    · have hsame : c.SamePositions (after (execute sender funds op) c) :=
        ⟨hsame.count, hsame.positions⟩
      exact ⟨⟨fun _ => hsame.not_named, fun _ => hsame.holds hp⟩,
        fun hnamed => absurd hnamed hsame.not_named⟩
    · have hcounted : c.SamePositions c.counted := ⟨rfl, rfl⟩
      have hlocks := LocksFor.of_same hcounted hlocks
      exact ⟨hlocks.holds_iff hp hother, fun hnamed => ⟨order, rfl, hlocks.of_named hnamed⟩⟩
  · obtain ⟨e, herror⟩ := exists_error_after (Bool.eq_false_iff.2 hsucceeds)
    have hledger := ledger_of_execute_error herror
    refine ⟨⟨fun _ h => hsucceeds h.1, fun _ => ⟨p, ?_, rfl, rfl⟩⟩, fun h => absurd h hsucceeds⟩
    rw [hledger]
    exact hp

/-! ### A name that is taken

A user locks shares under the name that the chain would give to its first position. -/

/-- Bob has locked shares as `position-1`, and Alice has coins for a deposit. -/
def forestalled : Chain :=
  run
    [ .addPool firstPool,
      .fund "bob" [⟨"uom", 5000⟩, ⟨"uusd", 5000⟩], .fund "alice" [⟨"uom", 3000⟩, ⟨"uusd", 3000⟩],
      .execute "bob" [⟨"uom", 5000⟩, ⟨"uusd", 5000⟩]
        (.deposit
          { pool := "o.first", unlockingDuration := some 86400,
            lockIdentifier := some "position-1" }) ]
    (empty {} true)

/-- A deposit whose shares are locked in a position that the chain names. -/
def unnamedLock : Operation :=
  .deposit { pool := "o.first", unlockingDuration := some 86400 }

theorem not_holds_after_unnamedLock :
    ¬(after (execute "alice" [⟨"uom", 3000⟩, ⟨"uusd", 3000⟩] unnamedLock) forestalled).Holds
      "position-1" ⟨"position-1", "bob", ⟨"factory/first", 4000⟩, 86400⟩ := by
  have hp : forestalled.state.ledger.position? "position-1" =
      some ⟨"position-1", "bob", ⟨"factory/first", 4000⟩, 86400⟩ := by decide +kernel
  intro hholds
  refine (holds_after_execute_iff hp (by decide)).1.1 hholds ⟨?_, ?_⟩
  · decide +kernel
  · decide +kernel

/-- The position that Bob has named is Alice's after she has locked shares without naming one. -/
theorem position_forestalled :
    forestalled.state.ledger.position? "position-1" =
        some ⟨"position-1", "bob", ⟨"factory/first", 4000⟩, 86400⟩ ∧
      (after (execute "alice" [⟨"uom", 3000⟩, ⟨"uusd", 3000⟩] unnamedLock)
          forestalled).state.ledger.position? "position-1" =
        some ⟨"position-1", "alice", ⟨"factory/first", 5000⟩, 86400⟩ := by
  constructor
  · decide +kernel
  · decide +kernel

end Chain

end MarketMaker

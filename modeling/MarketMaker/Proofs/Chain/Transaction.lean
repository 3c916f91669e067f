import MarketMaker.Proofs.Chain.HalfSwap

/-! # What a transaction does

A transaction that succeeds is settled, or queues a half-swap, or runs it at once. One that fails
leaves ledger and pools as they were. -/

namespace MarketMaker.Chain

open Ledger

/-! ## Messages -/

theorem applyMessages_effects (effects : List Effect) :
    applyMessages (effects.map .effect) = applyEffects effects := by
  induction effects with
  | nil => rfl
  | cons e rest ih =>
      rw [List.map_cons, applyMessages, ih]
      rfl

/-- The messages of a settled operation are its effects. -/
theorem applyMessages_toResponse (s : Settlement) :
    applyMessages s.toResponse.messages = applyEffects s.effects := applyMessages_effects s.effects

theorem applyMessages_halfSwap (h : HalfSwap) (c : Chain) :
    applyMessages [.halfSwap h] c =
      if c.autoConfirm then
        (do
          let _ ← runHalfSwap h
          pure ()) c
      else .ok () { c with pending := c.pending ++ [h] } := by
  have hmessage : applyMessage (.halfSwap h) c =
      (if c.autoConfirm then
        (do
          let _ ← runHalfSwap h
          pure ())
      else set { c with pending := c.pending ++ [h] } : Action Chain Unit) c :=
    Action.get_bind _ c
  simp only [applyMessages, bind, EStateM.bind, hmessage]
  by_cases hauto : c.autoConfirm
  · simp only [hauto, ite_true, EStateM.bind]
    cases runHalfSwap h c <;> rfl
  · simp only [hauto]
    rfl

/-! ## Success -/

def funded (c : Chain) (l : Ledger) : Chain := { c with state := { c.state with ledger := l } }

def noted (c : Chain) (l : Ledger) (id : String) (p : Provision) : Chain :=
  { c with state :=
    { c.state with ledger := l, provisions := c.state.provisions.put id p } }

def enqueued (c : Chain) (h : HalfSwap) : Chain := { c with pending := c.pending ++ [h] }

def fundsGain (call : Call) (a d : String) : Int :=
  gainOf managerAddress call.funds a d - gainOf call.sender call.funds a d

/-- What a transaction that succeeds leaves. -/
inductive Transacted (op : Operation) (call : Call) (c c' : Chain) : Prop
  | settled {l : Ledger} {pool : Pool} {o : Outcome}
      (paid : c.state.ledger.Moved l (fundsGain call) (fun _ => 0))
      (settles : op.Settles (c.funded l).state call pool o)
      (moved : l.Moved c'.state.ledger (Effect.gains o.settlement.effects)
        (Effect.issues o.settlement.effects))
      (books : SameBooks { c with state := c.state.savePool o.pool } c')
  | queued {l : Ledger} {order : DepositOrder} {pool : Pool} {coin : Coin} {sides : AssetPair}
      {q : SwapQuote} {st : Provision.Start}
      (paid : c.state.ledger.Moved l (fundsGain call) (fun _ => 0))
      (begins : order.Begins (c.funded l).state call pool coin sides q st)
      (manual : c.autoConfirm = false)
      (eq : c' = (c.noted l call.transaction st.provision).enqueued st.swap)
  | confirmed {l : Ledger} {order : DepositOrder} {pool : Pool} {coin : Coin} {sides : AssetPair}
      {q : SwapQuote} {st : Provision.Start}
      (paid : c.state.ledger.Moved l (fundsGain call) (fun _ => 0))
      (begins : order.Begins (c.funded l).state call pool coin sides q st)
      (auto : c.autoConfirm = true)
      (confirmed : Confirmed st.swap (c.noted l call.transaction st.provision) c')

theorem transact_eq_ok {op : Operation} {call : Call} {c c' : Chain} {r : Response} :
    transact op call c = .ok r c' ↔ ∃ l s,
      Ledger.transfer call.sender managerAddress call.funds c.state.ledger = .ok () l ∧
        op.run call (c.funded l).state = .ok r s ∧
          applyMessages r.messages { c with state := s } = .ok () c' := by
  simp only [transact, invoke, Action.bind_eq_ok, Action.pure_eq_ok, withLedger_eq_ok,
    withState_eq_ok]
  constructor
  · rintro ⟨_, _, ⟨l, htransfer, rfl⟩, r', _, ⟨s, hrun, rfl⟩, _, _, hmessages, rfl, rfl⟩
    exact ⟨l, s, htransfer, hrun, hmessages⟩
  · rintro ⟨l, s, htransfer, hrun, hmessages⟩
    exact ⟨(), _, ⟨l, htransfer, rfl⟩, r, _, ⟨s, hrun, rfl⟩, (), c', hmessages, rfl, rfl⟩

theorem transacted_of_transact {op : Operation} {call : Call} {c c' : Chain} {r : Response}
    (h : transact op call c = .ok r c') : Transacted op call c c' := by
  obtain ⟨l, s, htransfer, hrun, hmessages⟩ := transact_eq_ok.1 h
  have hpaid := moved_of_transfer htransfer
  cases Operation.ran_of_run hrun with
  | settled settles =>
      rw [applyMessages_toResponse] at hmessages
      have hmoved := moved_of_applyEffects hmessages
      have hbooks := sameBooks_of_applyEffects hmessages
      exact .settled hpaid settles hmoved
        ⟨hbooks.config, hbooks.registry, hbooks.provisions, hbooks.autoConfirm, hbooks.pending,
          hbooks.transactions⟩
  | begun begins =>
      rw [applyMessages_halfSwap] at hmessages
      split at hmessages
      · rename_i hauto
        obtain ⟨_, _, hrun, hpure⟩ := Action.bind_eq_ok.1 hmessages
        obtain ⟨-, rfl⟩ := Action.pure_eq_ok.1 hpure
        exact .confirmed hpaid begins hauto (confirmed_of_runHalfSwap hrun)
      · rename_i hauto
        cases hmessages
        exact .queued hpaid begins (by simpa using hauto) rfl

/-! ## Failure -/

/-- What a transaction that fails keeps: the terms and the provisions, and the queue unless swaps
are confirmed at once. -/
structure Failed (c c' : Chain) : Prop where
  terms : c.SameTerms c'
  provisions : c'.state.provisions = c.state.provisions
  pending : c'.pending = c.pending ∨
    (c.autoConfirm = true ∧ ∃ h, c'.pending = c.pending.erase h)

theorem SameBooks.failed {c c' : Chain} (h : c.SameBooks c') : Failed c c' :=
  ⟨h.sameTerms, h.provisions, .inl h.pending⟩

theorem Failed.of_sameBooks {c c₁ c' : Chain} (h : Failed c₁ c') (hb : c.SameBooks c₁) :
    Failed c c' := by
  obtain ⟨hterms, hprovisions, hpending⟩ := h
  rw [hb.pending, hb.autoConfirm] at hpending
  exact ⟨hb.sameTerms.trans hterms, hprovisions.trans hb.provisions, hpending⟩

theorem failed_of_applyMessages_error {op : Operation} {call : Call} {c c' : Chain} {r : Response}
    {s : State} {e : Failure} (hran : op.Ran c.state call r s)
    (h : applyMessages r.messages { c with state := s } = .error e c') : Failed c c' := by
  cases hran with
  | settled settles =>
      rename_i pool o
      have hbooks := sameBooks_applyEffects o.settlement.effects
        { c with state := c.state.savePool o.pool }
      rw [applyMessages_toResponse] at h
      rw [after, h] at hbooks
      exact ⟨⟨hbooks.config, hbooks.autoConfirm, hbooks.transactions⟩, hbooks.provisions,
        .inl hbooks.pending⟩
  | begun begins =>
      rw [applyMessages_halfSwap] at h
      split at h
      · rename_i hauto
        simp only [bind, EStateM.bind] at h
        split at h
        · cases h
        · rename_i hrun
          cases h
          -- The provision of a half-swap that is run at once was kept for it alone.
          obtain ⟨hterms, hpending, hprovisions⟩ := dropped_of_runHalfSwap_error hrun
          rw [begins.started.swap_eq, Table.erase_put_of_none begins.fresh] at hprovisions
          exact ⟨⟨hterms.config, hterms.autoConfirm, hterms.transactions⟩, hprovisions,
            .inr ⟨hauto, _, hpending⟩⟩
      · cases h

theorem failed_of_transact_error {op : Operation} {call : Call} {c c' : Chain} {e : Failure}
    (h : transact op call c = .error e c') : Failed c c' := by
  have htransfer := sameBooks_withLedger
    (Ledger.transfer call.sender managerAddress call.funds) c
  rw [after] at htransfer
  simp only [transact, bind, EStateM.bind, invoke, withState] at h
  split at h
  · rename_i c₁ hpaid
    rw [hpaid] at htransfer
    cases hrun : op.run call c₁.state with
    | error f s =>
        simp only [hrun] at h
        cases h
        obtain rfl := op.keepsOnError_run call _ _ _ hrun
        exact htransfer.failed
    | ok r s =>
        simp only [hrun] at h
        split at h
        · cases h
        · rename_i hmessages
          cases h
          have hfailed := failed_of_applyMessages_error (Operation.ran_of_run hrun) hmessages
          exact hfailed.of_sameBooks htransfer
  · rename_i hpaid
    cases h
    rw [hpaid] at htransfer
    exact htransfer.failed

/-! ## The transaction as a whole -/

def counted (c : Chain) : Chain := { c with transactions := c.transactions + 1 }

def nextCall (c : Chain) (sender : String) (funds : List Coin) : Call :=
  ⟨sender, funds, "tx-" ++ toString (c.transactions + 1)⟩

theorem execute_eq (sender : String) (funds : List Coin) (op : Operation) (c : Chain) :
    execute sender funds op c = atomically (transact op (c.nextCall sender funds)) c.counted := by
  simp only [execute, Action.modify_bind, Action.get_bind]
  rfl

theorem after_execute_eq (sender : String) (funds : List Coin) (op : Operation) (c : Chain) :
    after (execute sender funds op) c =
      after (atomically (transact op (c.nextCall sender funds))) c.counted := by
  simp only [after, execute_eq]

theorem execute_eq_ok {sender : String} {funds : List Coin} {op : Operation} {c c' : Chain}
    {r : Response} : execute sender funds op c = .ok r c' ↔
      transact op (c.nextCall sender funds) c.counted = .ok r c' := by
  rw [execute_eq, atomically_eq_ok]

/-- A transaction that fails leaves the ledger as it was. -/
theorem ledger_of_execute_error {sender : String} {funds : List Coin} {op : Operation}
    {c c' : Chain} {e : Failure} (h : execute sender funds op c = .error e c') :
    c'.state.ledger = c.state.ledger := by
  rw [execute_eq] at h
  obtain ⟨c₁, -, rfl⟩ := atomically_eq_error.1 h
  rfl

/-- A transaction succeeds, or it leaves ledger and pools as they were. -/
theorem after_execute (sender : String) (funds : List Coin) (op : Operation) (c : Chain) :
    Transacted op (c.nextCall sender funds) c.counted (after (execute sender funds op) c) ∨
      ∃ c', Failed c.counted c' ∧
        after (execute sender funds op) c = c'.rollback c.state := by
  rw [after_execute_eq]
  rcases after_atomically (transact op (c.nextCall sender funds)) c.counted with
    ⟨r, c', hok, heq⟩ | ⟨⟨e, c', herror⟩, heq⟩
  · rw [heq]
    exact .inl (transacted_of_transact hok)
  · have hafter : after (transact op (c.nextCall sender funds)) c.counted = c' := by
      simp only [after, herror]
    rw [heq, hafter]
    exact .inr ⟨c', failed_of_transact_error herror, rfl⟩

/-- A waiting half-swap that is run is confirmed, or it leaves ledger and pools as they were. -/
theorem after_runDeferred (h : HalfSwap) (c : Chain) :
    (Action.succeeds (runHalfSwap h) c = true ∧ Confirmed h c (after (runDeferred h) c)) ∨
      (Action.succeeds (runHalfSwap h) c = false ∧
        ∃ c', Dropped h c c' ∧ after (runDeferred h) c = c'.rollback c.state) := by
  rcases after_atomically (runHalfSwap h) c with ⟨settlement, c', hok, heq⟩ | ⟨⟨e, c', herror⟩, heq⟩
  · rw [runDeferred, heq]
    exact .inl ⟨Action.succeeds_of_ok hok, confirmed_of_runHalfSwap hok⟩
  · have hafter : after (runHalfSwap h) c = c' := by
      simp only [after, herror]
    rw [runDeferred, heq, hafter]
    exact .inr ⟨Action.succeeds_of_error herror, c', dropped_of_runHalfSwap_error herror, rfl⟩

/-- The run of a half-swap takes it and its provision out of the books, however it ends. -/
theorem dropped_after_runDeferred (h : HalfSwap) (c : Chain) :
    Dropped h c (after (runDeferred h) c) := by
  rcases after_runDeferred h c with ⟨-, hc⟩ | ⟨-, c', hd, heq⟩
  · exact hc.dropped
  · rw [heq]
    exact ⟨⟨hd.terms.config, hd.terms.autoConfirm, hd.terms.transactions⟩, hd.pending,
      hd.provisions⟩

theorem after_perform_execute (sender : String) (funds : List Coin) (op : Operation) (c : Chain) :
    after (perform (.execute sender funds op)) c = after (execute sender funds op) c := by
  simp only [after, perform, bind, EStateM.bind]
  cases execute sender funds op c <;> rfl

theorem after_perform_runDeferred (h : HalfSwap) (c : Chain) :
    after (perform (.runDeferred h)) c = after (runDeferred h) c := by
  simp only [after, perform, bind, EStateM.bind]
  cases runDeferred h c <;> rfl

theorem after_perform_addPool (pool : Pool) (c : Chain) :
    after (perform (.addPool pool)) c =
      after (withLedger (Ledger.seed managerAddress pool 0))
        { c with state := c.state.savePool pool } := rfl

end MarketMaker.Chain

import MarketMaker.Proofs.Chain.Delivery

/-! # Chains that can be reached

Whoever calls, and whether calls succeed or not: the pools of a chain are valid and under their own
names, its provisions are coherent and named after earlier transactions, and its ledger is sound. -/

namespace MarketMaker

/-! ## Effects of operations -/

theorem SwapOrder.effects_nonneg (config : Config) (receiver ask : String) (q : SwapQuote) :
    ∀ e ∈ effects config receiver ask q, e.Nonneg := by
  intro e he
  simp only [effects, List.mem_append] at he
  rcases he with (he | he) | he
  all_goals
    split at he
    · rename_i hpos
      rw [List.mem_singleton.1 he]
      intro c hc
      rw [List.mem_singleton.1 hc]
      exact Int.le_of_lt hpos
    · cases he

theorem Withdrawal.Paid.effects_nonneg {identifier : String} {s : State} {call : Call} {pool : Pool}
    {amount : Int} {o : Outcome} (h : Paid identifier s call pool amount o)
    (hfunds : ∀ c ∈ call.funds, 0 ≤ c.amount) : ∀ e ∈ o.settlement.effects, e.Nonneg := by
  intro e he
  rw [h.effects_eq, List.mem_append] at he
  rcases he with he | he
  · split at he
    · cases he
    · rw [List.mem_singleton.1 he]
      intro c hc
      have hpos : 0 < c.amount := by simpa using (List.mem_filter.1 hc).2
      exact Int.le_of_lt hpos
  · rw [List.mem_singleton.1 he]
    exact Int.le_of_lt (h.amount_pos hfunds)

namespace Deposit

theorem Accepted.effects_nonneg {d : Deposit} {s : State} {pool : Pool}
    {deposits balances : List Int} {share : Int} {issued : List Effect} {o : Outcome}
    (h : d.Accepted s pool deposits balances share issued o) :
    ∀ e ∈ o.settlement.effects, e.Nonneg := by
  have hshare : 0 ≤ share := share_nonneg h.share_eq
  intro e he
  rw [h.effects_eq, List.mem_append] at he
  rcases he with he | he
  · unfold lockedEffects at he
    split at he
    · rw [List.mem_singleton.1 he]
      exact (by decide : 0 ≤ Share.minimumLiquidity)
    · cases he
  · have hissued := h.issued_eq
    unfold shareEffects at hissued
    split at hissued
    · cases hissued
      rw [List.mem_singleton.1 he]
      exact hshare
    · obtain ⟨existing, -, hissued⟩ := Result.bind_eq_ok.1 hissued
      cases hissued
      simp only [List.mem_cons, List.not_mem_nil, or_false] at he
      rcases he with rfl | rfl
      · exact hshare
      · exact hshare

end Deposit

theorem Operation.Settles.effects_nonneg {op : Operation} {s : State} {call : Call} {pool : Pool}
    {o : Outcome} (h : op.Settles s call pool o) (hfunds : ∀ c ∈ call.funds, 0 ≤ c.amount) :
    ∀ e ∈ o.settlement.effects, e.Nonneg := by
  cases h with
  | deposited stored brings run =>
      obtain ⟨_, _, _, _, haccepted⟩ := Deposit.accepted_of_run run
      exact haccepted.effects_nonneg
  | withdrawn paid => exact paid.effects_nonneg hfunds
  | swapped fills =>
      rw [fills.effects_eq]
      exact SwapOrder.effects_nonneg _ _ _ _

theorem Provision.refund_nonneg {p : Provision} (hp : p.Coherent) (id : String) :
    ∀ e ∈ (p.refund id).effects, e.Nonneg := by
  intro e he
  rw [List.mem_singleton.1 he]
  intro c hc
  rw [List.mem_singleton.1 hc]
  exact Int.add_nonneg hp.offerHalf hp.keptOffer

namespace Chain

variable {c c' : Chain}

/-! ## The ledger along an event -/

theorem ledger_sound_of_trade {h : HalfSwap} {u : Unit} (ht : trade h c = .ok u c')
    (hs : c.state.ledger.Sound) : c'.state.ledger.Sound := by
  obtain ⟨o, hrun, heffects⟩ := trade_eq_ok.1 ht
  obtain ⟨offer, pool, sides, q, hfills⟩ := SwapOrder.fills_of_run hrun
  refine ledger_sound_applyEffects ?_ heffects hs
  rw [hfills.effects_eq]
  exact SwapOrder.effects_nonneg _ _ _ _

theorem ledger_sound_of_runHalfSwap {h : HalfSwap} {settlement : Settlement}
    (hrun : runHalfSwap h c = .ok settlement c') (hs : c.state.ledger.Sound)
    (hp : ∀ p, c.state.provisions.get? h.provision = some p → p.Coherent) :
    c'.state.ledger.Sound := by
  obtain ⟨success, c₁, s, htry, htaken, heffects⟩ := runHalfSwap_eq_ok.1 hrun
  have htried : c₁.state.ledger.Sound ∧ c₁.state.provisions = c.state.provisions := by
    unfold tryTrade at htry
    split at htry
    · rename_i hok
      cases htry
      obtain ⟨_, _, _, _, htraded⟩ := traded_of_trade hok
      exact ⟨ledger_sound_of_trade hok hs, htraded.books.provisions⟩
    · rename_i herror
      cases htry
      exact ⟨hs, (books_of_trade_error herror).provisions⟩
    · cases htry
  obtain ⟨hledger, hprovisions⟩ := htried
  cases Confirmation.taken_of_run htaken with
  | completed success waiting complete =>
      obtain ⟨_, hcompleted⟩ := Provision.completed_of_complete complete
      obtain ⟨_, _, _, _, haccepted⟩ := hcompleted.deposited
      exact ledger_sound_applyEffects haccepted.effects_nonneg heffects hledger
  | refunded failure waiting =>
      have hcoherent := hp _ (hprovisions ▸ waiting)
      exact ledger_sound_applyEffects (Provision.refund_nonneg hcoherent _) heffects hledger

theorem ledger_sound_of_transact {op : Operation} {call : Call} {r : Response}
    (h : transact op call c = .ok r c') (hs : c.state.ledger.Sound)
    (hfunds : ∀ x ∈ call.funds, 0 ≤ x.amount) : c'.state.ledger.Sound := by
  obtain ⟨l, s, htransfer, hrun, hmessages⟩ := transact_eq_ok.1 h
  have hpaid : l.Sound := hs.transfer hfunds htransfer
  cases Operation.ran_of_run hrun with
  | settled settles =>
      rw [applyMessages_toResponse] at hmessages
      exact ledger_sound_applyEffects (settles.effects_nonneg hfunds) hmessages hpaid
  | begun begins =>
      rw [applyMessages_halfSwap] at hmessages
      split at hmessages
      · obtain ⟨_, _, hrun, hpure⟩ := Action.bind_eq_ok.1 hmessages
        obtain ⟨-, rfl⟩ := Action.pure_eq_ok.1 hpure
        refine ledger_sound_of_runHalfSwap hrun hpaid fun p hp => ?_
        rw [begins.started.swap_eq, Table.get?_put, if_pos rfl, Option.some.injEq] at hp
        exact hp ▸ begins.coherent
      · cases hmessages
        exact hpaid

/-! ## Names of provisions -/

theorem transactionName_inj {k n : Nat} (h : "tx-" ++ toString k = "tx-" ++ toString n) :
    k = n := by
  have hdigits : k.repr = n.repr := by simpa using h
  have hvalue := congrArg (fun s => Nat.ofDigitChars 10 s.toList 0) hdigits
  simpa only [Nat.toList_repr, Nat.ofDigitChars_ten_toDigits] using hvalue

/-- Every provision of a table is named after one of the first `n` transactions. -/
def NamedUpTo (t : Provisions) (n : Nat) : Prop :=
  ∀ id p, t.get? id = some p → ∃ k ≤ n, id = "tx-" ++ toString k

namespace NamedUpTo

variable {t : Provisions} {n : Nat}

theorem mono (h : NamedUpTo t n) {m : Nat} (hle : n ≤ m) : NamedUpTo t m := by
  intro id p hp
  obtain ⟨k, hk, hname⟩ := h id p hp
  exact ⟨k, Nat.le_trans hk hle, hname⟩

theorem put (h : NamedUpTo t n) (p : Provision) :
    NamedUpTo (t.put ("tx-" ++ toString (n + 1)) p) (n + 1) := by
  intro id x hx
  rw [Table.get?_put] at hx
  split at hx
  · rename_i hid
    exact ⟨n + 1, Nat.le_refl _, hid.symm⟩
  · exact h.mono (Nat.le_succ n) id x hx

theorem erase (h : NamedUpTo t n) (id : String) : NamedUpTo (t.erase id) n := by
  intro id' x hx
  rw [Table.get?_erase] at hx
  split at hx
  · cases hx
  · exact h id' x hx

/-- The name of the next transaction is new. -/
theorem fresh (h : NamedUpTo t n) : t.get? ("tx-" ++ toString (n + 1)) = none := by
  cases hp : t.get? ("tx-" ++ toString (n + 1)) with
  | none => rfl
  | some p =>
      obtain ⟨k, hk, hname⟩ := h _ p hp
      have hsame := transactionName_inj hname
      omega

end NamedUpTo

/-! ## Regular chains -/

/-- What holds of every chain, whoever calls. -/
structure Regular (c : Chain) : Prop where
  registry : c.state.registry.Sound
  provisions : c.state.provisions.Each Provision.Coherent
  named : NamedUpTo c.state.provisions c.transactions
  ledger : c.state.ledger.Sound

theorem regular_empty (config : Config) (autoConfirm : Bool) :
    (empty config autoConfirm).Regular where
  registry := Registry.sound_empty
  provisions _ _ hp := nomatch hp
  named _ _ hp := nomatch hp
  ledger := Ledger.sound_empty

/-- An event whose coins and pools are valid. -/
inductive Event.Valid : Event → Prop
  | execute {sender : String} {funds : List Coin} {op : Operation}
      (funds_valid : ∀ x ∈ funds, x.Valid) : Valid (.execute sender funds op)
  | runDeferred {h : HalfSwap} (offer_valid : h.offer.Valid) : Valid (.runDeferred h)
  | fund {address : String} {coins : List Coin} (coins_valid : ∀ x ∈ coins, x.Valid) :
      Valid (.fund address coins)
  | addPool {pool : Pool} (valid : pool.Valid) : Valid (.addPool pool)

/-- Provisions are named after earlier transactions, whatever happens. -/
theorem named_after (hn : NamedUpTo c.state.provisions c.transactions) (e : Event) :
    NamedUpTo (after (perform e) c).state.provisions (after (perform e) c).transactions := by
  cases turn_after e c with
  | kept provisions pending count =>
      rw [provisions]
      exact hn.mono count
  | joined manual named fresh provisions pending count =>
      rw [provisions, count, named]
      exact hn.put _
  | left provisions pending count =>
      rw [provisions, count]
      exact hn.erase _

theorem ledger_sound_after_execute (sender : String) {funds : List Coin} (op : Operation)
    (hs : c.state.ledger.Sound) (hfunds : ∀ x ∈ funds, 0 ≤ x.amount) :
    (after (execute sender funds op) c).state.ledger.Sound := by
  rw [after_execute_eq]
  rcases after_atomically (transact op (c.nextCall sender funds)) c.counted with
    ⟨r, c', hok, heq⟩ | ⟨-, heq⟩
  · rw [heq]
    exact ledger_sound_of_transact hok hs hfunds
  · rw [heq]
    exact hs

theorem ledger_sound_after_runDeferred {h : HalfSwap} (hs : c.state.ledger.Sound)
    (hp : ∀ p, c.state.provisions.get? h.provision = some p → p.Coherent) :
    (after (runDeferred h) c).state.ledger.Sound := by
  rcases after_atomically (runHalfSwap h) c with ⟨settlement, c', hok, heq⟩ | ⟨-, heq⟩
  · rw [runDeferred, heq]
    exact ledger_sound_of_runHalfSwap hok hs hp
  · rw [runDeferred, heq]
    exact hs

/-- An event changes amounts of pools at most, or it adds a pool. -/
theorem Regular.refilled_or_added (hc : c.Regular) {e : Event} (he : e.Valid) :
    c.state.registry.Refilled (after (perform e) c).state.registry ∨
      ∃ pool, e = .addPool pool ∧
        (after (perform e) c).state.registry = c.state.registry.save pool := by
  cases he with
  | execute funds_valid =>
      rename_i sender funds op
      left
      rw [after_perform_execute]
      rcases after_execute sender funds op c with h | ⟨c', -, heq⟩
      · exact h.refilled hc.registry fun x hx => (funds_valid x hx).2.1
      · rw [heq]
        exact .refl hc.registry
  | runDeferred offer_valid =>
      rename_i h
      left
      rw [after_perform_runDeferred]
      rcases after_runDeferred h c with ⟨-, hconfirmed⟩ | ⟨-, c', -, heq⟩
      · exact (consumed_of_confirmed hconfirmed hc.registry offer_valid.2.1
          fun p => hc.provisions h.provision p).registry
      · rw [heq]
        exact .refl hc.registry
  | fund coins_valid =>
      rename_i address coins
      left
      rw [(sameBooks_fund address coins c).registry]
      exact .refl hc.registry
  | addPool valid => exact .inr ⟨_, rfl, registry_after_addPool _ c⟩

theorem Regular.registry_after (hc : c.Regular) {e : Event} (he : e.Valid) :
    (after (perform e) c).state.registry.Sound := by
  rcases hc.refilled_or_added he with hrefilled | ⟨pool, rfl, hadded⟩
  · exact hrefilled.sound hc.registry
  · cases he with
    | addPool valid =>
        rw [hadded]
        exact hc.registry.save valid

theorem Regular.ledger_after (hc : c.Regular) {e : Event} (he : e.Valid) :
    (after (perform e) c).state.ledger.Sound := by
  cases he with
  | execute funds_valid =>
      rename_i sender funds op
      rw [after_perform_execute]
      exact ledger_sound_after_execute sender op hc.ledger fun x hx => (funds_valid x hx).2.1
  | runDeferred offer_valid =>
      rename_i h
      rw [after_perform_runDeferred]
      exact ledger_sound_after_runDeferred hc.ledger fun p => hc.provisions h.provision p
  | fund coins_valid =>
      rw [perform, fund, ledger_after_withLedger]
      exact hc.ledger.left_mintAll fun x hx => (coins_valid x hx).2.1
  | addPool valid =>
      rw [after_perform_addPool, ledger_after_withLedger]
      exact hc.ledger.left_seed _ _ _

/-- Whatever happens to a regular chain, it stays regular. -/
theorem regular_after (hc : c.Regular) {e : Event} (he : e.Valid) :
    (after (perform e) c).Regular where
  registry := hc.registry_after he
  provisions := each_provision_after hc.provisions e fun _ begins => begins.coherent
  named := named_after hc.named e
  ledger := hc.ledger_after he

/-- The chains that can be reached: an empty one, and what valid events leave, failing or not. -/
inductive Reachable : Chain → Prop
  | empty (config : Config) (autoConfirm : Bool) : Reachable (empty config autoConfirm)
  | step {c : Chain} {e : Event} (reachable : Reachable c) (valid : e.Valid) :
      Reachable (after (perform e) c)

theorem Reachable.run {events : List Event} (h : c.Reachable) (he : ∀ e ∈ events, e.Valid) :
    (Chain.run events c).Reachable := run_invariant Reachable .step he h

theorem Reachable.regular (h : c.Reachable) : c.Regular := by
  induction h with
  | empty config autoConfirm => exact regular_empty config autoConfirm
  | step _ valid ih => exact regular_after ih valid

end Chain

end MarketMaker

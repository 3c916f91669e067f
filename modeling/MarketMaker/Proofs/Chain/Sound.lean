import MarketMaker.Proofs.Chain.Queue
import MarketMaker.Proofs.Chain.Transaction

/-! # Sound chains and orderly runs

What holds of every chain that users can reach: its pools are valid and under their own names, its
provisions are a user's, and every half-swap that waits has one of its own. -/

namespace MarketMaker

open Ledger

def Provisions.Each (kind : Provision → Prop) (t : Provisions) : Prop :=
  ∀ id p, t.get? id = some p → kind p

namespace Provisions.Each

variable {kind : Provision → Prop} {t : Provisions}

theorem put (h : Each kind t) (id : String) {p : Provision} (hp : kind p) :
    Each kind (t.put id p) := by
  intro id' x hx
  rw [Table.get?_put] at hx
  split at hx
  · cases hx
    exact hp
  · exact h id' x hx

theorem erase (h : Each kind t) (id : String) : Each kind (t.erase id) := by
  intro id' x hx
  rw [Table.get?_erase] at hx
  split at hx
  · cases hx
  · exact h id' x hx

end Provisions.Each

namespace Chain

/-! ## The completed deposit -/

namespace Traded

variable {h : HalfSwap} {c c₁ : Chain} {pool : Pool} {sides : AssetPair} {q : SwapQuote}
  {o o' : Outcome} {p : Provision}

theorem stored (ht : Traded h c c₁ pool sides q o) (hsound : c.state.registry.Sound) :
    c.state.registry.get? pool.identifier = some pool :=
  (hsound _ _ ht.fills.stored).1 ▸ ht.fills.stored

theorem valid (ht : Traded h c c₁ pool sides q o) (hsound : c.state.registry.Sound) : pool.Valid :=
  (hsound _ _ ht.fills.stored).2

theorem refills_pool (ht : Traded h c c₁ pool sides q o) (hsound : c.state.registry.Sound)
    (hoffer : 0 ≤ h.offer.amount) : o.Refills pool :=
  ht.fills.refills_pool (ht.valid hsound) fun x hx => by
    rw [List.mem_singleton.1 hx]
    exact hoffer

theorem refilled (ht : Traded h c c₁ pool sides q o) (hsound : c.state.registry.Sound)
    (hoffer : 0 ≤ h.offer.amount) : c.state.registry.Refilled (c.state.registry.save o.pool) :=
  (ht.refills_pool hsound hoffer).save hsound (ht.stored hsound)

/-- The trade leaves what it returned with the manager, where no record shows it. -/
theorem reserve_eq (ht : Traded h c c₁ pool sides q o)
    (hcollector : c.state.config.feeCollector ≠ managerAddress) (denom : String) :
    o.pool.reserve denom + Coin.total denom [⟨h.askDenom, q.returned⟩] =
      pool.reserve denom + Coin.total denom [h.offer] +
        Effect.gains o.settlement.effects managerAddress denom := by
  have hbalance := ht.fills.balanced hcollector denom
  rw [receiver_halfSwap, single_self] at hbalance
  exact hbalance

/-- The deposit is completed in the pool that was traded in. -/
theorem completed {s' : State} (ht : Traded h c c₁ pool sides q o)
    (hsound : c.state.registry.Sound) (hoffer : 0 ≤ h.offer.amount) (hm : h.Matches p)
    (hc : p.complete h.provision (Confirmation.taken c₁.state h.provision) = .ok o' s') :
    p.Completed (Confirmation.taken c₁.state h.provision) o.pool o' := by
  obtain ⟨pool', hcompleted⟩ := Provision.completed_of_complete hc
  have hid : o.pool.identifier = p.request.pool := by
    rw [(ht.refills_pool hsound hoffer).identifier, ← hm.pool]
    exact (hsound _ _ ht.fills.stored).1
  have hstored := hcompleted.stored
  have hregistry : (Confirmation.taken c₁.state h.provision).registry =
      c.state.registry.save o.pool := ht.books.registry
  rw [hregistry, Registry.save, hid, Table.get?_put, if_pos rfl, Option.some.injEq] at hstored
  exact hstored ▸ hcompleted

theorem balanced {s' : State} (ht : Traded h c c₁ pool sides q o)
    (hsound : c.state.registry.Sound) (hm : h.Matches p) (hp : p.Sound)
    (hc : p.complete h.provision (Confirmation.taken c₁.state h.provision) = .ok o' s') :
    o'.Balanced o.pool p.completion.coins := by
  have hoffer : 0 ≤ h.offer.amount := hm.offer ▸ hp.offerHalf
  obtain ⟨_, _, _, _, haccepted⟩ := (ht.completed hsound hoffer hm hc).deposited
  have hrefills := ht.refills_pool hsound hoffer
  have hvalid := hrefills.valid (ht.valid hsound)
  have hdenoms := hrefills.denoms
  refine haccepted.balanced hvalid (Provision.completion_nodup hp.toCoherent) (fun x hx => ?_)
    (Provision.completion_nonneg hp.toCoherent)
  · have hofferMem := ht.fills.pairs.offer_mem_denoms
    have haskMem := ht.fills.pairs.ask_mem_denoms
    rw [hm.offer] at hofferMem
    rw [halfSwapOrder, hm.ask] at haskMem
    rw [hdenoms]
    simp only [Provision.completion, List.mem_cons, List.not_mem_nil, or_false] at hx
    rcases hx with rfl | rfl
    · exact hofferMem
    · exact haskMem

end Traded

/-! ## The queue -/

/-- Every provision is a user's, and every waiting half-swap has one of its own. -/
structure SoundQueue (provisions : Provisions) (pending : List HalfSwap) : Prop where
  users : provisions.Each Provision.Sound
  waiting : ∀ h ∈ pending, ∃ p, provisions.get? h.provision = some p ∧ h.Matches p
  distinct : (pending.map HalfSwap.provision).Nodup

namespace SoundQueue

variable {provisions : Provisions} {pending : List HalfSwap}

theorem of_users (h : provisions.Each Provision.Sound) : SoundQueue provisions [] :=
  ⟨h, fun _ hh => (nomatch hh), List.nodup_nil⟩

theorem paired (hq : SoundQueue provisions pending) : Paired provisions pending :=
  ⟨hq.waiting, hq.distinct⟩

theorem of_paired (h : provisions.Each Provision.Sound) (hq : Paired provisions pending) :
    SoundQueue provisions pending := ⟨h, hq.waiting, hq.distinct⟩

theorem erase (hq : SoundQueue provisions pending) {h : HalfSwap} (hh : h ∈ pending) :
    SoundQueue (provisions.erase h.provision) (pending.erase h) :=
  .of_paired (hq.users.erase h.provision) (hq.paired.erase hh)

theorem append (hq : SoundQueue provisions pending) {h : HalfSwap} {p : Provision}
    (hfresh : provisions.get? h.provision = none) (hm : h.Matches p) (hp : p.Sound) :
    SoundQueue (provisions.put h.provision p) (pending ++ [h]) :=
  .of_paired (hq.users.put h.provision hp) (hq.paired.append hfresh hm)

end SoundQueue

/-! ## Sound chains -/

/-- What holds of every chain that users can reach. -/
structure Sound (c : Chain) : Prop where
  collector : c.state.config.feeCollector ≠ managerAddress
  registry : c.state.registry.Sound
  queue : SoundQueue c.state.provisions c.pending
  auto : c.autoConfirm = true → c.pending = []

theorem sound_empty {config : Config} (h : config.feeCollector ≠ managerAddress)
    (autoConfirm : Bool) : (empty config autoConfirm).Sound where
  collector := h
  registry := Registry.sound_empty
  queue := .of_users fun _ _ hp => nomatch hp
  auto _ := rfl

/-! ## Orderly events -/

/-- What can happen to a chain: another address than the manager executes an operation or is
funded, a half-swap that waits is run, and a valid pool is added. -/
inductive Orderly (c : Chain) : Event → Prop
  | execute {sender : String} {funds : List Coin} {op : Operation}
      (sender_ne : sender ≠ managerAddress) (funds_valid : ∀ x ∈ funds, x.Valid)
      (pays : op.PaysUser) : Orderly c (.execute sender funds op)
  | runDeferred {h : HalfSwap} (waiting : h ∈ c.pending) : Orderly c (.runDeferred h)
  | fund {address : String} {coins : List Coin} (address_ne : address ≠ managerAddress)
      (coins_valid : ∀ x ∈ coins, x.Valid) : Orderly c (.fund address coins)
  | addPool {pool : Pool} (valid : pool.Valid) (added : ∃ c', addPool pool c = .ok () c') :
      Orderly c (.addPool pool)

def OrderlyRun (c : Chain) : List Event → Prop
  | [] => True
  | e :: rest => c.Orderly e ∧ OrderlyRun (after (perform e) c) rest

theorem run_nil (c : Chain) : run [] c = c := rfl

theorem run_cons (e : Event) (rest : List Event) (c : Chain) :
    run (e :: rest) c = run rest (after (perform e) c) := rfl

theorem run_append (events more : List Event) (c : Chain) :
    run (events ++ more) c = run more (run events c) := List.foldl_append

/-- What every event of a kind preserves, every run of such events does. -/
theorem run_invariant (invariant : Chain → Prop) {kind : Event → Prop}
    (preserves : ∀ {c e}, invariant c → kind e → invariant (after (perform e) c))
    {events : List Event} (he : ∀ e ∈ events, kind e) {c : Chain} (initial : invariant c) :
    invariant (run events c) := by
  induction events generalizing c with
  | nil => exact initial
  | cons e rest ih =>
      rw [List.forall_mem_cons] at he
      rw [run_cons]
      exact ih he.2 (preserves initial he.1)

/-! ## Soundness is kept -/

/-- What a confirmed half-swap leaves of the books. -/
structure Consumed (h : HalfSwap) (c c' : Chain) : Prop where
  terms : c.SameTerms c'
  registry : c.state.registry.Refilled c'.state.registry
  pending : c'.pending = c.pending.erase h
  provisions : c'.state.provisions = c.state.provisions.erase h.provision

theorem consumed_of_confirmed {h : HalfSwap} {c c' : Chain} (hc : Confirmed h c c')
    (hsound : c.state.registry.Sound) (hoffer : 0 ≤ h.offer.amount)
    (hp : ∀ p, c.state.provisions.get? h.provision = some p → p.Coherent) : Consumed h c c' := by
  obtain ⟨hterms, hpending, hprovisions⟩ := hc.dropped
  refine ⟨hterms, ?_, hpending, hprovisions⟩
  cases hc with
  | completed went traded waiting complete moved books =>
      have hfirst := traded.refilled hsound hoffer
      obtain ⟨pool', hcompleted⟩ := Provision.completed_of_complete complete
      have htaken : (Confirmation.taken _ h.provision).registry = _ := traded.books.registry
      have hnonneg := Provision.completion_nonneg (hp _ waiting)
      have hsecond := hcompleted.refilled hnonneg (htaken ▸ hfirst.sound hsound)
      rw [htaken] at hsecond
      have hregistry := books.registry
      dsimp only [State.savePool, Confirmation.taken] at hregistry
      rw [hregistry, traded.books.registry]
      exact hfirst.trans hsecond
  | refunded failed waiting moved books =>
      rw [books.registry]
      exact .refl hsound

theorem nextCall_fromUser {c : Chain} {sender : String} {funds : List Coin}
    (hsender : sender ≠ managerAddress) (hfunds : ∀ x ∈ funds, x.Valid) :
    (c.nextCall sender funds).FromUser := ⟨hsender, hfunds⟩

namespace Transacted

variable {c c' : Chain} {call : Call} {op : Operation} {order : DepositOrder} {pool : Pool}
  {coin : Coin} {sides : AssetPair} {q : SwapQuote} {st : Provision.Start} {l : Ledger}

theorem swap_provision (hb : order.Begins (c.funded l).state call pool coin sides q st) :
    st.swap.provision = call.transaction := by rw [hb.started.swap_eq]

/-- The half-swap that a deposit begins with has the provision that was kept. -/
theorem provision_noted (hb : order.Begins (c.funded l).state call pool coin sides q st)
    {p : Provision}
    (hp : (c.noted l call.transaction st.provision).state.provisions.get? st.swap.provision =
      some p) : p = st.provision := by
  dsimp only [noted] at hp
  rw [swap_provision hb, Table.get?_put, if_pos rfl, Option.some.injEq] at hp
  exact hp.symm

theorem consumed (hb : order.Begins (c.funded l).state call pool coin sides q st)
    (hc : Confirmed st.swap (c.noted l call.transaction st.provision) c')
    (hsound : c.state.registry.Sound) :
    Consumed st.swap (c.noted l call.transaction st.provision) c' :=
  consumed_of_confirmed hc hsound hb.offer_nonneg fun _ hp => provision_noted hb hp ▸ hb.coherent

theorem refilled (h : Transacted op call c c') (hsound : c.state.registry.Sound)
    (hfunds : ∀ x ∈ call.funds, 0 ≤ x.amount) : c.state.registry.Refilled c'.state.registry := by
  cases h with
  | settled paid settles moved books =>
      rw [books.registry]
      exact (settles.refills_pool hsound hfunds).save hsound (settles.stored hsound)
  | queued paid begins manual heq =>
      rw [heq]
      exact .refl hsound
  | confirmed paid begins auto confirmed => exact (consumed begins confirmed hsound).registry

theorem sound (h : Transacted op call c c') (hs : c.Sound) (hcall : call.FromUser) : c'.Sound := by
  have hregistry := (h.refilled hs.registry hcall.funds_nonneg).sound hs.registry
  cases h with
  | settled paid settles moved books =>
      have hqueue : SoundQueue c'.state.provisions c'.pending := by
        rw [books.provisions, books.pending]
        exact hs.queue
      exact ⟨books.config ▸ hs.collector, hregistry, hqueue,
        by rw [books.autoConfirm, books.pending]; exact hs.auto⟩
  | queued paid begins manual heq =>
      rename_i st
      have hid := swap_provision begins
      have hfresh : c.state.provisions.get? st.swap.provision = none := hid ▸ begins.fresh
      have hqueue := hs.queue.append hfresh (begins.matches_swap hs.registry) (begins.sound hcall)
      rw [hid] at hqueue
      have hmanual : (c.enqueued st.swap).autoConfirm ≠ true := by
        rw [enqueued, manual]
        exact Bool.false_ne_true
      rw [heq]
      exact ⟨hs.collector, hs.registry, hqueue, fun hauto => absurd hauto hmanual⟩
  | confirmed paid begins auto confirmed =>
      have hconsumed := consumed begins confirmed hs.registry
      have hempty : c'.pending = [] := by
        rw [hconsumed.pending, noted, hs.auto auto]
        rfl
      refine ⟨hconsumed.terms.config ▸ hs.collector, hregistry, ?_, fun _ => hempty⟩
      rw [hempty, hconsumed.provisions]
      exact .of_users ((hs.queue.users.put _ (begins.sound hcall)).erase _)

end Transacted

theorem sound_of_failed {c c' : Chain} (hs : c.Sound) (h : Failed c c') :
    (c'.rollback c.state).Sound := by
  obtain ⟨hterms, hprovisions, hpending⟩ := h
  have hsame : c'.pending = c.pending := by
    rcases hpending with hsame | ⟨hauto, x, herase⟩
    · exact hsame
    · rw [herase, hs.auto hauto]
      rfl
  refine ⟨hterms.config ▸ hs.collector, hs.registry, ?_, fun hauto => ?_⟩
  · dsimp only [rollback]
    rw [hprovisions, hsame]
    exact hs.queue
  · exact hsame.trans (hs.auto (hterms.autoConfirm ▸ hauto))

/-- Half-swaps wait only where they are not confirmed at once. -/
theorem Sound.manual {c : Chain} (hs : c.Sound) {h : HalfSwap} (hh : h ∈ c.pending) :
    c.autoConfirm ≠ true := by
  intro hauto
  rw [hs.auto hauto] at hh
  cases hh

theorem sound_of_dropped {c c' : Chain} {h : HalfSwap} (hs : c.Sound) (hh : h ∈ c.pending)
    (hd : Dropped h c c') : (c'.rollback c.state).Sound := by
  obtain ⟨hterms, hpending, hprovisions⟩ := hd
  refine ⟨hterms.config ▸ hs.collector, hs.registry, ?_, fun hauto => ?_⟩
  · dsimp only [rollback]
    rw [hpending, hprovisions]
    exact hs.queue.erase hh
  · exact absurd (hterms.autoConfirm ▸ hauto) (hs.manual hh)

theorem Sound.matches_waiting {c : Chain} (hs : c.Sound) {h : HalfSwap} (hh : h ∈ c.pending)
    (p : Provision) (hp : c.state.provisions.get? h.provision = some p) :
    h.Matches p ∧ p.Sound := by
  obtain ⟨x, hx, hm⟩ := hs.queue.waiting h hh
  rw [hx, Option.some.injEq] at hp
  exact hp ▸ ⟨hm, hs.queue.users _ _ hx⟩

theorem Sound.consumed {c c' : Chain} (hs : c.Sound) {h : HalfSwap} (hh : h ∈ c.pending)
    (hc : Confirmed h c c') : Consumed h c c' := by
  obtain ⟨p, hp, hm⟩ := hs.queue.waiting h hh
  have hoffer : 0 ≤ h.offer.amount := hm.offer ▸ (hs.queue.users _ _ hp).offerHalf
  exact consumed_of_confirmed hc hs.registry hoffer fun p' hp' =>
    (hs.queue.users _ _ hp').toCoherent

theorem sound_of_confirmed {c c' : Chain} {h : HalfSwap} (hs : c.Sound) (hh : h ∈ c.pending)
    (hc : Confirmed h c c') : c'.Sound := by
  obtain ⟨hterms, hregistry, hpending, hprovisions⟩ := hs.consumed hh hc
  refine ⟨hterms.config ▸ hs.collector, hregistry.sound hs.registry, ?_, ?_⟩
  · rw [hpending, hprovisions]
    exact hs.queue.erase hh
  · intro hauto
    exact absurd (hterms.autoConfirm ▸ hauto) (hs.manual hh)

theorem sameBooks_fund (address : String) (coins : List Coin) (c : Chain) :
    c.SameBooks (after (perform (.fund address coins)) c) := sameBooks_withLedger _ c

/-- A pool that is added is kept, and the manager gets its balances. -/
theorem added_of_addPool {pool : Pool} {c c' : Chain} {u : Unit} (h : addPool pool c = .ok u c') :
    SameBooks { c with state := c.state.savePool pool } c' ∧
      c.state.ledger.Moved c'.state.ledger
        (gainOf managerAddress (pool.assets.filter fun x => 0 < x.amount))
        (fun d => Coin.total d (pool.assets.filter fun x => 0 < x.amount)) := by
  rw [addPool, Action.modify_bind] at h
  obtain ⟨l, hseed, rfl⟩ := withLedger_eq_ok.1 h
  obtain ⟨_, m, hmint, hrest⟩ := Action.bind_eq_ok.1 hseed
  rw [if_neg (Int.lt_irrefl 0)] at hrest
  obtain ⟨-, rfl⟩ := Action.pure_eq_ok.1 hrest
  exact ⟨⟨rfl, rfl, rfl, rfl, rfl, rfl⟩, moved_of_mintAll hmint⟩

/-! ## Along an event -/

/-- A pool that is added is kept, whether the manager gets all of its balances or not. -/
theorem registry_after_addPool (other : Pool) (c : Chain) :
    (after (perform (.addPool other)) c).state.registry = c.state.registry.save other := by
  rw [after_perform_addPool]
  exact (sameBooks_withLedger _ _).registry

theorem provisions_after_addPool (other : Pool) (c : Chain) :
    (after (perform (.addPool other)) c).state.provisions = c.state.provisions := by
  rw [after_perform_addPool]
  exact (sameBooks_withLedger _ _).provisions

theorem Sound.counted {c : Chain} (hs : c.Sound) : c.counted.Sound :=
  ⟨hs.collector, hs.registry, hs.queue, hs.auto⟩

structure SameSettings (c c' : Chain) : Prop where
  config : c'.state.config = c.state.config
  autoConfirm : c'.autoConfirm = c.autoConfirm

theorem SameTerms.settings {c c' : Chain} (h : c.SameTerms c') : c.SameSettings c' :=
  ⟨h.config, h.autoConfirm⟩

theorem Transacted.settings {c c' : Chain} {call : Call} {op : Operation} (hs : c.Sound)
    (h : Transacted op call c c') : c.SameSettings c' := by
  cases h with
  | settled paid settles moved books => exact ⟨books.config, books.autoConfirm⟩
  | queued paid begins manual heq =>
      rw [heq]
      exact ⟨rfl, rfl⟩
  | confirmed paid begins auto confirmed =>
      have hconsumed := consumed begins confirmed hs.registry
      exact ⟨hconsumed.terms.config, hconsumed.terms.autoConfirm⟩

theorem settings_after {c : Chain} (hs : c.Sound) {e : Event} (he : c.Orderly e) :
    c.SameSettings (after (perform e) c) := by
  cases he with
  | execute sender_ne funds_valid pays =>
      rename_i sender funds op
      rw [after_perform_execute]
      rcases after_execute sender funds op c with h | ⟨c', h, heq⟩
      · have hsettings := h.settings hs.counted
        exact ⟨hsettings.config, hsettings.autoConfirm⟩
      · rw [heq]
        exact ⟨h.terms.config, h.terms.autoConfirm⟩
  | runDeferred waiting =>
      rename_i h
      rw [after_perform_runDeferred]
      rcases after_runDeferred h c with ⟨-, hc⟩ | ⟨-, c', hd, heq⟩
      · exact (hs.consumed waiting hc).terms.settings
      · rw [heq]
        exact ⟨hd.terms.config, hd.terms.autoConfirm⟩
  | fund address_ne coins_valid => exact (sameBooks_fund _ _ c).sameTerms.settings
  | addPool valid added =>
      obtain ⟨c', hadd⟩ := added
      obtain ⟨hb, -⟩ := added_of_addPool hadd
      have hafter : after (perform (.addPool _)) c = c' := after_eq_of_ok hadd
      rw [hafter]
      exact ⟨hb.config, hb.autoConfirm⟩

/-- Apart from pools that are added, an event changes amounts of pools at most. -/
theorem refilled_after {c : Chain} (hs : c.Sound) {e : Event} (he : c.Orderly e)
    (hne : ∀ pool, e ≠ .addPool pool) :
    c.state.registry.Refilled (after (perform e) c).state.registry := by
  cases he with
  | execute sender_ne funds_valid pays =>
      rename_i sender funds op
      rw [after_perform_execute]
      rcases after_execute sender funds op c with h | ⟨c', h, heq⟩
      · exact h.refilled hs.registry fun x hx => (funds_valid x hx).2.1
      · rw [heq]
        exact .refl hs.registry
  | runDeferred waiting =>
      rename_i h
      rw [after_perform_runDeferred]
      rcases after_runDeferred h c with ⟨-, hc⟩ | ⟨-, c', hd, heq⟩
      · exact (hs.consumed waiting hc).registry
      · rw [heq]
        exact .refl hs.registry
  | fund address_ne coins_valid =>
      rename_i address coins
      rw [(sameBooks_fund address coins c).registry]
      exact .refl hs.registry
  | addPool valid added => exact absurd rfl (hne _)

theorem sound_after {c : Chain} (hs : c.Sound) {e : Event} (he : c.Orderly e) :
    (after (perform e) c).Sound := by
  cases he with
  | execute sender_ne funds_valid pays =>
      rename_i sender funds op
      have hcall := nextCall_fromUser (c := c) sender_ne funds_valid
      have hcounted := hs.counted
      rw [after_perform_execute]
      rcases after_execute sender funds op c with h | ⟨c', h, heq⟩
      · exact h.sound hcounted hcall
      · have hsound := sound_of_failed hcounted h
        rw [heq]
        exact hsound
  | runDeferred waiting =>
      rename_i h
      rw [after_perform_runDeferred]
      rcases after_runDeferred h c with ⟨-, hc⟩ | ⟨-, c', hd, heq⟩
      · exact sound_of_confirmed hs waiting hc
      · rw [heq]
        exact sound_of_dropped hs waiting hd
  | fund address_ne coins_valid =>
      rename_i address coins
      have hb := sameBooks_fund address coins c
      exact ⟨hb.config ▸ hs.collector, hb.registry ▸ hs.registry,
        by rw [hb.provisions, hb.pending]; exact hs.queue,
        by rw [hb.autoConfirm, hb.pending]; exact hs.auto⟩
  | addPool valid added =>
      obtain ⟨c', hadd⟩ := added
      obtain ⟨hb, -⟩ := added_of_addPool hadd
      have hafter : after (perform (.addPool _)) c = c' := after_eq_of_ok hadd
      rw [hafter]
      exact ⟨hb.config ▸ hs.collector, hb.registry ▸ hs.registry.save valid,
        by rw [hb.provisions, hb.pending]; exact hs.queue,
        by rw [hb.autoConfirm, hb.pending]; exact hs.auto⟩

theorem sound_run {c : Chain} (hs : c.Sound) {events : List Event} (h : c.OrderlyRun events) :
    (run events c).Sound := by
  induction events generalizing c with
  | nil => exact hs
  | cons e rest ih => exact ih (sound_after hs h.1) h.2

theorem settings_run {c : Chain} (hs : c.Sound) {events : List Event} (h : c.OrderlyRun events) :
    c.SameSettings (run events c) := by
  induction events generalizing c with
  | nil => exact ⟨rfl, rfl⟩
  | cons e rest ih =>
      have hfirst := settings_after hs h.1
      have hrest := ih (sound_after hs h.1) h.2
      exact ⟨hrest.config.trans hfirst.config, hrest.autoConfirm.trans hfirst.autoConfirm⟩

end Chain

end MarketMaker

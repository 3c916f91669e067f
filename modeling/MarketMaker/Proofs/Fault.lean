import MarketMaker.Proofs.Sequence

/-! # What fails with a fault of the domain

A swap that fails, and a ledger that cannot move what it is asked to, fail with a fault of the
domain and with nothing else. So the swap of a provision can always be undone and confirmed. -/

namespace MarketMaker

/-! ## Results -/

/-- A result that is there, or a fault of the domain. -/
def Result.OnlyFaults {α : Type} (x : Result α) : Prop := ∀ e, x = .error e → e.isFault = true

namespace Result.OnlyFaults

variable {α β : Type}

theorem ok (a : α) : OnlyFaults (.ok a : Result α) := fun _ h => nomatch h

theorem fail (cause : Fault) : OnlyFaults (MarketMaker.fail cause : Result α) := by
  intro e h
  cases h
  rfl

theorem bind_iff {x : Result α} {f : α → Result β} :
    (x >>= f).OnlyFaults ↔ x.OnlyFaults ∧ ∀ a, x = .ok a → (f a).OnlyFaults := by
  constructor
  · intro h
    refine ⟨fun e he => h e ?_, fun a ha e he => h e ?_⟩
    · rw [he]
      rfl
    · rw [ha]
      exact he
  · rintro ⟨hx, hf⟩ e he
    cases x with
    | error e' =>
        cases he
        exact hx e rfl
    | ok a => exact hf a rfl e he

theorem bind {x : Result α} {f : α → Result β} (hx : x.OnlyFaults)
    (hf : ∀ a, (f a).OnlyFaults) : (x >>= f).OnlyFaults :=
  bind_iff.2 ⟨hx, fun a _ => hf a⟩

theorem map {x : Result α} (hx : x.OnlyFaults) (f : α → β) : OnlyFaults (x.map f) := by
  intro e h
  cases x with
  | error e' =>
      cases h
      exact hx e rfl
  | ok a => cases h

theorem guarded {p : Prop} [Decidable p] {cause : Fault} {x : Result α}
    (hx : ¬p → x.OnlyFaults) : (if p then MarketMaker.fail cause else x).OnlyFaults := by
  by_cases h : p
  · rw [if_pos h]
    exact fail cause
  · rw [if_neg h]
    exact hx h

theorem foldlM {f : β → α → Result β} (hf : ∀ b a, (f b a).OnlyFaults) (items : List α) (b : β) :
    (items.foldlM f b).OnlyFaults := by
  induction items generalizing b with
  | nil => exact ok b
  | cons a rest ih => exact (hf b a).bind ih

end Result.OnlyFaults

open Result (OnlyFaults)

/-! ## Checked arithmetic -/

namespace Checked

theorem onlyFaults_sub (a b : Int) : OnlyFaults (sub a b) := .guarded fun _ => .ok _

theorem onlyFaults_div (a b : Int) : OnlyFaults (div a b) := .guarded fun _ => .ok _

theorem onlyFaults_divCeil (a b : Int) : OnlyFaults (divCeil a b) := .guarded fun _ => .ok _

theorem onlyFaults_add (a b : Int) : OnlyFaults (add a b) := .guarded fun _ => .ok _

theorem onlyFaults_narrow (a : Int) : OnlyFaults (narrow a) :=
  .guarded fun _ => .guarded fun _ => .ok a

theorem onlyFaults_mulDiv (a m b : Int) : OnlyFaults (mulDiv a m b) := onlyFaults_div _ _

/-- A power with an exponent below zero has no place in the domain. -/
theorem onlyFaults_power (a : Int) {n : Int} (hn : 0 ≤ n) : OnlyFaults (power a n) := by
  rw [power_of_nonneg hn]
  exact .ok _

end Checked

/-! ## Prices -/

namespace StableSwap

variable {n : Int} (solver : Solver) (amp : Int)

theorem onlyFaults_ann (hn : 0 ≤ n) : OnlyFaults (ann amp n) :=
  (Checked.onlyFaults_power n hn).map _

theorem onlyFaults_invariantFrom (ann : Int) (balances : List Int) (fuel : Nat) (d : Int) :
    OnlyFaults (invariantFrom solver amp ann n balances fuel d) := by
  induction fuel generalizing d with
  | zero => exact .fail _
  | succ fuel ih =>
      have hterm : OnlyFaults (productTerm n d balances) :=
        .foldlM (fun _ _ => Checked.onlyFaults_div _ _) balances d
      have hstep : OnlyFaults (invariantStep amp ann n balances d) :=
        hterm.bind fun _ => .guarded fun _ => .ok _
      refine hstep.bind fun next => ?_
      split
      · exact .ok next
      · exact ih next

theorem onlyFaults_invariantOf (hn : 0 ≤ n) (balances : List Int) :
    OnlyFaults (invariantOf solver amp n balances) := by
  unfold invariantOf
  split
  · exact .ok 0
  · exact (onlyFaults_ann amp hn).bind fun _ => onlyFaults_invariantFrom solver amp _ balances _ _

theorem onlyFaults_balanceFrom (c b d : Int) (fuel : Nat) (y : Int) :
    OnlyFaults (balanceFrom solver c b d fuel y) := by
  induction fuel generalizing y with
  | zero => exact .fail _
  | succ fuel ih =>
      have hstep : OnlyFaults (balanceStep c b d y) := .guarded fun _ => .ok _
      refine hstep.bind fun next => ?_
      split
      · exact .ok next
      · exact ih next

theorem onlyFaults_counterBalance (hn : 0 ≤ n) (offer ask amount : Int) (direction : Direction) :
    OnlyFaults (counterBalance solver n offer ask amount amp direction) := by
  have hmoved : OnlyFaults (moved offer ask amount direction) := by
    cases direction with
    | forward => exact .ok _
    | backward => exact .guarded fun _ => .ok _
  refine (onlyFaults_invariantOf solver amp hn _).bind fun d => hmoved.bind fun x => ?_
  refine (onlyFaults_ann amp hn).bind fun a => (Checked.onlyFaults_div _ _).bind fun c => ?_
  refine (Checked.onlyFaults_div _ _).bind fun c => (Checked.onlyFaults_div _ _).bind fun e => ?_
  exact onlyFaults_balanceFrom solver c (x + e) d _ d

end StableSwap

theorem GrossReturn.onlyFaults_net (gross : GrossReturn) (fees : FeeSchedule) :
    OnlyFaults (gross.net fees) :=
  (Checked.onlyFaults_sub _ _).bind fun _ => (Checked.onlyFaults_narrow _).bind fun _ => .ok _

theorem Market.onlyFaults_quote {m : Market} (hn : 0 ≤ m.n) (solver : Solver) (amount : Int)
    (curve : Curve) : OnlyFaults (m.quote solver amount curve) := by
  cases curve with
  | constantProduct =>
      refine Result.OnlyFaults.bind ?_ fun gross => gross.onlyFaults_net m.fees
      refine (Checked.onlyFaults_divCeil _ _).bind fun _ => (Checked.onlyFaults_sub _ _).bind ?_
      exact fun _ => (Checked.onlyFaults_div _ _).bind fun _ => .ok _
  | stableSwap amp =>
      refine Result.OnlyFaults.bind ?_ fun gross => gross.onlyFaults_net m.fees
      exact (StableSwap.onlyFaults_counterBalance solver amp hn _ _ _ _).bind fun _ => .ok _

theorem onlyFaults_grossAmount (fees : FeeSchedule) (net : Int) :
    OnlyFaults (grossAmount fees net) :=
  .bind (.guarded fun _ => .ok _) fun _ => .guarded fun _ => .ok _

theorem Market.onlyFaults_quoteOffer {m : Market} (hn : 0 ≤ m.n) (solver : Solver) (amount : Int)
    (curve : Curve) : OnlyFaults (m.quoteOffer solver amount curve) := by
  cases curve with
  | constantProduct =>
      refine (onlyFaults_grossAmount _ _).bind fun gross => .bind ?_ fun needed => ?_
      · exact (Checked.onlyFaults_sub _ _).bind fun _ => (Checked.onlyFaults_divCeil _ _).bind
          fun _ => Checked.onlyFaults_sub _ _
      · exact (Checked.onlyFaults_mulDiv _ _ _).bind fun _ => (Checked.onlyFaults_narrow _).bind
          fun _ => .ok _
  | stableSwap amp =>
      refine (onlyFaults_grossAmount _ _).bind fun gross => ?_
      refine (StableSwap.onlyFaults_counterBalance solver amp hn _ _ _ _).bind fun _ => ?_
      exact (Checked.onlyFaults_sub _ _).bind fun _ => (Checked.onlyFaults_narrow _).bind
        fun _ => .ok _

theorem Pool.onlyFaults_pair (p : Pool) (offer ask : String) : OnlyFaults (p.pair offer ask) := by
  have hindex (denom : String) : OnlyFaults (p.indexOf denom) := by
    unfold indexOf
    split
    · exact .ok _
    · exact .fail _
  exact .guarded fun _ => (hindex offer).bind fun _ => (hindex ask).bind fun _ => .ok _

theorem Pool.onlyFaults_quote (p : Pool) (solver : Solver) (offer : Coin) (ask : String) :
    OnlyFaults (p.quote solver offer ask) :=
  (p.onlyFaults_pair _ _).bind fun sides =>
    Market.onlyFaults_quote (m := p.market sides) (Int.natCast_nonneg _) _ _ _

theorem Pool.onlyFaults_quoteOffer (p : Pool) (solver : Solver) (ask : Coin) (offer : String) :
    OnlyFaults (p.quoteOffer solver ask offer) :=
  (p.onlyFaults_pair _ _).bind fun sides =>
    Market.onlyFaults_quoteOffer (m := p.market sides) (Int.natCast_nonneg _) _ _ _

theorem Registry.onlyFaults_get (r : Registry) (identifier : String) :
    OnlyFaults (r.get identifier) := by
  unfold get
  split
  · exact .ok _
  · exact .fail _

theorem Spread.onlyFaults_check (beliefPrice maxSpread : Option Ratio)
    (offer returned spread : Int) :
    OnlyFaults (Spread.check beliefPrice maxSpread offer returned spread) := by
  cases beliefPrice with
  | none => exact .guarded fun _ => .ok ()
  | some price =>
      have hdiv : OnlyFaults (price.divFloor offer) := .guarded fun _ => .ok _
      exact .guarded fun _ => hdiv.bind fun _ => .guarded fun _ => .ok ()

namespace SwapOrder

theorem onlyFaults_offerOf (call : Call) : OnlyFaults (offerOf call) := by
  unfold offerOf
  split
  · exact .guarded fun _ => .ok _
  · exact .fail _

theorem onlyFaults_newAssets (pool : Pool) (sides : AssetPair) (offer : Coin) (ask : String)
    (q : SwapQuote) : OnlyFaults (newAssets pool sides offer ask q) :=
  (Checked.onlyFaults_add _ _).bind fun _ => (Checked.onlyFaults_sub _ _).bind fun _ =>
    (Checked.onlyFaults_sub _ _).bind fun _ => .ok _

end SwapOrder

theorem onlyFaults_checkEnabled (enabled : Bool) (operation : String) :
    OnlyFaults (checkEnabled enabled operation) := by
  cases enabled with
  | true => exact .ok ()
  | false => exact .fail _

/-! ## Actions -/

/-- An action that fails with faults of the domain only. -/
def Action.OnlyFaults {σ α : Type} (x : Action σ α) : Prop :=
  ∀ s e t, x s = .error e t → e.isFault = true

namespace Action.OnlyFaults

variable {σ α β : Type}

theorem pure (a : α) : OnlyFaults (Pure.pure a : Action σ α) := fun _ _ _ h => nomatch h

theorem get : OnlyFaults (MonadState.get : Action σ σ) := fun _ _ _ h => nomatch h

theorem set (s : σ) : OnlyFaults (MonadStateOf.set s : Action σ PUnit) := fun _ _ _ h => nomatch h

theorem modify (f : σ → σ) : OnlyFaults (modify f : Action σ PUnit) :=
  fun _ _ _ h => nomatch h

theorem lift {x : Result α} (hx : x.OnlyFaults) : OnlyFaults (liftM x : Action σ α) := by
  intro s e t h
  cases x with
  | ok a => cases h
  | error e' =>
      cases h
      exact hx e rfl

theorem bind {x : Action σ α} {f : α → Action σ β} (hx : OnlyFaults x)
    (hf : ∀ a, OnlyFaults (f a)) : OnlyFaults (x >>= f) := by
  intro s e t h
  simp only [Bind.bind, EStateM.bind] at h
  split at h
  · exact hf _ _ _ _ h
  · rename_i hfirst
    cases h
    exact hx _ _ _ hfirst

end Action.OnlyFaults

/-- A swap that is refused is refused with a fault of the domain. -/
theorem SwapOrder.onlyFaults_run (order : SwapOrder) (call : Call) :
    (order.run call).OnlyFaults := by
  refine .bind .get fun s => .bind (.lift (onlyFaults_checkEnabled _ _)) fun _ => ?_
  refine .bind (.lift (onlyFaults_offerOf call)) fun offer => ?_
  refine .bind (.lift (Registry.onlyFaults_get _ _)) fun pool => ?_
  refine .bind (.lift (pool.onlyFaults_pair _ _)) fun sides => ?_
  have hquote := Market.onlyFaults_quote (m := pool.market sides) (Int.natCast_nonneg _)
    s.config.solver offer.amount pool.curve
  refine .bind (.lift hquote) fun q => ?_
  refine .bind (.lift (Spread.onlyFaults_check _ _ _ _ _)) fun _ => ?_
  refine .bind (.lift (onlyFaults_newAssets _ _ _ _ _)) fun assets => ?_
  exact .bind (.modify _) fun _ => .pure _

namespace Ledger

open MarketMaker.Action (OnlyFaults)

theorem onlyFaults_credit (address denom : String) (amount : Int) :
    OnlyFaults (credit address denom amount) :=
  .bind .get fun _ => .bind (.lift (Checked.onlyFaults_add _ _)) fun _ => .set _

theorem onlyFaults_debit (address denom : String) (amount : Int) :
    OnlyFaults (debit address denom amount) :=
  .bind .get fun _ => .bind (.lift (Checked.onlyFaults_sub _ _)) fun _ => .set _

theorem onlyFaults_mint (address denom : String) (amount : Int) :
    OnlyFaults (mint address denom amount) :=
  .bind .get fun _ => .bind (.lift (Checked.onlyFaults_add _ _)) fun _ =>
    .bind (.set _) fun _ => onlyFaults_credit _ _ _

theorem onlyFaults_burn (address denom : String) (amount : Int) :
    OnlyFaults (burn address denom amount) :=
  .bind (onlyFaults_debit _ _ _) fun _ => .bind .get fun _ =>
    .bind (.lift (Checked.onlyFaults_sub _ _)) fun _ => .set _

theorem onlyFaults_burnAll (address : String) (coins : List Coin) :
    OnlyFaults (burnAll address coins) := by
  induction coins with
  | nil => exact .pure ()
  | cons c rest ih => exact .bind (onlyFaults_burn _ _ _) fun _ => ih

theorem onlyFaults_transfer (source target : String) (coins : List Coin) :
    OnlyFaults (transfer source target coins) := by
  induction coins with
  | nil => exact .pure ()
  | cons c rest ih =>
      exact .bind (onlyFaults_debit _ _ _) fun _ => .bind (onlyFaults_credit _ _ _) fun _ => ih

theorem onlyFaults_lock (identifier receiver : String) (asset : Coin) (duration : Int) :
    OnlyFaults (lock identifier receiver asset duration) := by
  have hsum (existing : Option Position) : Result.OnlyFaults (lockedAsset existing asset) := by
    cases existing with
    | none => exact .ok asset
    | some p => exact (Checked.onlyFaults_add _ _).map _
  exact .bind .get fun _ => .bind (.lift (hsum _)) fun _ => .bind (.set _) fun _ => .pure _

end Ledger

namespace Chain

open MarketMaker.Action (OnlyFaults)

theorem onlyFaults_withLedger {α : Type} {action : Action Ledger α} (h : OnlyFaults action) :
    OnlyFaults (withLedger action) := by
  intro c e c' he
  unfold withLedger at he
  split at he
  · cases he
  · rename_i herror
    cases he
    exact h _ _ _ herror

theorem onlyFaults_withState {α : Type} {action : Action State α} (h : OnlyFaults action) :
    OnlyFaults (withState action) := by
  intro c e c' he
  unfold withState at he
  split at he
  · cases he
  · rename_i herror
    cases he
    exact h _ _ _ herror

theorem onlyFaults_positionName (identifier : Option String) :
    OnlyFaults (positionName identifier) := by
  intro c e c' he
  cases identifier <;> cases he

theorem onlyFaults_applyEffect (effect : Effect) : OnlyFaults (applyEffect effect) := by
  cases effect with
  | send recipient coins => exact onlyFaults_withLedger (Ledger.onlyFaults_transfer _ _ _)
  | burn coins => exact onlyFaults_withLedger (Ledger.onlyFaults_burnAll _ _)
  | mintShare denom amount recipient => exact onlyFaults_withLedger (Ledger.onlyFaults_mint _ _ _)
  | burnShare denom amount => exact onlyFaults_withLedger (Ledger.onlyFaults_burn _ _ _)
  | lock service expands receiver asset identifier duration =>
      refine .bind (onlyFaults_withLedger (Ledger.onlyFaults_transfer _ _ _)) fun _ => ?_
      refine .bind (onlyFaults_positionName identifier) fun name => ?_
      exact .bind (onlyFaults_withLedger (Ledger.onlyFaults_lock _ _ _ _)) fun _ => .pure ()

theorem onlyFaults_applyEffects (effects : List Effect) : OnlyFaults (applyEffects effects) := by
  induction effects with
  | nil => exact .pure ()
  | cons e rest ih => exact .bind (onlyFaults_applyEffect e) fun _ => ih

theorem onlyFaults_trade (h : HalfSwap) : OnlyFaults (trade h) :=
  .bind (onlyFaults_withState (SwapOrder.onlyFaults_run _ _)) fun _ => onlyFaults_applyEffects _

/-- A half-swap is always traded or undone. -/
theorem exists_tryTrade (h : HalfSwap) (c : Chain) :
    ∃ success c', tryTrade h c = .ok success c' := by
  unfold tryTrade
  cases htrade : trade h c with
  | ok u c' => exact ⟨true, c', rfl⟩
  | error e c' =>
      have hfault := onlyFaults_trade h c e c' htrade
      cases e with
      | fault cause => exact ⟨false, c'.rollback c.state, rfl⟩
      | _ => cases hfault

end Chain

end MarketMaker

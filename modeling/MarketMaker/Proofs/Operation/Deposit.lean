import MarketMaker.Operation.Deposit
import MarketMaker.Proofs.Movement
import MarketMaker.Proofs.Reserve

/-! # What a deposit of several assets does

The pool records what the deposit brings, and all that is moved are shares of the pool. -/

namespace MarketMaker.Deposit

open Ledger

/-! ## The new record -/

/-- Where each denom comes once, a deposit brings its total. -/
theorem amountOf_eq_total {d : Deposit} (hn : (d.coins.map Coin.denom).Nodup) (denom : String) :
    d.amountOf denom = Coin.total denom d.coins := by
  unfold amountOf
  cases h : d.coins.reverse.find? fun c => c.denom = denom with
  | none =>
      have habsent : denom ∉ d.coins.map Coin.denom := by
        intro hm
        obtain ⟨c, hc, hd⟩ := List.mem_map.1 hm
        have hno := List.find?_eq_none.1 h c (List.mem_reverse.2 hc)
        simp [hd] at hno
      rw [Coin.total_of_not_mem habsent]
      rfl
  | some c =>
      have hd : c.denom = denom := by simpa using List.find?_some h
      have hc : c ∈ d.coins := List.mem_reverse.1 (List.mem_of_find?_eq_some h)
      rw [← hd, Coin.total_of_mem hn hc]
      rfl

theorem amountOf_nonneg {d : Deposit} (h : ∀ c ∈ d.coins, 0 ≤ c.amount) (denom : String) :
    0 ≤ d.amountOf denom := by
  unfold amountOf
  cases hfind : d.coins.reverse.find? fun c => c.denom = denom with
  | none => exact Int.le_refl 0
  | some c => exact h c (List.mem_reverse.1 (List.mem_of_find?_eq_some hfind))

def grownAssets (d : Deposit) (pool : Pool) : List Coin :=
  pool.assets.map fun c => ⟨c.denom, c.amount + d.amountOf c.denom⟩

private theorem sums_eq_ok {f : String → Int} {assets out : List Coin}
    (h : (List.zip assets ((assets.map Coin.denom).map f)).mapM (fun e =>
      (Checked.add e.1.amount e.2).map fun sum => (⟨e.1.denom, sum⟩ : Coin)) = .ok out) :
    out = (assets.map fun c => ⟨c.denom, c.amount + f c.denom⟩) ∧
      ∀ c ∈ assets, c.amount + f c.denom ≤ maxAmount := by
  induction assets generalizing out with
  | nil =>
      cases h
      exact ⟨rfl, fun _ hc => nomatch hc⟩
  | cons c rest ih =>
      simp only [List.map_cons, List.zip_cons_cons] at h
      obtain ⟨_, more, hadd, hmore, rfl⟩ := Result.mapM_cons_eq_ok.1 h
      obtain ⟨_, hsum, rfl⟩ := Result.map_eq_ok.1 hadd
      obtain ⟨hle, rfl⟩ := Checked.add_eq_ok_iff.1 hsum
      obtain ⟨rfl, hrest⟩ := ih hmore
      exact ⟨rfl, List.forall_mem_cons.2 ⟨hle, hrest⟩⟩

theorem newAssets_eq_ok {d : Deposit} {pool : Pool} {out : List Coin}
    (h : newAssets pool (d.amounts pool) = .ok out) :
    out = d.grownAssets pool ∧ ∀ c ∈ pool.assets, c.amount + d.amountOf c.denom ≤ maxAmount :=
  sums_eq_ok h

private theorem total_grown (f : String → Int) (denom : String) {assets : List Coin}
    (hn : (assets.map Coin.denom).Nodup) :
    Coin.total denom (assets.map fun c => ⟨c.denom, c.amount + f c.denom⟩) =
      Coin.total denom assets + if denom ∈ assets.map Coin.denom then f denom else 0 := by
  induction assets with
  | nil => rfl
  | cons c rest ih =>
      simp only [List.map_cons, List.nodup_cons] at hn
      rw [List.map_cons, Coin.total_cons, Coin.total_cons, ih hn.2]
      by_cases hd : c.denom = denom
      · subst hd
        simp only [ite_true, hn.1, ite_false, List.map_cons, List.mem_cons, true_or]
        omega
      · have hne : denom ≠ c.denom := fun he => hd he.symm
        simp only [hd, ite_false, List.map_cons, List.mem_cons, hne, false_or]
        omega

/-- A pool records the coins of a deposit that it holds. -/
theorem total_grownAssets {d : Deposit} {pool : Pool} (hpool : pool.denoms.Nodup)
    (hn : (d.coins.map Coin.denom).Nodup) (hd : ∀ c ∈ d.coins, c.denom ∈ pool.denoms)
    (denom : String) :
    Coin.total denom (d.grownAssets pool) = pool.reserve denom + Coin.total denom d.coins := by
  rw [grownAssets, total_grown _ _ hpool, amountOf_eq_total hn, Pool.reserve]
  by_cases h : denom ∈ pool.assets.map Coin.denom
  · rw [if_pos h]
  · have habsent : denom ∉ d.coins.map Coin.denom := by
      intro hm
      obtain ⟨c, hc, rfl⟩ := List.mem_map.1 hm
      exact h (hd c hc)
    rw [if_neg h, Coin.total_of_not_mem habsent]

/-! ## What is issued -/

/-- Who gets the shares of a deposit: the receiver, or the service that locks them. -/
def holder (d : Deposit) (config : Config) : String :=
  if d.unlockingDuration.isSome then config.farmManager else d.receiver

theorem gains_lockedEffects (pool : Pool) (supply : Int) (a denom : String) :
    Effect.gains (lockedEffects pool supply) a denom =
      if supply = 0 then single managerAddress ⟨pool.lpDenom, Share.minimumLiquidity⟩ a denom
      else 0 := by
  unfold lockedEffects
  split
  · simp [Effect.gains_cons, Effect.gains_nil, Effect.gain]
  · rfl

theorem issues_lockedEffects (pool : Pool) (supply : Int) (denom : String) :
    Effect.issues (lockedEffects pool supply) denom =
      if supply = 0 ∧ pool.lpDenom = denom then Share.minimumLiquidity else 0 := by
  unfold lockedEffects
  by_cases h : supply = 0
  · simp [h, Effect.issues_cons, Effect.issues_nil, Effect.issue]
  · simp [h, Effect.issues_nil]

/-- Shares that are locked only pass through the manager. -/
theorem gains_shareEffects {d : Deposit} {s : State} {pool : Pool} {share : Int}
    {issued : List Effect} (h : d.shareEffects s pool share = .ok issued) (a denom : String) :
    Effect.gains issued a denom = single (d.holder s.config) ⟨pool.lpDenom, share⟩ a denom := by
  unfold shareEffects at h
  cases hduration : d.unlockingDuration with
  | none =>
      rw [hduration] at h
      cases h
      simp [holder, hduration, Effect.gains_cons, Effect.gains_nil, Effect.gain]
  | some duration =>
      rw [hduration] at h
      obtain ⟨existing, -, hissued⟩ := Result.bind_eq_ok.1 h
      cases hissued
      simp only [holder, hduration, Option.isSome_some, ite_true, Effect.gains_cons,
        Effect.gains_nil, Effect.gain, gainOf_cons, gainOf_nil]
      omega

theorem issues_shareEffects {d : Deposit} {s : State} {pool : Pool} {share : Int}
    {issued : List Effect} (h : d.shareEffects s pool share = .ok issued) (denom : String) :
    Effect.issues issued denom = if pool.lpDenom = denom then share else 0 := by
  unfold shareEffects at h
  split at h
  · cases h
    simp [Effect.issues_cons, Effect.issues_nil, Effect.issue]
  · obtain ⟨existing, -, hissued⟩ := Result.bind_eq_ok.1 h
    cases hissued
    simp [Effect.issues_cons, Effect.issues_nil, Effect.issue]

/-! ## The outcome -/

theorem share_eq_ok {solver : Solver} {pool : Pool} {deposits balances : List Int}
    {supply share : Int} (h : Deposit.share solver pool deposits balances supply = .ok share) :
    share ≠ 0 ∧
      (if supply = 0 then Share.initial solver deposits pool.curve
        else laterShare solver deposits balances supply pool.curve) = .ok share := by
  unfold Deposit.share at h
  split at h
  · rename_i hzero
    simp only [Result.bind_eq_ok, Result.guarded_eq_ok, Except.ok.injEq] at h
    obtain ⟨_, hshare, hne, rfl⟩ := h
    exact ⟨hne, by rw [if_pos hzero, hshare]⟩
  · rename_i hzero
    simp only [Result.bind_eq_ok, Result.guarded_eq_ok, Except.ok.injEq] at h
    obtain ⟨_, hshare, hne, rfl⟩ := h
    exact ⟨hne, by rw [if_neg hzero, hshare]⟩

theorem share_nonneg {solver : Solver} {pool : Pool} {deposits balances : List Int}
    {supply share : Int} (h : Deposit.share solver pool deposits balances supply = .ok share) :
    0 ≤ share := by
  obtain ⟨-, h⟩ := share_eq_ok h
  split at h
  · simp only [Share.initial, Result.bind_eq_ok, Result.guarded_eq_ok,
      Checked.narrow_eq_ok_iff] at h
    obtain ⟨_, -, -, hnonneg, -, rfl⟩ := h
    exact hnonneg
  · cases hcurve : pool.curve with
    | constantProduct =>
        simp only [hcurve, laterShare, Share.constantProduct, Result.guarded_eq_ok,
          Result.bind_eq_ok] at h
        obtain ⟨-, shares, -, h⟩ := h
        split at h
        · cases h
        · obtain ⟨hnonneg, -, rfl⟩ := Checked.narrow_eq_ok_iff.1 h
          exact hnonneg
    | stableSwap amp =>
        simp only [hcurve, laterShare, Share.stableSwap?, Result.bind_eq_ok] at h
        obtain ⟨_, ⟨_, -, _, -, hshare⟩, h⟩ := h
        split at hshare
        · cases hshare
          cases h
        · simp only [Result.bind_eq_ok, Checked.narrow_eq_ok_iff, Except.ok.injEq] at hshare
          obtain ⟨_, -, _, ⟨hnonneg, -, rfl⟩, rfl⟩ := hshare
          cases h
          exact hnonneg

/-- A deposit that was accepted, with all that its outcome depends on. -/
structure Accepted (d : Deposit) (s : State) (pool : Pool) (deposits balances : List Int)
    (share : Int) (issued : List Effect) (o : Outcome) : Prop where
  deposits_eq : curveAmounts pool (d.amounts pool) = .ok deposits
  balances_eq : curveAmounts pool pool.balances = .ok balances
  share_eq : Deposit.share s.config.solver pool deposits balances (s.shareSupply pool) = .ok share
  slippage : Share.checkSlippage d.slippageTolerance
    ⟨deposits, balances, share, s.shareSupply pool⟩ pool.curve = .ok ()
  issued_eq : d.shareEffects s pool share = .ok issued
  fits : ∀ c ∈ pool.assets, c.amount + d.amountOf c.denom ≤ maxAmount
  pool_eq : o.pool = pool.withAssets (d.grownAssets pool)
  effects_eq : o.settlement.effects = lockedEffects pool (s.shareSupply pool) ++ issued

variable {d : Deposit} {s s' : State} {pool : Pool} {o : Outcome}

/-- A deposit that succeeds was accepted, and all that it changes is the record of its pool. -/
theorem settled_of_run (h : d.run pool s = .ok o s') :
    (∃ deposits balances share issued, d.Accepted s pool deposits balances share issued o) ∧
      s' = s.savePool o.pool := by
  simp only [run, Action.get_bind, Action.lift_bind_eq_ok, State.keepPool_bind,
    Action.pure_eq_ok] at h
  obtain ⟨deposits, hdeposits, balances, hbalances, share, hshare, _, hslippage, issued, hissued,
    assets, hassets, rfl, rfl⟩ := h
  obtain ⟨rfl, hfits⟩ := newAssets_eq_ok hassets
  exact ⟨⟨deposits, balances, share, issued, hdeposits, hbalances, hshare, hslippage, hissued,
    hfits, rfl, rfl⟩, rfl⟩

theorem accepted_of_run (h : d.run pool s = .ok o s') :
    ∃ deposits balances share issued, d.Accepted s pool deposits balances share issued o :=
  (settled_of_run h).1

theorem state_of_run (h : d.run pool s = .ok o s') : s' = s.savePool o.pool :=
  (settled_of_run h).2

theorem keepsOnError_run (d : Deposit) (pool : Pool) : (d.run pool).KeepsOnError := by
  refine .get_bind fun s => .lift_bind fun deposits => .lift_bind fun balances => ?_
  refine .lift_bind fun share => .lift_bind fun _ => .lift_bind fun issued => ?_
  exact .lift_bind fun assets => State.keepsOnError_keepPool _ _

namespace Accepted

variable {deposits balances : List Int} {share : Int} {issued : List Effect}

theorem share_pos (h : d.Accepted s pool deposits balances share issued o) : 0 < share := by
  have hnonneg := share_nonneg h.share_eq
  have hne := (share_eq_ok h.share_eq).1
  omega

theorem refills (h : d.Accepted s pool deposits balances share issued o) (hpool : pool.Valid)
    (hd : ∀ denom, 0 ≤ d.amountOf denom) : pool.Refills (d.grownAssets pool) where
  denoms := by
    rw [grownAssets, List.map_map]
    rfl
  amounts := by
    intro c hc
    obtain ⟨x, hx, rfl⟩ := List.mem_map.1 hc
    exact ⟨Int.add_nonneg (hpool.assets_valid x hx).2.1 (hd x.denom), h.fits x hx⟩

/-- The shares go to their holder, and the locked minimum to the manager. -/
theorem gains_eq (h : d.Accepted s pool deposits balances share issued o) (a denom : String) :
    Effect.gains o.settlement.effects a denom =
      (if s.shareSupply pool = 0 then
        single managerAddress ⟨pool.lpDenom, Share.minimumLiquidity⟩ a denom else 0) +
        single (d.holder s.config) ⟨pool.lpDenom, share⟩ a denom := by
  rw [h.effects_eq, Effect.gains_append, gains_lockedEffects, gains_shareEffects h.issued_eq]

theorem single_le_gains (h : d.Accepted s pool deposits balances share issued o)
    (a denom : String) : single (d.holder s.config) ⟨pool.lpDenom, share⟩ a denom ≤
      Effect.gains o.settlement.effects a denom := by
  have hminimum : 0 ≤ single managerAddress ⟨pool.lpDenom, Share.minimumLiquidity⟩ a denom :=
    single_nonneg managerAddress (by decide : 0 ≤ Share.minimumLiquidity) a denom
  rw [h.gains_eq]
  split <;> omega

/-- Shares apart, a deposit moves nothing. -/
theorem gains_eq_zero (h : d.Accepted s pool deposits balances share issued o) (a : String)
    {denom : String} (hne : pool.lpDenom ≠ denom) :
    Effect.gains o.settlement.effects a denom = 0 := by
  rw [h.gains_eq]
  simp [single, hne]

/-- The shares of the deposit are issued, and the locked minimum with the first of them. -/
theorem issues_eq (h : d.Accepted s pool deposits balances share issued o) (denom : String) :
    Effect.issues o.settlement.effects denom =
      if pool.lpDenom = denom then
        share + if s.shareSupply pool = 0 then Share.minimumLiquidity else 0
      else 0 := by
  rw [h.effects_eq, Effect.issues_append, issues_lockedEffects, issues_shareEffects h.issued_eq]
  by_cases hne : pool.lpDenom = denom
  · simp only [hne, and_true, ite_true]
    omega
  · simp only [hne, and_false, ite_false]
    rfl

/-- What the pool records of one of its denoms grows by what the deposit brings of it. -/
theorem reserve_eq_add (h : d.Accepted s pool deposits balances share issued o)
    (hpool : pool.denoms.Nodup) (denom : String) :
    o.pool.reserve denom =
      pool.reserve denom + if denom ∈ pool.denoms then d.amountOf denom else 0 := by
  rw [h.pool_eq, Pool.reserve_withAssets, grownAssets, total_grown _ _ hpool]
  rfl

theorem issues_eq_share (h : d.Accepted s pool deposits balances share issued o)
    (hsupply : s.shareSupply pool ≠ 0) :
    Effect.issues o.settlement.effects pool.lpDenom = share := by
  rw [h.issues_eq, if_pos rfl, if_neg hsupply, Int.add_zero]

theorem reserve_eq (h : d.Accepted s pool deposits balances share issued o)
    (hpool : pool.denoms.Nodup) (hn : (d.coins.map Coin.denom).Nodup)
    (hd : ∀ c ∈ d.coins, c.denom ∈ pool.denoms) (denom : String) :
    o.pool.reserve denom = pool.reserve denom + Coin.total denom d.coins := by
  rw [h.pool_eq, Pool.reserve_withAssets, total_grownAssets hpool hn hd]

end Accepted

end MarketMaker.Deposit

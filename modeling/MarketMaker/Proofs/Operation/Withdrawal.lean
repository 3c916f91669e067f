import MarketMaker.Operation.Withdrawal
import MarketMaker.Proofs.Movement
import MarketMaker.Proofs.Reserve
import MarketMaker.Proofs.Rounding

/-! # What a withdrawal does

Each asset is split into what is paid and what stays; the paid parts leave the manager, and the
shares are burned. -/

namespace MarketMaker.Withdrawal

open Ledger

def part (supply amount : Int) (c : Coin) : Coin := ⟨c.denom, (c.amount * amount).fdiv supply⟩

def kept (supply amount : Int) (c : Coin) : Coin :=
  ⟨c.denom, c.amount - (c.amount * amount).fdiv supply⟩

theorem split_eq_ok {assets : List Coin} {amount supply : Int} {parts : List (Coin × Coin)}
    (h : split assets amount supply = .ok parts) :
    parts = (assets.map fun c => (part supply amount c, kept supply amount c)) ∧
      ∀ c ∈ assets, (part supply amount c).amount ≤ c.amount := by
  induction assets generalizing parts with
  | nil =>
      cases h
      exact ⟨rfl, fun _ hc => nomatch hc⟩
  | cons c rest ih =>
      obtain ⟨e, more, he, hmore, rfl⟩ := Result.mapM_cons_eq_ok.1 h
      obtain ⟨rfl, hrest⟩ := ih hmore
      simp only [refund, Withdrawal.rest, Checked.mulDiv, Result.bind_eq_ok, Result.map_eq_ok,
        Checked.div_eq_ok_iff, Checked.sub_eq_ok_iff, Except.ok.injEq] at he
      obtain ⟨_, ⟨_, ⟨-, rfl⟩, rfl⟩, _, ⟨_, ⟨hle, rfl⟩, rfl⟩, rfl⟩ := he
      exact ⟨rfl, List.forall_mem_cons.2 ⟨hle, hrest⟩⟩

/-- No part of the shares is worth more of an asset than there is. -/
theorem part_le {supply amount : Int} (hle : amount ≤ supply) (hpos : 0 < supply) {c : Coin}
    (hc : 0 ≤ c.amount) : (part supply amount c).amount ≤ c.amount := by
  have hwhole : c.amount * amount ≤ c.amount * supply := Int.mul_le_mul_of_nonneg_left hle hc
  have hbelow : (c.amount * amount).fdiv supply < c.amount + 1 := by
    rw [fdiv_lt_iff hpos, Int.add_mul, Int.one_mul]
    omega
  exact Int.le_of_lt_add_one hbelow

theorem exists_split {assets : List Coin} {amount supply : Int} (hle : amount ≤ supply)
    (hpos : 0 < supply) (h : ∀ c ∈ assets, 0 ≤ c.amount) :
    ∃ parts, split assets amount supply = .ok parts := by
  induction assets with
  | nil => exact ⟨_, rfl⟩
  | cons c rest ih =>
      rw [List.forall_mem_cons] at h
      obtain ⟨parts, hparts⟩ := ih h.2
      have hpaid : refund c amount supply = .ok (part supply amount c) :=
        Result.map_eq_ok.2 ⟨_, Checked.mulDiv_eq_ok_iff.2 ⟨Int.ne_of_gt hpos, rfl⟩, rfl⟩
      have hleft : Withdrawal.rest c (part supply amount c) = .ok (kept supply amount c) :=
        Result.map_eq_ok.2 ⟨_, Checked.sub_eq_ok_iff.2 ⟨part_le hle hpos h.1, rfl⟩, rfl⟩
      refine ⟨(part supply amount c, kept supply amount c) :: parts,
        Result.mapM_cons_eq_ok.2 ⟨_, parts, ?_, hparts, rfl⟩⟩
      exact Result.bind_eq_ok.2 ⟨_, hpaid, Result.bind_eq_ok.2 ⟨_, hleft, rfl⟩⟩

theorem total_kept (supply amount : Int) (denom : String) (assets : List Coin) :
    Coin.total denom (assets.map (kept supply amount)) +
        Coin.total denom (assets.map (part supply amount)) = Coin.total denom assets := by
  induction assets with
  | nil => rfl
  | cons c rest ih =>
      rw [List.map_cons, List.map_cons, Coin.total_cons, Coin.total_cons, Coin.total_cons, ← ih]
      by_cases hd : c.denom = denom
      · simp only [kept, part, hd, ite_true]
        omega
      · simp only [kept, part, hd, ite_false]
        omega

/-- What is paid of a denom is the part of what there is of it. -/
theorem total_part {assets : List Coin} (hn : (assets.map Coin.denom).Nodup)
    (supply amount : Int) (denom : String) :
    Coin.total denom (assets.map (part supply amount)) =
      (Coin.total denom assets * amount).fdiv supply := by
  have hdenoms : (assets.map (part supply amount)).map Coin.denom = assets.map Coin.denom := by
    rw [List.map_map]
    rfl
  by_cases h : denom ∈ assets.map Coin.denom
  · obtain ⟨c, hc, rfl⟩ := List.mem_map.1 h
    rw [Coin.total_of_mem hn hc]
    exact Coin.total_of_mem (hdenoms ▸ hn) (List.mem_map_of_mem hc)
  · rw [Coin.total_of_not_mem h, Coin.total_of_not_mem (hdenoms ▸ h), Int.zero_mul, Int.zero_fdiv]

def payments (pool : Pool) (supply amount : Int) : List Coin :=
  (pool.assets.map (part supply amount)).filter fun c => 0 < c.amount

/-- A withdrawal that went through, with all that its outcome depends on. -/
structure Paid (identifier : String) (s : State) (call : Call) (pool : Pool) (amount : Int)
    (o : Outcome) : Prop where
  stored : s.registry.get? identifier = some pool
  funds : call.funds = [⟨pool.lpDenom, amount⟩]
  amount_ne : amount ≠ 0
  amount_le : amount ≤ s.shareSupply pool
  fits : ∀ c ∈ pool.assets, (part (s.shareSupply pool) amount c).amount ≤ c.amount
  pool_eq : o.pool = pool.withAssets (pool.assets.map (kept (s.shareSupply pool) amount))
  effects_eq : o.settlement.effects =
    (if payments pool (s.shareSupply pool) amount = [] then []
      else [.send call.sender (payments pool (s.shareSupply pool) amount)]) ++
      [.burnShare pool.lpDenom amount]

theorem burned_eq_ok {call : Call} {pool : Pool} {supply amount : Int}
    (h : burned call pool supply = .ok amount) :
    call.funds = [⟨pool.lpDenom, amount⟩] ∧ amount ≠ 0 ∧ amount ≤ supply := by
  unfold burned at h
  split at h
  · rename_i c hc
    split at h
    · cases h
    · rename_i hnot
      simp only [not_or, ne_eq, Decidable.not_not, Int.not_lt] at hnot
      obtain ⟨hdenom, hne, hle⟩ := hnot
      cases h
      exact ⟨hdenom ▸ hc, hne, hle⟩
  · cases h

variable {identifier : String} {s s' : State} {call : Call} {o : Outcome}

/-- What a withdrawal comes to, given each asset's payment and what stays of it. -/
def settled (identifier : String) (call : Call) (pool : Pool) (amount : Int)
    (parts : List (Coin × Coin)) : Outcome :=
  let paid := (parts.map Prod.fst).filter fun c => 0 < c.amount
  let refunds := if paid = [] then [] else [.send call.sender paid]
  ⟨pool.withAssets (parts.map Prod.snd), refunds ++ [.burnShare pool.lpDenom amount],
    attributes call identifier amount paid⟩

/-- A withdrawal succeeds exactly if the shares can be burned and split, and all that it changes is
the record of its pool. -/
theorem run_eq_ok_iff : run identifier call s = .ok o s' ↔
    (∃ pool amount parts, s.config.withdrawalsEnabled = true ∧
      s.registry.get? identifier = some pool ∧ burned call pool (s.shareSupply pool) = .ok amount ∧
        split pool.assets amount (s.shareSupply pool) = .ok parts ∧
          o = settled identifier call pool amount parts) ∧ s' = s.savePool o.pool := by
  simp only [run, Action.get_bind, Action.lift_bind_eq_ok, checkEnabled_eq_ok, State.pool,
    Registry.get_eq_ok_iff, State.keepPool_bind, Action.pure_eq_ok]
  constructor
  · rintro ⟨_, henabled, pool, hpool, amount, hburned, parts, hparts, rfl, rfl⟩
    exact ⟨⟨pool, amount, parts, henabled, hpool, hburned, hparts, rfl⟩, rfl⟩
  · rintro ⟨⟨pool, amount, parts, henabled, hpool, hburned, hparts, rfl⟩, rfl⟩
    exact ⟨(), henabled, pool, hpool, amount, hburned, parts, hparts, rfl, rfl⟩

theorem paid_of_run (h : run identifier call s = .ok o s') :
    ∃ pool amount, Paid identifier s call pool amount o := by
  obtain ⟨⟨pool, amount, parts, -, hpool, hburned, hparts, rfl⟩, -⟩ := run_eq_ok_iff.1 h
  obtain ⟨hfunds, hne, hle⟩ := burned_eq_ok hburned
  obtain ⟨rfl, hfits⟩ := split_eq_ok hparts
  refine ⟨pool, amount, hpool, hfunds, hne, hle, hfits, ?_, ?_⟩
  · simp only [settled, List.map_map]
    rfl
  · simp only [settled, List.map_map]
    rfl

theorem state_of_run (h : run identifier call s = .ok o s') : s' = s.savePool o.pool :=
  (run_eq_ok_iff.1 h).2

theorem keepsOnError_run (identifier : String) (call : Call) :
    (run identifier call).KeepsOnError := by
  refine .get_bind fun s => .lift_bind fun _ => .lift_bind fun pool => ?_
  refine .lift_bind fun amount => .lift_bind fun parts => ?_
  exact State.keepsOnError_keepPool _ _

/-- Where withdrawals are enabled, any shares that there are can be withdrawn. -/
theorem exists_run {pool : Pool} {amount : Int} (henabled : s.config.withdrawalsEnabled = true)
    (hstored : s.registry.get? identifier = some pool) (hpool : pool.Valid) (hpos : 0 < amount)
    (hle : amount ≤ s.shareSupply pool) (sender transaction : String) :
    ∃ o, run identifier ⟨sender, [⟨pool.lpDenom, amount⟩], transaction⟩ s =
      .ok o (s.savePool o.pool) := by
  have hburned : burned ⟨sender, [⟨pool.lpDenom, amount⟩], transaction⟩ pool
      (s.shareSupply pool) = .ok amount := by
    have hsome : amount ≠ 0 := Int.ne_of_gt hpos
    have hnot : ¬s.shareSupply pool < amount := Int.not_lt.2 hle
    simp [burned, hsome, hnot]
  have hamounts : ∀ c ∈ pool.assets, 0 ≤ c.amount := fun c hc => (hpool.assets_valid c hc).2.1
  obtain ⟨parts, hparts⟩ := exists_split hle (by omega) hamounts
  exact ⟨settled identifier _ pool amount parts,
    run_eq_ok_iff.2 ⟨⟨pool, amount, parts, henabled, hstored, hburned, hparts, rfl⟩, rfl⟩⟩

namespace Paid

variable {pool : Pool} {amount : Int}

theorem amount_pos (h : Paid identifier s call pool amount o)
    (hfunds : ∀ c ∈ call.funds, 0 ≤ c.amount) : 0 < amount := by
  have hcoin := hfunds ⟨pool.lpDenom, amount⟩ (h.funds ▸ List.mem_singleton.2 rfl)
  have hne := h.amount_ne
  dsimp only at hcoin
  omega

theorem part_nonneg (h : Paid identifier s call pool amount o) (hpool : pool.Valid)
    (hamount : 0 ≤ amount) {c : Coin} (hc : c ∈ pool.assets) :
    0 ≤ (part (s.shareSupply pool) amount c).amount :=
  Int.fdiv_nonneg (Int.mul_nonneg (hpool.assets_valid c hc).2.1 hamount)
    (Int.le_trans hamount h.amount_le)

theorem refills (h : Paid identifier s call pool amount o) (hpool : pool.Valid)
    (hamount : 0 ≤ amount) : pool.Refills (pool.assets.map (kept (s.shareSupply pool) amount)) where
  denoms := by
    rw [List.map_map]
    rfl
  amounts := by
    intro c hc
    obtain ⟨x, hx, rfl⟩ := List.mem_map.1 hc
    have hfits := h.fits x hx
    have hpart := h.part_nonneg hpool hamount hx
    have hmax := (hpool.assets_valid x hx).2.2
    dsimp only [kept, part] at *
    omega

theorem total_payments (h : Paid identifier s call pool amount o) (hpool : pool.Valid)
    (hamount : 0 ≤ amount) (denom : String) :
    Coin.total denom (payments pool (s.shareSupply pool) amount) =
      Coin.total denom (pool.assets.map (part (s.shareSupply pool) amount)) := by
  apply Coin.total_filter_pos denom
  intro c hc
  obtain ⟨x, hx, rfl⟩ := List.mem_map.1 hc
  exact h.part_nonneg hpool hamount hx

/-- The sender gains what is paid; the manager loses it along with the shares. -/
theorem gains_eq (h : Paid identifier s call pool amount o) (a denom : String) :
    Effect.gains o.settlement.effects a denom =
      gainOf call.sender (payments pool (s.shareSupply pool) amount) a denom -
        gainOf managerAddress (payments pool (s.shareSupply pool) amount) a denom -
          single managerAddress ⟨pool.lpDenom, amount⟩ a denom := by
  rw [h.effects_eq, Effect.gains_append]
  split
  · rename_i hempty
    simp only [hempty, Effect.gains_cons, Effect.gains_nil, Effect.gain, gainOf_nil]
    omega
  · simp only [Effect.gains_cons, Effect.gains_nil, Effect.gain]
    omega

theorem issues_eq (h : Paid identifier s call pool amount o) (denom : String) :
    Effect.issues o.settlement.effects denom = -if pool.lpDenom = denom then amount else 0 := by
  rw [h.effects_eq, Effect.issues_append]
  split
  · simp [Effect.issues_cons, Effect.issues_nil, Effect.issue]
  · simp [Effect.issues_cons, Effect.issues_nil, Effect.issue]

theorem reserve_eq (h : Paid identifier s call pool amount o) (hpool : pool.Valid)
    (hamount : 0 ≤ amount) (denom : String) :
    o.pool.reserve denom =
      pool.reserve denom - Coin.total denom (payments pool (s.shareSupply pool) amount) := by
  have hsum := total_kept (s.shareSupply pool) amount denom pool.assets
  rw [h.pool_eq, Pool.reserve_withAssets, h.total_payments hpool hamount, Pool.reserve]
  omega

theorem total_payments_eq (h : Paid identifier s call pool amount o) (hpool : pool.Valid)
    (hamount : 0 ≤ amount) (denom : String) :
    Coin.total denom (payments pool (s.shareSupply pool) amount) =
      (pool.reserve denom * amount).fdiv (s.shareSupply pool) := by
  rw [h.total_payments hpool hamount, total_part hpool.denoms_nodup]
  rfl

end Paid

end MarketMaker.Withdrawal

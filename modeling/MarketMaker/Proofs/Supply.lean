import MarketMaker.Proofs.Movement

/-! # Supplies and balances

Every unit of a denom's supply is held by an address, and no address holds less than nothing. So no
credit that follows a debit can be too large, and a transfer fails only for want of funds. -/

namespace MarketMaker

namespace Ledger

def total (l : Ledger) (denom : String) : Int :=
  l.balances.sumEntries fun key amount => if key.2 = denom then amount else 0

/-- Balances are not below zero, and add up to supplies that are amounts. -/
structure Sound (l : Ledger) : Prop where
  nonneg : ∀ a d, 0 ≤ l.balance a d
  backed : ∀ d, l.total d = l.supply d
  fits : ∀ d, l.supply d ≤ maxAmount

theorem sound_empty : Ledger.empty.Sound where
  nonneg _ _ := Int.le_refl 0
  backed _ := rfl
  fits _ := (by decide : (0 : Int) ≤ maxAmount)

theorem total_setBalance (l : Ledger) (address denom : String) (amount : Int) (d : String) :
    (l.setBalance address denom amount).total d =
      l.total d + if denom = d then amount - l.balance address denom else 0 := by
  have hput := l.balances.sumEntries_put (fun key amount => if key.2 = d then amount else 0)
    (address, denom) amount
  have hentry : l.balances.entryAt (fun key amount => if key.2 = d then amount else 0)
      (address, denom) = if denom = d then l.balance address denom else 0 := by
    rw [Table.entryAt, balance]
    by_cases h : denom = d
    · simp [h]
    · cases l.balances.get? (address, denom) <;> simp [h]
  rw [hentry] at hput
  by_cases h : denom = d
  · simp only [h, ite_true] at hput ⊢
    exact hput.trans (Int.add_sub_assoc _ _ _)
  · simp only [h, ite_false] at hput ⊢
    exact hput.trans (Int.sub_zero _)

theorem total_setSupply (l : Ledger) (denom : String) (amount : Int) (d : String) :
    (l.setSupply denom amount).total d = l.total d := rfl

namespace Sound

variable {l l' : Ledger}

private theorem entries_nonneg (h : l.Sound) (d : String) :
    ∀ key amount, l.balances.get? key = some amount → 0 ≤ if key.2 = d then amount else 0 := by
  rintro ⟨a, denom⟩ amount hamount
  have hbalance := h.nonneg a denom
  rw [balance, hamount, Option.getD_some] at hbalance
  split
  · exact hbalance
  · exact Int.le_refl 0

private theorem entryAt_eq (l : Ledger) (a d : String) :
    l.balances.entryAt (fun key amount => if key.2 = d then amount else 0) (a, d) =
      l.balance a d := by
  simp only [Table.entryAt, balance, ite_true]
  cases l.balances.get? (a, d) <;> rfl

theorem balance_le_supply (h : l.Sound) (a d : String) : l.balance a d ≤ l.supply d := by
  rw [← h.backed, ← entryAt_eq]
  exact Table.entryAt_le_sumEntries (h.entries_nonneg d) (a, d)

/-- Two addresses together hold at most the supply. -/
theorem balance_add_le_supply (h : l.Sound) {a b : String} (hne : a ≠ b) (d : String) :
    l.balance a d + l.balance b d ≤ l.supply d := by
  have hkeys : (a, d) ≠ (b, d) := fun he => hne (congrArg Prod.fst he)
  rw [← h.backed, ← entryAt_eq, ← entryAt_eq]
  exact Table.entryAt_add_le_sumEntries (h.entries_nonneg d) hkeys

end Sound

/-! ## Minting and burning -/

section Supply

variable {address denom : String} {amount : Int} {l l' : Ledger} {u : Unit} {e : Failure}

theorem mint_eq_ok : mint address denom amount l = .ok u l' ↔
    l.supply denom + amount ≤ maxAmount ∧ l.balance address denom + amount ≤ maxAmount ∧
      l' = (l.setSupply denom (l.supply denom + amount)).setBalance address denom
        (l.balance address denom + amount) := by
  simp only [mint, Action.bind_eq_ok, Action.get_eq_ok, Action.lift_eq_ok, Checked.add_eq_ok_iff,
    Action.set_eq_ok, credit_eq_ok]
  constructor
  · rintro ⟨_, _, ⟨rfl, rfl⟩, _, _, ⟨⟨hsupply, rfl⟩, rfl⟩, _, _, rfl, hbalance, rfl⟩
    exact ⟨hsupply, hbalance, rfl⟩
  · rintro ⟨hsupply, hbalance, rfl⟩
    exact ⟨_, _, ⟨rfl, rfl⟩, _, _, ⟨⟨hsupply, rfl⟩, rfl⟩, ⟨⟩, _, rfl, hbalance, rfl⟩

theorem burn_eq_ok : burn address denom amount l = .ok u l' ↔
    amount ≤ l.balance address denom ∧ amount ≤ l.supply denom ∧
      l' = (l.setBalance address denom (l.balance address denom - amount)).setSupply denom
        (l.supply denom - amount) := by
  simp only [burn, Action.bind_eq_ok, Action.get_eq_ok, Action.lift_eq_ok, Checked.sub_eq_ok_iff,
    Action.set_eq_ok, debit_eq_ok]
  constructor
  · rintro ⟨_, _, ⟨hbalance, rfl⟩, _, _, ⟨rfl, rfl⟩, _, _, ⟨⟨hsupply, rfl⟩, rfl⟩, rfl⟩
    exact ⟨hbalance, hsupply, rfl⟩
  · rintro ⟨hbalance, hsupply, rfl⟩
    exact ⟨⟨⟩, _, ⟨hbalance, rfl⟩, _, _, ⟨rfl, rfl⟩, _, _, ⟨⟨hsupply, rfl⟩, rfl⟩, rfl⟩

theorem Sound.mint (h : l.Sound) (hamount : 0 ≤ amount)
    (hok : Ledger.mint address denom amount l = .ok u l') : l'.Sound := by
  obtain ⟨hsupply, -, rfl⟩ := mint_eq_ok.1 hok
  constructor
  · intro a d
    have hbalance := h.nonneg a d
    have hself := h.nonneg address denom
    rw [balance_setBalance, balance_setSupply]
    split <;> omega
  · intro d
    have hbacked := h.backed d
    rw [total_setBalance, total_setSupply, balance_setSupply, supply_setBalance, supply_setSupply]
    split
    · rename_i hd
      subst hd
      omega
    · omega
  · intro d
    rw [supply_setBalance, supply_setSupply]
    split
    · exact hsupply
    · exact h.fits d

/-- Minting fails before it changes anything, if it does: what fits the supply fits a balance. -/
theorem Sound.of_mint_error (h : l.Sound)
    (herror : Ledger.mint address denom amount l = .error e l') :
    l' = l ∧ maxAmount < l.supply denom + amount := by
  by_cases hle : l.supply denom + amount ≤ maxAmount
  · have hbalance := h.balance_le_supply address denom
    have hok : Ledger.mint address denom amount l = .ok () _ :=
      mint_eq_ok.2 ⟨hle, by omega, rfl⟩
    rw [hok] at herror
    cases herror
  · rw [Ledger.mint, Action.get_bind, Action.lift_bind, Checked.add,
      if_pos (Int.not_le.1 hle)] at herror
    cases herror
    exact ⟨rfl, Int.not_le.1 hle⟩

theorem Sound.left_mint (h : l.Sound) (address denom : String) (hamount : 0 ≤ amount) :
    ((Ledger.mint address denom amount).left l).Sound := by
  unfold Action.left
  cases hmint : Ledger.mint address denom amount l with
  | ok u l' => exact h.mint hamount hmint
  | error e l' => exact (h.of_mint_error hmint).1 ▸ h

theorem Sound.burn (h : l.Sound) (hok : Ledger.burn address denom amount l = .ok u l')
    (hamount : 0 ≤ amount) : l'.Sound := by
  obtain ⟨hbalance, -, rfl⟩ := burn_eq_ok.1 hok
  constructor
  · intro a d
    have hother := h.nonneg a d
    rw [balance_setSupply, balance_setBalance]
    split <;> omega
  · intro d
    have hbacked := h.backed d
    rw [total_setSupply, total_setBalance, supply_setSupply, supply_setBalance]
    split
    · rename_i hd
      subst hd
      omega
    · omega
  · intro d
    have hfits := h.fits d
    rw [supply_setSupply, supply_setBalance]
    split
    · rename_i hd
      subst hd
      omega
    · exact hfits

/-- What an address holds can be burned. -/
theorem Sound.exists_burn (h : l.Sound) (hle : amount ≤ l.balance address denom) :
    ∃ l', Ledger.burn address denom amount l = .ok () l' :=
  ⟨_, burn_eq_ok.2 ⟨hle, Int.le_trans hle (h.balance_le_supply address denom), rfl⟩⟩

/-- Burning fails before it changes anything, if it does: what is held is part of the supply. -/
theorem Sound.of_burn_error (h : l.Sound)
    (herror : Ledger.burn address denom amount l = .error e l') :
    l' = l ∧ l.balance address denom < amount := by
  by_cases hle : amount ≤ l.balance address denom
  · obtain ⟨m, hok⟩ := h.exists_burn hle
    rw [hok] at herror
    cases herror
  · simp only [Ledger.burn, bind, EStateM.bind, debit_of_lt (Int.not_le.1 hle)] at herror
    cases herror
    exact ⟨rfl, Int.not_le.1 hle⟩

theorem Sound.left_mintAll (h : l.Sound) {coins : List Coin} (hcoins : ∀ c ∈ coins, 0 ≤ c.amount) :
    ((mintAll address coins).left l).Sound := by
  induction coins generalizing l with
  | nil => exact h
  | cons c rest ih =>
      rw [List.forall_mem_cons] at hcoins
      have hfirst := h.left_mint address c.denom hcoins.1
      unfold Action.left at hfirst ⊢
      simp only [mintAll, bind, EStateM.bind]
      cases hmint : Ledger.mint address c.denom c.amount l with
      | error e m =>
          rw [hmint] at hfirst
          exact hfirst
      | ok a m =>
          rw [hmint] at hfirst
          exact ih hfirst hcoins.2

/-- The balances and the shares of a pool are seeded as far as they fit. -/
theorem Sound.left_seed (h : l.Sound) (holder : String) (pool : Pool) (supply : Int) :
    ((seed holder pool supply).left l).Sound := by
  have hassets : ((mintAll holder (pool.assets.filter fun c => 0 < c.amount)).left l).Sound :=
    h.left_mintAll fun c hc => Int.le_of_lt (of_decide_eq_true (List.mem_filter.1 hc).2)
  unfold Action.left at hassets ⊢
  simp only [seed, bind, EStateM.bind]
  cases hmint : mintAll holder (pool.assets.filter fun c => 0 < c.amount) l with
  | error e m =>
      rw [hmint] at hassets
      exact hassets
  | ok u m =>
      rw [hmint] at hassets
      by_cases hpos : 0 < supply
      · simp only [hpos, ite_true]
        exact hassets.left_mint holder pool.lpDenom (Int.le_of_lt hpos)
      · simp only [hpos, ite_false]
        exact hassets

theorem Sound.burnAll (h : l.Sound) {coins : List Coin} (hcoins : ∀ c ∈ coins, 0 ≤ c.amount)
    (hok : Ledger.burnAll address coins l = .ok u l') : l'.Sound := by
  induction coins generalizing l with
  | nil =>
      obtain ⟨-, rfl⟩ := Action.pure_eq_ok.1 hok
      exact h
  | cons c rest ih =>
      rw [List.forall_mem_cons] at hcoins
      obtain ⟨_, m, hburn, hrest⟩ := Action.bind_eq_ok.1 hok
      exact ih (h.burn hburn hcoins.1) hcoins.2 hrest

end Supply

/-! ## Transfers -/

section Transfers

variable {source target : String} {c : Coin} {l l' : Ledger} {u : Unit}

theorem transfer_cons_eq_ok {rest : List Coin} : transfer source target (c :: rest) l = .ok u l' ↔
    ∃ m n, debit source c.denom c.amount l = .ok () m ∧
      credit target c.denom c.amount m = .ok () n ∧ transfer source target rest n = .ok u l' := by
  simp only [transfer, Action.bind_eq_ok]
  constructor
  · rintro ⟨⟨⟩, m, hdebit, ⟨⟩, n, hcredit, hrest⟩
    exact ⟨m, n, hdebit, hcredit, hrest⟩
  · rintro ⟨m, n, hdebit, hcredit, hrest⟩
    exact ⟨⟨⟩, m, hdebit, ⟨⟩, n, hcredit, hrest⟩

theorem Sound.move {m : Ledger} (h : l.Sound) (hamount : 0 ≤ c.amount)
    (hdebit : debit source c.denom c.amount l = .ok u m)
    (hcredit : credit target c.denom c.amount m = .ok u l') : l'.Sound := by
  obtain ⟨hle, rfl⟩ := debit_eq_ok.1 hdebit
  obtain ⟨-, rfl⟩ := credit_eq_ok.1 hcredit
  constructor
  · intro a d
    have hnonneg := h.nonneg a d
    have htarget := h.nonneg target c.denom
    rw [balance_setBalance, balance_setBalance, balance_setBalance]
    split
    · split <;> omega
    · split <;> omega
  · intro d
    have hbacked := h.backed d
    rw [total_setBalance, total_setBalance, supply_setBalance, supply_setBalance]
    split <;> omega
  · exact h.fits

/-- What an address holds can be moved: the target does not overflow. -/
theorem Sound.exists_transfer (h : l.Sound) (target : String)
    (hle : c.amount ≤ l.balance source c.denom) :
    ∃ l', transfer source target [c] l = .ok () l' := by
  have hfits := h.fits c.denom
  have hsource := h.balance_le_supply source c.denom
  have hroom : (l.setBalance source c.denom (l.balance source c.denom - c.amount)).balance target
      c.denom + c.amount ≤ maxAmount := by
    rw [balance_setBalance]
    by_cases hsame : source = target
    · simp only [hsame, and_self, ite_true]
      rw [hsame] at hsource
      omega
    · have hboth := h.balance_add_le_supply hsame c.denom
      simp only [hsame, false_and, ite_false]
      omega
  exact ⟨_, transfer_cons_eq_ok.2
    ⟨_, _, debit_eq_ok.2 ⟨hle, rfl⟩, credit_eq_ok.2 ⟨hroom, rfl⟩, Action.pure_eq_ok.2 ⟨rfl, rfl⟩⟩⟩

theorem Sound.transfer (h : l.Sound) {coins : List Coin} (hcoins : ∀ c ∈ coins, 0 ≤ c.amount)
    (hok : Ledger.transfer source target coins l = .ok u l') : l'.Sound := by
  induction coins generalizing l with
  | nil =>
      obtain ⟨-, rfl⟩ := Action.pure_eq_ok.1 hok
      exact h
  | cons c rest ih =>
      rw [List.forall_mem_cons] at hcoins
      obtain ⟨m, n, hdebit, hcredit, hrest⟩ := transfer_cons_eq_ok.1 hok
      exact ih (h.move hcoins.1 hdebit hcredit) hcoins.2 hrest

theorem Sound.exists_transfer_pair (h : l.Sound) (target : String) {x y : Coin}
    (hne : x.denom ≠ y.denom) (hxpos : 0 ≤ x.amount) (hx : x.amount ≤ l.balance source x.denom)
    (hy : y.amount ≤ l.balance source y.denom) :
    ∃ l', Ledger.transfer source target [x, y] l = .ok () l' := by
  obtain ⟨m, hfirst⟩ := h.exists_transfer target hx
  have hsound := h.transfer (fun c hc => by rwa [List.mem_singleton.1 hc]) hfirst
  have hkept : m.balance source y.denom = l.balance source y.denom := by
    rw [(moved_of_transfer hfirst).balance]
    simp [gainOf, Coin.total_singleton, hne]
  obtain ⟨l', hsecond⟩ := hsound.exists_transfer target (hkept ▸ hy)
  obtain ⟨n, n', hdebit, hcredit, hnil⟩ := transfer_cons_eq_ok.1 hfirst
  obtain ⟨-, rfl⟩ := Action.pure_eq_ok.1 hnil
  exact ⟨l', transfer_cons_eq_ok.2 ⟨n, _, hdebit, hcredit, hsecond⟩⟩

/-- A transfer of one coin takes no more than there is. -/
theorem le_balance_of_transfer {rest : List Coin}
    (h : transfer source target (c :: rest) l = .ok u l') :
    c.amount ≤ l.balance source c.denom := by
  obtain ⟨m, n, hdebit, -, -⟩ := transfer_cons_eq_ok.1 h
  exact (debit_eq_ok.1 hdebit).1

end Transfers

/-! ## Positions -/

section Positions

variable {l l' : Ledger} {u : Unit}

theorem positions_of_transfer {source target : String} {coins : List Coin}
    (h : transfer source target coins l = .ok u l') : l'.positions = l.positions := by
  induction coins generalizing l with
  | nil =>
      obtain ⟨-, rfl⟩ := Action.pure_eq_ok.1 h
      rfl
  | cons c rest ih =>
      obtain ⟨m, n, hdebit, hcredit, hrest⟩ := transfer_cons_eq_ok.1 h
      obtain ⟨-, rfl⟩ := debit_eq_ok.1 hdebit
      obtain ⟨-, rfl⟩ := credit_eq_ok.1 hcredit
      have hkept := ih hrest
      exact hkept

theorem positions_of_burnAll {address : String} {coins : List Coin}
    (h : burnAll address coins l = .ok u l') : l'.positions = l.positions := by
  induction coins generalizing l with
  | nil =>
      obtain ⟨-, rfl⟩ := Action.pure_eq_ok.1 h
      rfl
  | cons c rest ih =>
      obtain ⟨_, m, hburn, hrest⟩ := Action.bind_eq_ok.1 h
      obtain ⟨-, -, rfl⟩ := burn_eq_ok.1 hburn
      have hkept := ih hrest
      exact hkept

end Positions

theorem Sound.lock {l l' : Ledger} (h : l.Sound) {identifier receiver : String} {asset : Coin}
    {duration : Int} {p : Position}
    (hok : Ledger.lock identifier receiver asset duration l = .ok p l') : l'.Sound := by
  simp only [Ledger.lock, Action.bind_eq_ok, Action.get_eq_ok, Action.lift_eq_ok,
    Action.set_eq_ok, Action.pure_eq_ok] at hok
  obtain ⟨_, _, ⟨rfl, rfl⟩, _, _, ⟨-, rfl⟩, _, _, rfl, -, rfl⟩ := hok
  exact ⟨h.nonneg, h.backed, h.fits⟩

end Ledger

/-! ## Effects -/

/-- No amount of an effect is below zero. -/
def Effect.Nonneg : Effect → Prop
  | send _ coins => ∀ c ∈ coins, 0 ≤ c.amount
  | burn coins => ∀ c ∈ coins, 0 ≤ c.amount
  | mintShare _ amount _ => 0 ≤ amount
  | burnShare _ amount => 0 ≤ amount
  | lock _ _ _ asset _ _ => 0 ≤ asset.amount

namespace Effect

/-- A payment of the manager in one denom. -/
inductive Pays (denom : String) (amount : Int) : Effect → Prop
  | send (recipient : String) : Pays denom amount (.send recipient [⟨denom, amount⟩])
  | burn : Pays denom amount (.burn [⟨denom, amount⟩])

/-- Payments of the manager in one denom, and their sum. -/
inductive PayAll (denom : String) : List Effect → Int → Prop
  | nil : PayAll denom [] 0
  | cons {e : Effect} {rest : List Effect} {amount more : Int} (pays : e.Pays denom amount)
      (nonneg : 0 ≤ amount) (others : PayAll denom rest more) :
      PayAll denom (e :: rest) (amount + more)

theorem PayAll.append {denom : String} {effects more : List Effect} {x y : Int}
    (h : PayAll denom effects x) (h' : PayAll denom more y) :
    PayAll denom (effects ++ more) (x + y) := by
  induction h with
  | nil => rwa [List.nil_append, Int.zero_add]
  | cons pays nonneg _ ih =>
      rw [List.cons_append, Int.add_assoc]
      exact .cons pays nonneg ih

theorem PayAll.nonneg {denom : String} {effects : List Effect} {x : Int}
    (h : PayAll denom effects x) : 0 ≤ x := by
  induction h with
  | nil => exact Int.le_refl 0
  | cons _ nonneg _ ih => exact Int.add_nonneg nonneg ih

end Effect

namespace Chain

variable {c c' : Chain} {u : Unit}

private theorem sound_withLedger {α : Type} {action : Action Ledger α} {a : α}
    (hok : withLedger action c = .ok a c') (h : ∀ l, action c.state.ledger = .ok a l → l.Sound) :
    c'.state.ledger.Sound := by
  obtain ⟨l, hl, rfl⟩ := withLedger_eq_ok.1 hok
  exact h l hl

theorem ledger_sound_applyEffect {e : Effect} (he : e.Nonneg) (h : c.state.ledger.Sound)
    (hok : applyEffect e c = .ok u c') : c'.state.ledger.Sound := by
  cases e with
  | send recipient coins => exact sound_withLedger hok fun _ => h.transfer he
  | burn coins => exact sound_withLedger hok fun _ => h.burnAll he
  | mintShare denom amount recipient => exact sound_withLedger hok fun _ => h.mint he
  | burnShare denom amount => exact sound_withLedger hok fun _ hburn => h.burn hburn he
  | lock service expands receiver asset identifier duration =>
      simp only [applyEffect, Action.bind_eq_ok, Action.pure_eq_ok] at hok
      obtain ⟨_, c₁, hsend, name, c₂, hname, p, c₃, hlock, -, rfl⟩ := hok
      have hsent : c₁.state.ledger.Sound := sound_withLedger hsend fun _ =>
        h.transfer fun x hx => by
          rw [List.mem_singleton.1 hx]
          exact he
      rw [← ledger_of_positionName hname] at hsent
      exact sound_withLedger hlock fun _ => hsent.lock

theorem ledger_sound_applyEffects {effects : List Effect} (he : ∀ e ∈ effects, e.Nonneg)
    (hok : applyEffects effects c = .ok u c') (h : c.state.ledger.Sound) :
    c'.state.ledger.Sound := by
  induction effects generalizing c with
  | nil =>
      obtain ⟨-, rfl⟩ := Action.pure_eq_ok.1 hok
      exact h
  | cons e rest ih =>
      rw [List.forall_mem_cons] at he
      obtain ⟨_, c₁, hfirst, hrest⟩ := Action.bind_eq_ok.1 hok
      exact ih he.2 hrest (ledger_sound_applyEffect he.1 h hfirst)

/-! ## Payments -/

section Payments

variable {e : Effect} {effects : List Effect} {denom : String} {amount : Int}

theorem exists_applyEffect_of_pays (he : e.Pays denom amount) (h : c.state.ledger.Sound)
    (hle : amount ≤ c.state.held denom) : ∃ c', applyEffect e c = .ok () c' := by
  cases he with
  | send recipient =>
      obtain ⟨l, hl⟩ := h.exists_transfer (c := ⟨denom, amount⟩) recipient hle
      exact ⟨_, withLedger_eq_ok.2 ⟨l, hl, rfl⟩⟩
  | burn =>
      have hle : amount ≤ c.state.ledger.balance managerAddress denom := hle
      obtain ⟨l, hl⟩ := h.exists_burn hle
      have hall : Ledger.burnAll managerAddress [⟨denom, amount⟩] c.state.ledger = .ok () l :=
        Action.bind_eq_ok.2 ⟨_, _, hl, rfl⟩
      exact ⟨_, withLedger_eq_ok.2 ⟨l, hall, rfl⟩⟩

/-- A payment costs the manager its amount, or less where the manager pays itself. -/
theorem held_of_pays (he : e.Pays denom amount) (hnonneg : 0 ≤ amount)
    (h : applyEffect e c = .ok u c') : c.state.held denom - amount ≤ c'.state.held denom := by
  have hmoved := (moved_of_applyEffect h).balance managerAddress denom
  rw [State.held, State.held, hmoved]
  cases he with
  | send recipient =>
      simp only [Effect.gain, Ledger.gainOf, Coin.total_singleton, ite_true]
      split <;> omega
  | burn =>
      simp only [Effect.gain, Ledger.gainOf, Coin.total_singleton, ite_true]
      omega

/-- The manager can make payments in a denom as far as it holds enough. -/
theorem exists_applyEffects_of_payAll (he : Effect.PayAll denom effects amount)
    (h : c.state.ledger.Sound) (hle : amount ≤ c.state.held denom) :
    ∃ c', applyEffects effects c = .ok () c' := by
  induction he generalizing c with
  | nil => exact ⟨c, rfl⟩
  | cons pays nonneg others ih =>
      have hmore := others.nonneg
      obtain ⟨c₁, hfirst⟩ := exists_applyEffect_of_pays pays h (by omega)
      have hheld := held_of_pays pays nonneg hfirst
      have hsound := ledger_sound_applyEffect (by
        cases pays <;> exact fun x hx => by rwa [List.mem_singleton.1 hx]) h hfirst
      obtain ⟨c', hrest⟩ := ih hsound (by omega)
      exact ⟨c', Action.bind_eq_ok.2 ⟨(), c₁, hfirst, hrest⟩⟩

/-- Payments open no position, and name none. -/
theorem positions_of_payAll (he : Effect.PayAll denom effects amount)
    (h : applyEffects effects c = .ok u c') :
    c'.positions = c.positions ∧ c'.state.ledger.positions = c.state.ledger.positions := by
  induction he generalizing c with
  | nil =>
      obtain ⟨-, rfl⟩ := Action.pure_eq_ok.1 h
      exact ⟨rfl, rfl⟩
  | cons pays _ _ ih =>
      obtain ⟨_, c₁, hfirst, hrest⟩ := Action.bind_eq_ok.1 h
      obtain ⟨hcount, hkept⟩ := ih hrest
      rw [hcount, hkept]
      cases pays with
      | send recipient =>
          obtain ⟨l, hl, rfl⟩ := withLedger_eq_ok.1 hfirst
          exact ⟨rfl, Ledger.positions_of_transfer hl⟩
      | burn =>
          obtain ⟨l, hl, rfl⟩ := withLedger_eq_ok.1 hfirst
          exact ⟨rfl, Ledger.positions_of_burnAll hl⟩

end Payments

end Chain

end MarketMaker

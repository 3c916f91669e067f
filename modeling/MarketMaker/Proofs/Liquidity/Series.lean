import MarketMaker.Proofs.Operation.Basic
import MarketMaker.Proofs.Rounding

/-! # Calls on one pool, one after the other

A pool is followed through calls that succeed. Each call finds the record and the supply that the
last one has left; whatever else happens in between is left open. What is followed is how much of
each asset stands behind a share. -/

namespace MarketMaker

/-! ## Series -/

/-- The state has the record of an outcome, and the supply that its effects make. -/
structure Outcome.Leaves (o : Outcome) (s s' : State) : Prop where
  stored : s'.registry.get? o.pool.identifier = some o.pool
  supply : s'.shareSupply o.pool =
    s.shareSupply o.pool + Effect.issues o.settlement.effects o.pool.lpDenom

/-- Calls with their outcomes, where each call succeeds in the state that the last one has left
with its effects. -/
inductive Series {α : Type} (run : α → Action State Outcome) :
    State → List (α × Outcome) → State → Prop
  | nil (s : State) : Series run s [] s
  | cons {s t s₁ s' : State} {a : α} {o : Outcome} {rest : List (α × Outcome)}
      (ran : run a s = .ok o t) (left : o.Leaves s s₁) (more : Series run s₁ rest s') :
      Series run s ((a, o) :: rest) s'

def Effect.sent : Effect → List Coin
  | .send _ coins => coins
  | _ => []

def Outcome.sent (o : Outcome) : List Coin := o.settlement.effects.flatMap Effect.sent

/-- A state with one pool and a supply of its shares. -/
def State.holding (pool : Pool) (supply : Int) : State :=
  { (State.empty {}).savePool pool with ledger := Ledger.empty.setSupply pool.lpDenom supply }

/-! ## What stands behind a share -/

/-- A valid pool that the state keeps; without shares it is empty. -/
structure State.Backs (s : State) (p : Pool) : Prop where
  stored : s.registry.get? p.identifier = some p
  valid : p.Valid
  supply : 0 ≤ s.shareSupply p
  empty : s.shareSupply p = 0 → ∀ denom, p.reserve denom = 0

theorem State.Backs.of_pos {s : State} {p : Pool} (hstored : s.registry.get? p.identifier = some p)
    (hvalid : p.Valid) (hsupply : 0 < s.shareSupply p) : s.Backs p :=
  ⟨hstored, hvalid, Int.le_of_lt hsupply, fun hzero => absurd hzero (Int.ne_of_gt hsupply)⟩

/-- From the record `p` of a state to the record `q` of a later one, no share loses of any asset. -/
structure KeepsShares (s : State) (p : Pool) (s' : State) (q : Pool) : Prop where
  refills : ∃ assets, p.Refills assets ∧ q = p.withAssets assets
  backs : s'.Backs q
  grows : ∀ denom, p.reserve denom * s'.shareSupply q ≤ q.reserve denom * s.shareSupply p

namespace KeepsShares

variable {s s₁ s' : State} {p q r : Pool}

theorem refl (h : s.Backs p) : KeepsShares s p s p :=
  ⟨⟨p.assets, .refl h.valid, rfl⟩, h, fun _ => Int.le_refl _⟩

theorem identifier (h : KeepsShares s p s' q) : q.identifier = p.identifier := by
  obtain ⟨assets, -, rfl⟩ := h.refills
  rfl

theorem lpDenom (h : KeepsShares s p s' q) : q.lpDenom = p.lpDenom := by
  obtain ⟨assets, -, rfl⟩ := h.refills
  rfl

theorem curve (h : KeepsShares s p s' q) : q.curve = p.curve := by
  obtain ⟨assets, -, rfl⟩ := h.refills
  rfl

theorem length (h : KeepsShares s p s' q) : q.assets.length = p.assets.length := by
  obtain ⟨assets, hr, rfl⟩ := h.refills
  exact hr.length

/-- Shares keep what they have along two steps, unless the supply comes back from nothing. -/
theorem trans (h : KeepsShares s p s₁ q) (h' : KeepsShares s₁ q s' r) (hp : 0 ≤ s.shareSupply p)
    (hle : s₁.shareSupply q = 0 → s'.shareSupply r = 0) : KeepsShares s p s' r where
  refills := by
    obtain ⟨assets, hr, rfl⟩ := h.refills
    obtain ⟨assets', hr', rfl⟩ := h'.refills
    exact ⟨assets', ⟨hr'.denoms.trans hr.denoms, hr'.amounts⟩, rfl⟩
  backs := h'.backs
  grows := by
    intro denom
    have hr := Pool.reserve_nonneg h'.backs.valid denom
    by_cases hzero : s₁.shareSupply q = 0
    · rw [hle hzero, Int.mul_zero]
      exact Int.mul_nonneg hr hp
    · have hsome := h.backs.supply
      have hpos : 0 < s₁.shareSupply q := by omega
      have hfirst := Int.mul_le_mul_of_nonneg_right (h.grows denom) h'.backs.supply
      have hsecond := Int.mul_le_mul_of_nonneg_right (h'.grows denom) hp
      refine Int.le_of_mul_le_mul_right ?_ hpos
      calc p.reserve denom * s'.shareSupply r * s₁.shareSupply q
          = p.reserve denom * s₁.shareSupply q * s'.shareSupply r := Int.mul_right_comm _ _ _
        _ ≤ q.reserve denom * s.shareSupply p * s'.shareSupply r := hfirst
        _ = q.reserve denom * s'.shareSupply r * s.shareSupply p := Int.mul_right_comm _ _ _
        _ ≤ r.reserve denom * s₁.shareSupply q * s.shareSupply p := hsecond
        _ = r.reserve denom * s.shareSupply p * s₁.shareSupply q := Int.mul_right_comm _ _ _

end KeepsShares

/-- An outcome of a pool that is left, with the supply as its effects change it. -/
theorem Outcome.Leaves.shareSupply_eq {o : Outcome} {s s' : State} {p : Pool} (h : o.Leaves s s')
    (hlp : o.pool.lpDenom = p.lpDenom) : s'.shareSupply o.pool =
      s.shareSupply p + Effect.issues o.settlement.effects p.lpDenom := by
  rw [h.supply, State.shareSupply, State.shareSupply, hlp]

/-- What a call leaves of a pool: no share loses of any asset where the supply that comes about
allows for it. -/
theorem KeepsShares.of_leaves {o : Outcome} {s s' : State} {p : Pool} (hleft : o.Leaves s s')
    (ho : o.Refills p) (hp : p.Valid)
    (hsupply : 0 ≤ s.shareSupply p + Effect.issues o.settlement.effects p.lpDenom)
    (hempty : s.shareSupply p + Effect.issues o.settlement.effects p.lpDenom = 0 →
      ∀ denom, o.pool.reserve denom = 0)
    (hgrows : ∀ denom,
      p.reserve denom * (s.shareSupply p + Effect.issues o.settlement.effects p.lpDenom) ≤
        o.pool.reserve denom * s.shareSupply p) : KeepsShares s p s' o.pool := by
  have hshares := hleft.shareSupply_eq ho.lpDenom
  rw [← hshares] at hsupply hempty hgrows
  exact ⟨ho, ⟨hleft.stored, ho.valid hp, hsupply, hempty⟩, hgrows⟩

end MarketMaker

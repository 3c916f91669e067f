import MarketMaker.Pool.Pair
import MarketMaker.Proofs.Sequence
import MarketMaker.Proofs.Total
import MarketMaker.Registry

/-! # Reserves of pools and of the registry -/

namespace MarketMaker

/-! ## Coins in places -/

namespace Coin

theorem total_set (denom : String) (c : Coin) {coins : List Coin} {i : Nat} {old : Coin}
    (h : coins[i]? = some old) :
    total denom (coins.set i c) = total denom coins + (if c.denom = denom then c.amount else 0) -
      (if old.denom = denom then old.amount else 0) := by
  induction coins generalizing i with
  | nil => simp at h
  | cons x rest ih =>
      cases i with
      | zero =>
          simp only [List.getElem?_cons_zero, Option.some.injEq] at h
          subst h
          rw [List.set_cons_zero, total_cons, total_cons]
          omega
      | succ i =>
          simp only [List.getElem?_cons_succ] at h
          rw [List.set_cons_succ, total_cons, total_cons, ih h]
          omega

theorem denoms_set {coins : List Coin} {i : Nat} {denom : String} {old : Int}
    (h : coins[i]? = some ⟨denom, old⟩) (amount : Int) :
    (coins.set i ⟨denom, amount⟩).map Coin.denom = coins.map Coin.denom := by
  have hmap : (coins.map Coin.denom)[i]? = some denom := by rw [List.getElem?_map, h]; rfl
  obtain ⟨hi, hget⟩ := List.getElem?_eq_some_iff.1 hmap
  rw [List.map_set, ← hget, List.set_getElem_self]

theorem total_of_not_mem {coins : List Coin} {denom : String}
    (h : denom ∉ coins.map Coin.denom) : total denom coins = 0 := by
  have hempty : (coins.filter fun x => x.denom = denom) = [] := by
    rw [List.filter_eq_nil_iff]
    intro x hx
    have hne : x.denom ≠ denom := fun he => h (he ▸ List.mem_map_of_mem hx)
    simpa using hne
  simp only [total, hempty, List.map_nil, sumOf]

/-- Where denoms are distinct, the total of a denom is the amount of its coin. -/
theorem total_of_mem {coins : List Coin} {c : Coin} (hn : (coins.map Coin.denom).Nodup)
    (h : c ∈ coins) : total c.denom coins = c.amount := by
  induction coins with
  | nil => simp at h
  | cons x rest ih =>
      simp only [List.map_cons, List.nodup_cons] at hn
      rw [total_cons]
      rcases List.mem_cons.1 h with rfl | hc
      · simp [total_of_not_mem hn.1]
      · have hne : x.denom ≠ c.denom := fun he => hn.1 (he ▸ List.mem_map_of_mem hc)
        simp [hne, ih hn.2 hc]

end Coin

/-! ## Pools -/

namespace Pool

/-- What a pool records of a denom. -/
def reserve (p : Pool) (denom : String) : Int := Coin.total denom p.assets

theorem reserve_withAssets (p : Pool) (assets : List Coin) (denom : String) :
    (p.withAssets assets).reserve denom = Coin.total denom assets := rfl

theorem reserve_nonneg {p : Pool} (h : p.Valid) (denom : String) : 0 ≤ p.reserve denom :=
  Coin.total_nonneg fun c hc => (h.assets_valid c hc).2.1

/-- New assets for a pool: the same denoms in the same order, and valid amounts. -/
structure Refills (p : Pool) (assets : List Coin) : Prop where
  denoms : assets.map Coin.denom = p.denoms
  amounts : ∀ c ∈ assets, 0 ≤ c.amount ∧ c.amount ≤ maxAmount

theorem Refills.length {p : Pool} {assets : List Coin} (h : p.Refills assets) :
    assets.length = p.assets.length := by
  have hl := congrArg List.length h.denoms
  rwa [Pool.denoms, List.length_map, List.length_map] at hl

theorem Refills.refl {p : Pool} (h : p.Valid) : p.Refills p.assets :=
  ⟨rfl, fun c hc => (h.assets_valid c hc).2⟩

/-- A valid pool stays valid with new amounts. -/
theorem Valid.withAssets {p : Pool} (h : p.Valid) {assets : List Coin} (hr : p.Refills assets) :
    (p.withAssets assets).Valid where
  identifier_ne := h.identifier_ne
  identifier_length := h.identifier_length
  identifier_chars := h.identifier_chars
  asset_count := by
    change 2 ≤ assets.length ∧ assets.length ≤ maxAssets
    rw [hr.length]
    exact h.asset_count
  assets_valid := by
    intro c hc
    have hd : c.denom ∈ p.denoms := hr.denoms ▸ List.mem_map_of_mem hc
    obtain ⟨x, hx, hxc⟩ := List.mem_map.1 hd
    exact ⟨hxc ▸ (h.assets_valid x hx).1, hr.amounts c hc⟩
  denoms_nodup := by
    change (assets.map Coin.denom).Nodup
    rw [hr.denoms]
    exact h.denoms_nodup
  decimals_length := h.decimals_length.trans hr.length.symm
  decimals_range := h.decimals_range
  curve_valid := h.curve_valid
  lpDenom_ne := h.lpDenom_ne
  fees_valid := h.fees_valid

instance (p : Pool) : Decidable p.Valid :=
  decidable_of_iff
    (p.identifier ≠ "" ∧ p.identifier.length ≤ maxIdentifierLength ∧
      p.identifier.toList.all isIdentifierChar = true ∧
      (2 ≤ p.assets.length ∧ p.assets.length ≤ maxAssets) ∧ (∀ c ∈ p.assets, c.Valid) ∧
      p.denoms.Nodup ∧ p.decimals.length = p.assets.length ∧
      (∀ d ∈ p.decimals, 0 ≤ d ∧ d ≤ maxDecimals) ∧ p.curve.Valid ∧ p.lpDenom ≠ "" ∧ p.fees.Valid)
    ⟨fun ⟨h₁, h₂, h₃, h₄, h₅, h₆, h₇, h₈, h₉, h₁₀, h₁₁⟩ =>
        ⟨h₁, h₂, h₃, h₄, h₅, h₆, h₇, h₈, h₉, h₁₀, h₁₁⟩,
      fun h => ⟨h.1, h.2, h.3, h.4, h.5, h.6, h.7, h.8, h.9, h.10, h.11⟩⟩

theorem indexOf_eq_ok {p : Pool} {denom : String} {i : Nat} (h : p.indexOf denom = .ok i) :
    p.assets[i]? = some ⟨denom, p.balanceAt i⟩ := by
  unfold indexOf at h
  split at h
  · rename_i j hj
    cases h
    obtain ⟨hlt, hat, -⟩ := List.findIdx?_eq_some_iff_getElem.1 hj
    have hlen : i < p.assets.length := by simpa [denoms] using hlt
    have hdenom : p.assets[i].denom = denom := by simpa [denoms] using hat
    have hbalance : p.balanceAt i = p.assets[i].amount := by
      simp [balanceAt, balances, List.getElem?_eq_getElem hlen]
    rw [List.getElem?_eq_getElem hlen, hbalance, ← hdenom]
  · cases h

/-- Where denoms are distinct, an asset is found at its own place. -/
theorem indexOf_of_getElem? {p : Pool} (hn : p.denoms.Nodup) {i : Nat} {c : Coin}
    (h : p.assets[i]? = some c) : p.indexOf c.denom = .ok i := by
  obtain ⟨hi, hdenom⟩ : ∃ hi : i < p.denoms.length, p.denoms[i] = c.denom := by
    rw [← List.getElem?_eq_some_iff, denoms, List.getElem?_map, h, Option.map_some]
  have hfound : p.denoms.findIdx? (· = c.denom) = some i := by
    rw [List.findIdx?_eq_some_iff_getElem]
    refine ⟨hi, decide_eq_true hdenom, fun j hj hsame => ?_⟩
    have hdenoms : p.denoms[j] = p.denoms[i] := (of_decide_eq_true hsame).trans hdenom.symm
    exact absurd hdenoms (List.pairwise_iff_getElem.1 hn j i _ hi hj)
  rw [indexOf, hfound]

theorem balanceAt_of_get? {p : Pool} {assets : List Coin} {i : Nat} {c : Coin}
    (h : assets[i]? = some c) : (p.withAssets assets).balanceAt i = c.amount := by
  rw [balanceAt, balances, List.getElem?_map]
  change ((assets[i]?).map Coin.amount).getD 0 = c.amount
  rw [h]
  rfl

/-- With other amounts of the same assets, a pair is found at the same places. -/
theorem pair_withAssets {p : Pool} {offer ask : String} {sides : AssetPair}
    (h : p.pair offer ask = .ok sides) {assets : List Coin}
    (hdenoms : assets.map Coin.denom = p.denoms) :
    (p.withAssets assets).pair offer ask =
      .ok { sides with
        offer := (p.withAssets assets).balanceAt sides.offerIndex
        ask := (p.withAssets assets).balanceAt sides.askIndex } := by
  have hindex : ∀ denom, (p.withAssets assets).indexOf denom = p.indexOf denom := by
    intro denom
    have hsame : (p.withAssets assets).denoms = p.denoms := hdenoms
    rw [indexOf, indexOf, hsame]
    rfl
  simp only [pair, Result.guarded_eq_ok, Result.bind_eq_ok] at h
  obtain ⟨hne, i, hi, j, hj, hs⟩ := h
  cases hs
  rw [pair, if_neg hne, hindex, hindex, hi, hj]
  rfl

/-- The two sides of a swap stand in the pool at different places. -/
structure Pairs (p : Pool) (offer ask : String) (sides : AssetPair) : Prop where
  ne : offer ≠ ask
  offer : p.assets[sides.offerIndex]? = some ⟨offer, sides.offer⟩
  ask : p.assets[sides.askIndex]? = some ⟨ask, sides.ask⟩
  offerDecimals : sides.offerDecimals = p.decimalsAt sides.offerIndex
  askDecimals : sides.askDecimals = p.decimalsAt sides.askIndex

theorem pairs_of_pair {p : Pool} {offer ask : String} {sides : AssetPair}
    (h : p.pair offer ask = .ok sides) : p.Pairs offer ask sides := by
  simp only [pair, Result.guarded_eq_ok, Result.bind_eq_ok] at h
  obtain ⟨hne, i, hi, j, hj, hs⟩ := h
  cases hs
  exact ⟨hne, indexOf_eq_ok hi, indexOf_eq_ok hj, rfl, rfl⟩

namespace Pairs

variable {p : Pool} {offer ask : String} {sides : AssetPair}

theorem index_ne (h : p.Pairs offer ask sides) : sides.offerIndex ≠ sides.askIndex := by
  intro he
  have hask := h.ask
  rw [← he, h.offer] at hask
  simp only [Option.some.injEq, Coin.mk.injEq] at hask
  exact h.ne hask.1

theorem offer_mem (h : p.Pairs offer ask sides) : ⟨offer, sides.offer⟩ ∈ p.assets :=
  List.mem_of_getElem? h.offer

theorem ask_mem (h : p.Pairs offer ask sides) : ⟨ask, sides.ask⟩ ∈ p.assets :=
  List.mem_of_getElem? h.ask

/-- A pool of two assets has the two sides and nothing else. -/
theorem assets_of_two (h : p.Pairs offer ask sides) (htwo : p.assets.length = 2) :
    p.assets = [⟨offer, sides.offer⟩, ⟨ask, sides.ask⟩] ∨
      p.assets = [⟨ask, sides.ask⟩, ⟨offer, sides.offer⟩] := by
  obtain ⟨x, y, hassets⟩ : ∃ x y, p.assets = [x, y] := by
    match p.assets, htwo with
    | [x, y], _ => exact ⟨x, y, rfl⟩
  have hoffer := h.offer_mem
  have hask := h.ask_mem
  have hne := h.ne
  simp only [hassets, List.mem_cons, List.not_mem_nil, or_false] at hoffer hask
  rcases hoffer with rfl | rfl
  · rcases hask with heq | rfl
    · exact absurd (congrArg Coin.denom heq).symm hne
    · exact .inl hassets
  · rcases hask with rfl | heq
    · exact .inr hassets
    · exact absurd (congrArg Coin.denom heq).symm hne

theorem zero_not_mem_balances (h : p.Pairs offer ask sides) (htwo : p.assets.length = 2)
    (hoffer : 0 < sides.offer) (hask : 0 < sides.ask) : 0 ∉ p.balances := by
  rcases h.assets_of_two htwo with hassets | hassets
  all_goals
    simp only [balances, hassets, List.map_cons, List.map_nil, List.mem_cons, List.not_mem_nil,
      or_false]
    omega

theorem offer_mem_denoms (h : p.Pairs offer ask sides) : offer ∈ p.denoms :=
  List.mem_map_of_mem (f := Coin.denom) h.offer_mem

theorem ask_mem_denoms (h : p.Pairs offer ask sides) : ask ∈ p.denoms :=
  List.mem_map_of_mem (f := Coin.denom) h.ask_mem

end Pairs

end Pool

/-! ## The registry -/

namespace Registry

/-- What all pools together record of a denom. -/
def reserves (r : Registry) (denom : String) : Int := r.sumBy fun p => p.reserve denom

/-- Every pool is valid and is kept under its own identifier. -/
def Sound (r : Registry) : Prop := ∀ id p, r.get? id = some p → p.identifier = id ∧ p.Valid

theorem sound_empty : Sound .empty := fun _ _ h => nomatch h

theorem Sound.save {r : Registry} (h : r.Sound) {p : Pool} (hp : p.Valid) :
    (r.save p).Sound := by
  intro id q hq
  rw [Registry.save, Table.get?_put] at hq
  split at hq
  · rename_i hid
    cases hq
    exact ⟨hid, hp⟩
  · exact h id q hq

/-- A registry in which pools have new amounts at most. -/
structure Refilled (r r' : Registry) : Prop where
  kept : ∀ id p, r.get? id = some p →
    ∃ assets, p.Refills assets ∧ r'.get? id = some (p.withAssets assets)
  absent : ∀ id, r.get? id = none → r'.get? id = none

namespace Refilled

variable {r r' r'' : Registry}

theorem refl (h : r.Sound) : r.Refilled r where
  kept _ p hp := ⟨p.assets, .refl (h _ _ hp).2, hp⟩
  absent _ hp := hp

theorem trans (h : r.Refilled r') (h' : r'.Refilled r'') : r.Refilled r'' where
  kept id p hp := by
    obtain ⟨assets, hr, hp'⟩ := h.kept id p hp
    obtain ⟨assets', hr', hp''⟩ := h'.kept id _ hp'
    exact ⟨assets', ⟨hr'.denoms.trans hr.denoms, hr'.amounts⟩, hp''⟩
  absent id hp := h'.absent id (h.absent id hp)

theorem save (h : r.Sound) {pool : Pool} (hstored : r.get? pool.identifier = some pool)
    {assets : List Coin} (hr : pool.Refills assets) :
    r.Refilled (r.save (pool.withAssets assets)) where
  kept id p hp := by
    by_cases hid : pool.identifier = id
    · subst hid
      rw [hstored, Option.some.injEq] at hp
      subst hp
      exact ⟨assets, hr, by rw [Registry.save, Table.get?_put, Pool.withAssets, if_pos rfl]⟩
    · refine ⟨p.assets, .refl (h _ _ hp).2, ?_⟩
      rw [Registry.save, Table.get?_put, Pool.withAssets, if_neg hid]
      exact hp
  absent id hp := by
    have hne : pool.identifier ≠ id := by
      rintro rfl
      rw [hstored] at hp
      cases hp
    rwa [Registry.save, Table.get?_put, Pool.withAssets, if_neg hne]

/-- Every pool of the later registry is one of the earlier, with new amounts. -/
theorem origin (h : r.Refilled r') {id : String} {p' : Pool} (hp' : r'.get? id = some p') :
    ∃ p assets, r.get? id = some p ∧ p.Refills assets ∧ p' = p.withAssets assets := by
  cases hp : r.get? id with
  | none =>
      rw [h.absent id hp] at hp'
      cases hp'
  | some p =>
      obtain ⟨assets, hr, hkept⟩ := h.kept id p hp
      rw [hkept, Option.some.injEq] at hp'
      exact ⟨p, assets, rfl, hr, hp'.symm⟩

theorem sound (h : r.Refilled r') (hs : r.Sound) : r'.Sound := by
  intro id p' hp'
  obtain ⟨p, assets, hp, hr, rfl⟩ := h.origin hp'
  exact ⟨(hs _ _ hp).1, (hs _ _ hp).2.withAssets hr⟩

end Refilled

/-- A new record changes the reserves by the difference to the old one. -/
theorem reserves_save {r : Registry} {old new : Pool} (h : r.get? new.identifier = some old)
    (denom : String) :
    (r.save new).reserves denom = r.reserves denom + new.reserve denom - old.reserve denom := by
  rw [reserves, Registry.save, Table.sumBy_put, Table.measureAt_of_get? h]
  rfl

end Registry

end MarketMaker

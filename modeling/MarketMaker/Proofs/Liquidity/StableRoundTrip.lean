import MarketMaker.Proofs.Liquidity.Withdrawals
import MarketMaker.Proofs.StableSwap.Swap

/-! # Deposits and withdrawals on the stableswap curve

The shares of a deposit are in proportion to the growth of the invariant. Were the invariants exact,
a deposit and the withdrawal of its shares would never bring a gain: in proportion, the exact
invariant grows by less than the balance that grows most, unless all grow alike. The computed
invariants are truncated one by one, and a deposit gains from them exactly where that inequality
does not survive the truncation. -/

namespace MarketMaker

/-! ## Exact invariants of balances that grow -/

namespace StableSwap

variable {amp t u : Int}

section Growth

variable {α : Type} {f g : α → Int} {xs : List α}

theorem sumOf_mul_le (h : ∀ x ∈ xs, g x * t ≤ f x * u) :
    sumOf (xs.map g) * t ≤ sumOf (xs.map f) * u := by
  induction xs with
  | nil => simp [sumOf]
  | cons x rest ih =>
      rw [List.forall_mem_cons] at h
      have hrest := ih h.2
      rw [List.map_cons, List.map_cons, sumOf_cons, sumOf_cons, Int.add_mul, Int.add_mul]
      omega

/-- Balances of which none grows by more than `u / t`, and one by less, grow by less in all. -/
theorem sumOf_mul_lt (h : ∀ x ∈ xs, g x * t ≤ f x * u) (hlt : ∃ x ∈ xs, g x * t < f x * u) :
    sumOf (xs.map g) * t < sumOf (xs.map f) * u := by
  induction xs with
  | nil =>
      obtain ⟨x, hx, -⟩ := hlt
      cases hx
  | cons x rest ih =>
      rw [List.forall_mem_cons] at h
      rw [List.map_cons, List.map_cons, sumOf_cons, sumOf_cons, Int.add_mul, Int.add_mul]
      obtain ⟨y, hy, hyt⟩ := hlt
      rcases List.mem_cons.1 hy with rfl | hy
      · have hrest := sumOf_mul_le h.2
        omega
      · have hrest := ih h.2 ⟨y, hy, hyt⟩
        omega

theorem prod_mul_pow_le (ht : 0 ≤ t) (hg : ∀ x ∈ xs, 0 ≤ g x)
    (h : ∀ x ∈ xs, g x * t ≤ f x * u) :
    (xs.map g).prod * t ^ xs.length ≤ (xs.map f).prod * u ^ xs.length := by
  induction xs with
  | nil => simp
  | cons x rest ih =>
      rw [List.forall_mem_cons] at h hg
      have hgt : 0 ≤ g x * t := Int.mul_nonneg hg.1 ht
      have hrest : 0 ≤ (rest.map g).prod * t ^ rest.length :=
        Int.mul_nonneg (List.prod_nonneg (by simpa using hg.2)) (pow_nonneg ht _)
      rw [List.map_cons, List.map_cons, List.prod_cons, List.prod_cons, List.length_cons]
      calc g x * (rest.map g).prod * t ^ (rest.length + 1)
          = g x * t * ((rest.map g).prod * t ^ rest.length) := by ring
        _ ≤ f x * u * ((rest.map f).prod * u ^ rest.length) :=
            Int.mul_le_mul h.1 (ih hg.2 h.2) hrest (Int.le_trans hgt h.1)
        _ = f x * (rest.map f).prod * u ^ (rest.length + 1) := by ring

theorem sumOf_lt_ratio (ht : 0 < t) (h : ∀ x ∈ xs, g x * t ≤ f x * u)
    (hlt : ∃ x ∈ xs, g x * t < f x * u) :
    (sumOf (xs.map g) : ℝ) < u / t * sumOf (xs.map f) := by
  have ht' : (0 : ℝ) < t := by exact_mod_cast ht
  have hmul : (sumOf (xs.map g) : ℝ) * t < sumOf (xs.map f) * u := by
    exact_mod_cast sumOf_mul_lt h hlt
  rw [div_mul_eq_mul_div, lt_div_iff₀ ht']
  linarith

theorem scaledProduct_le_ratio (ht : 0 < t) (hg : ∀ x ∈ xs, 0 ≤ g x)
    (h : ∀ x ∈ xs, g x * t ≤ f x * u) :
    (scaledProduct (xs.map g) : ℝ) ≤ (u / t) ^ xs.length * scaledProduct (xs.map f) := by
  have ht' : (0 : ℝ) < t := by exact_mod_cast ht
  have hpower : (0 : Int) ≤ (xs.length : Int) ^ xs.length := by positivity
  have hprod := Int.mul_le_mul_of_nonneg_left (prod_mul_pow_le (Int.le_of_lt ht) hg h) hpower
  have hmul : (scaledProduct (xs.map g) : ℝ) * t ^ xs.length ≤
      scaledProduct (xs.map f) * u ^ xs.length := by
    rw [← Int.mul_assoc, ← Int.mul_assoc] at hprod
    rw [scaledProduct, scaledProduct, List.length_map, List.length_map]
    exact_mod_cast hprod
  rw [div_pow, div_mul_eq_mul_div, le_div_iff₀ (pow_pos ht' _)]
  linarith

end Growth

/-- Where balances grow by less than `l` in sum, and by no more than its power in product, the root
grows by less than `l`. -/
theorem root_lt {a l s₀ s₁ p₀ p₁ r₀ r₁ : ℝ} {k : Nat} (ha : 1 ≤ a) (hl : 0 < l) (hp₀ : 0 < p₀)
    (hp₁ : 0 < p₁) (hr₀ : 0 < r₀) (hr₁ : 0 < r₁) (hsum : s₁ < l * s₀)
    (hproduct : p₁ ≤ l ^ k * p₀) (hroot₀ : (a - 1) * r₀ * p₀ + r₀ ^ (k + 1) = a * s₀ * p₀)
    (hroot₁ : (a - 1) * r₁ * p₁ + r₁ ^ (k + 1) = a * s₁ * p₁) : r₁ < l * r₀ := by
  have hmono := strictMonoOn_polynomial (sub_nonneg.2 ha) (le_of_lt hp₁) k
  refine (hmono.lt_iff_lt (le_of_lt hr₁) (le_of_lt (mul_pos hl hr₀))).1 ?_
  have happ : 0 < a * p₁ * p₀ := by positivity
  have hpower : 0 ≤ l * r₀ ^ (k + 1) := by positivity
  refine lt_of_mul_lt_mul_right (a := p₀) ?_ (le_of_lt hp₀)
  calc ((a - 1) * r₁ * p₁ + r₁ ^ (k + 1)) * p₀ = a * p₁ * p₀ * s₁ := by rw [hroot₁]; ring
    _ < a * p₁ * p₀ * (l * s₀) := mul_lt_mul_of_pos_left hsum happ
    _ = l * p₁ * ((a - 1) * r₀ * p₀ + r₀ ^ (k + 1)) := by rw [hroot₀]; ring
    _ = (a - 1) * (l * r₀) * p₁ * p₀ + l * r₀ ^ (k + 1) * p₁ := by ring
    _ ≤ (a - 1) * (l * r₀) * p₁ * p₀ + l * r₀ ^ (k + 1) * (l ^ k * p₀) := by gcongr
    _ = ((a - 1) * (l * r₀) * p₁ + (l * r₀) ^ (k + 1)) * p₀ := by ring

/-- The exact invariant grows by less than `u / t` if all balances grow by no more, and one by
less. -/
theorem exact_mul_lt {α : Type} {f g : α → Int} {xs : List α} (hamp : 1 ≤ amp) (ht : 0 < t)
    (hu : 0 < u) (hf : ∀ x ∈ xs, 0 < f x) (hg : ∀ x ∈ xs, 0 < g x)
    (h : ∀ x ∈ xs, g x * t ≤ f x * u) (hlt : ∃ x ∈ xs, g x * t < f x * u) {r₀ r₁ : ℝ}
    (hr₀ : IsExact amp (xs.map f) r₀) (hr₁ : IsExact amp (xs.map g) r₁) : t * r₁ < u * r₀ := by
  obtain ⟨x, hx, -⟩ := id hlt
  have hfmap : ∀ y ∈ xs.map f, 0 < y := by simpa using hf
  have hgmap : ∀ y ∈ xs.map g, 0 < y := by simpa using hg
  have hne : xs ≠ [] := List.ne_nil_of_mem hx
  have hp₀ : (0 : ℝ) < scaledProduct (xs.map f) := by
    exact_mod_cast scaledProduct_pos (by simpa using hne) hfmap
  have hp₁ : (0 : ℝ) < scaledProduct (xs.map g) := by
    exact_mod_cast scaledProduct_pos (by simpa using hne) hgmap
  have hann : (1 : ℝ) ≤ annOf amp (xs.map f) := by
    have hlength : 0 < (xs.map f).length := by simpa using List.length_pos_iff.2 hne
    exact_mod_cast (one_le_ann hamp (by omega) : 1 ≤ annOf amp (xs.map f))
  have hsame : annOf amp (xs.map g) = annOf amp (xs.map f) := by
    rw [annOf, annOf, List.length_map, List.length_map]
  have ht' : (0 : ℝ) < t := by exact_mod_cast ht
  have hu' : (0 : ℝ) < u := by exact_mod_cast hu
  have hproduct := scaledProduct_le_ratio ht (fun x hx => Int.le_of_lt (hg x hx)) h
  obtain ⟨hr₀pos, hroot₀⟩ := hr₀
  obtain ⟨hr₁pos, hroot₁⟩ := hr₁
  rw [hsame] at hroot₁
  rw [List.length_map] at hroot₀ hroot₁
  have hlt := root_lt hann (div_pos hu' ht') hp₀ hp₁ hr₀pos hr₁pos
    (sumOf_lt_ratio ht h hlt) hproduct hroot₀ hroot₁
  rwa [div_mul_eq_mul_div, lt_div_iff₀ ht', mul_comm] at hlt

end StableSwap

/-! ## Amounts in the units of the curve -/

namespace Precision

theorem normalize_eq_ok {amounts decimals out : List Int} :
    normalize amounts decimals = .ok out ↔ amounts.length = decimals.length ∧
      ∃ precision, common? decimals = some precision ∧
        out = List.zipWith (fun amount places => raise amount places precision)
          amounts decimals := by
  rw [normalize, Result.guarded_eq_ok, ne_eq, Decidable.not_not]
  cases common? decimals with
  | none => simp
  | some precision => simp [eq_comm]

theorem raise_mul_le {a b t u : Int} (h : a * t ≤ b * u) (source target : Int) :
    raise a source target * t ≤ raise b source target * u := by
  rw [raise, raise, Int.mul_right_comm, Int.mul_right_comm b]
  exact Int.mul_le_mul_of_nonneg_right h (Int.le_of_lt (unitsPer_pos _))

theorem raise_mul_lt {a b t u : Int} (h : a * t < b * u) (source target : Int) :
    raise a source target * t < raise b source target * u := by
  rw [raise, raise, Int.mul_right_comm, Int.mul_right_comm b]
  exact Int.mul_lt_mul_of_pos_right h (unitsPer_pos _)

end Precision

namespace Deposit

def raisedBy (p : Pool) (precision : Int) (f : Coin → Int) : List Int :=
  (p.assets.zip p.decimals).map fun e => Precision.raise (f e.1) e.2 precision

theorem curveAmounts_map_eq_ok {p : Pool} {amp : Int} (hcurve : p.curve = .stableSwap amp)
    {f : Coin → Int} {out : List Int} : curveAmounts p (p.assets.map f) = .ok out ↔
      p.assets.length = p.decimals.length ∧ ∃ precision,
        Precision.common? p.decimals = some precision ∧ out = raisedBy p precision f := by
  have hzip (precision : Int) : raisedBy p precision f =
      List.zipWith (fun c places => Precision.raise (f c) places precision) p.assets p.decimals :=
    List.map_zip_eq_zipWith
  simp only [curveAmounts, hcurve, Precision.normalize_eq_ok, List.length_map, hzip,
    List.zipWith_map_left]

variable {p : Pool} {precision : Int} {f g : Coin → Int}

theorem raisedBy_add : List.zipWith (· + ·) (raisedBy p precision f) (raisedBy p precision g) =
    raisedBy p precision fun c => f c + g c := by
  simp only [raisedBy, List.zipWith_map, List.zipWith_self, Precision.raise_add]

theorem length_raisedBy (hlength : p.decimals.length = p.assets.length) :
    (raisedBy p precision f).length = p.assets.length := by
  rw [raisedBy, List.length_map, List.length_zip, hlength, Nat.min_self]

/-! ## The shares of a deposit -/

variable {d : Deposit} {s t s' : State} {amp d₀ d₁ share k : Int} {o : Outcome}

def grown (d : Deposit) (c : Coin) : Int := c.amount + d.amountOf c.denom

theorem balances_withAssets_grown (d : Deposit) (p : Pool) :
    (p.withAssets (d.grownAssets p)).balances = p.assets.map d.grown := by
  rw [Pool.balances, Pool.withAssets, grownAssets, List.map_map]
  rfl

/-- What the shares of a deposit into a stableswap pool are computed from. -/
structure StableMint (d : Deposit) (s : State) (p : Pool) (amp precision d₀ d₁ share : Int) :
    Prop where
  length : p.assets.length = p.decimals.length
  common : Precision.common? p.decimals = some precision
  before : StableSwap.invariant s.config.solver amp (raisedBy p precision Coin.amount) = .ok d₀
  after : StableSwap.invariant s.config.solver amp (raisedBy p precision d.grown) = .ok d₁
  ne : d₀ ≠ 0
  share : share = (s.shareSupply p * (d₁ - d₀)).fdiv d₀

theorem Accepted.stableMint {deposits balances : List Int} {issued : List Effect}
    (h : d.Accepted s p deposits balances share issued o) (hcurve : p.curve = .stableSwap amp)
    (hsupply : s.shareSupply p ≠ 0) :
    ∃ precision d₀ d₁, d.StableMint s p amp precision d₀ d₁ share := by
  have hamounts : d.amounts p = p.assets.map fun c => d.amountOf c.denom := List.map_map
  obtain ⟨hlength, precision, hprecision, hbalances⟩ :=
    (curveAmounts_map_eq_ok hcurve).1 h.balances_eq
  obtain ⟨-, precision', hprecision', hdeposits⟩ :=
    (curveAmounts_map_eq_ok hcurve).1 (hamounts ▸ h.deposits_eq)
  obtain rfl : precision = precision' := Option.some.inj (hprecision.symm.trans hprecision')
  have hshare := (share_eq_ok h.share_eq).2
  rw [if_neg hsupply, hcurve, laterShare, hbalances, hdeposits, raisedBy_add] at hshare
  obtain ⟨_, hminted, hsome⟩ := Result.bind_eq_ok.1 hshare
  obtain ⟨d₀, hd₀, hrest⟩ := Result.bind_eq_ok.1 hminted
  obtain ⟨d₁, hd₁, hrest⟩ := Result.bind_eq_ok.1 hrest
  split at hrest
  · cases hrest
    cases hsome
  · obtain ⟨_, hmulDiv, hrest⟩ := Result.bind_eq_ok.1 hrest
    obtain ⟨_, hnarrow, hrest⟩ := Result.bind_eq_ok.1 hrest
    cases hrest
    cases hsome
    obtain ⟨hne, rfl⟩ := Checked.mulDiv_eq_ok_iff.1 hmulDiv
    obtain ⟨-, -, rfl⟩ := Checked.narrow_eq_ok_iff.1 hnarrow
    exact ⟨precision, d₀, d₁, hlength, hprecision, hd₀, hd₁, hne, rfl⟩

theorem StableMint.curveAmounts_before (h : d.StableMint s p amp precision d₀ d₁ share)
    (hcurve : p.curve = .stableSwap amp) :
    curveAmounts p p.balances = .ok (raisedBy p precision Coin.amount) :=
  (curveAmounts_map_eq_ok hcurve).2 ⟨h.length, precision, h.common, rfl⟩

theorem StableMint.curveAmounts_after (h : d.StableMint s p amp precision d₀ d₁ share)
    (hcurve : p.curve = .stableSwap amp) (ho : o.pool = p.withAssets (d.grownAssets p)) :
    curveAmounts o.pool o.pool.balances = .ok (raisedBy p precision d.grown) := by
  rw [ho, balances_withAssets_grown]
  exact (curveAmounts_map_eq_ok hcurve).2 ⟨h.length, precision, h.common, rfl⟩

/-- A number of shares exceeds those of a deposit where the computed invariant has not grown by as
much as the supply would. -/
theorem StableMint.lt_iff (h : d.StableMint s p amp precision d₀ d₁ share) (hd₀ : 0 < d₀) :
    share < k ↔ s.shareSupply p * d₁ < (s.shareSupply p + k) * d₀ := by
  rw [h.share, fdiv_lt_iff hd₀, Int.mul_sub, Int.add_mul]
  omega

theorem StableMint.pos (h : d.StableMint s p amp precision d₀ d₁ share) (hp : p.Valid)
    (hcurve : p.curve = .stableSwap amp) : 0 < d₀ := by
  have hnonneg : ∀ x ∈ raisedBy p precision Coin.amount, 0 ≤ x := by
    intro x hx
    obtain ⟨e, he, rfl⟩ := List.mem_map.1 hx
    exact Precision.raise_nonneg (hp.assets_valid _ (List.of_mem_zip he).1).2.1 _ _
  have hcount := hp.asset_count.1
  have hlength : (1 : Int) ≤ (raisedBy p precision Coin.amount).length := by
    rw [length_raisedBy h.length.symm]
    omega
  have hinvariant := StableSwap.invariantOf_nonneg (hp.one_le_amp hcurve) hlength hnonneg h.before
  have hne := h.ne
  omega

/-! ## Gains -/

def returned (d : Deposit) (supply k : Int) (c : Coin) : Int :=
  (d.grown c * k).fdiv (supply + k)

/-- What is paid is no less of any asset than the deposit brought, and more of one. -/
def Outpaid (d : Deposit) (p : Pool) (paid : Coin → Int) : Prop :=
  (∀ c ∈ p.assets, d.amountOf c.denom ≤ paid c) ∧ ∃ c ∈ p.assets, d.amountOf c.denom < paid c

instance (d : Deposit) (p : Pool) (paid : Coin → Int) : Decidable (d.Outpaid p paid) :=
  inferInstanceAs (Decidable (_ ∧ _))

theorem Outpaid.mono {paid more : Coin → Int} (h : d.Outpaid p paid)
    (hle : ∀ c ∈ p.assets, paid c ≤ more c) : d.Outpaid p more := by
  obtain ⟨hall, c, hc, hgain⟩ := h
  refine ⟨fun x hx => Int.le_trans (hall x hx) (hle x hx), c, hc, ?_⟩
  exact Int.lt_of_lt_of_le hgain (hle c hc)

theorem Outpaid.congr {paid paid' : Coin → Int} (h : ∀ c ∈ p.assets, paid c = paid' c) :
    d.Outpaid p paid ↔ d.Outpaid p paid' :=
  ⟨fun ho => ho.mono fun c hc => Int.le_of_eq (h c hc),
    fun ho => ho.mono fun c hc => Int.le_of_eq (h c hc).symm⟩

/-- More shares are paid no less. -/
theorem returned_mono (d : Deposit) {supply k k' : Int} {c : Coin} (hsupply : 0 < supply)
    (hc : 0 ≤ d.grown c) (hk : 0 < k) (hle : k ≤ k') :
    d.returned supply k c ≤ d.returned supply k' c := by
  have hpaid := fdiv_mul_le (d.grown c * k) (show 0 < supply + k by omega)
  have hbelow : d.returned supply k c ≤ d.grown c := by
    refine Int.le_of_mul_le_mul_right (Int.le_trans hpaid ?_) (show 0 < supply + k by omega)
    exact Int.mul_le_mul_of_nonneg_left (by omega) hc
  rw [returned, returned, le_fdiv_iff (by omega), ← returned]
  calc d.returned supply k c * (supply + k')
      = d.returned supply k c * (supply + k) + d.returned supply k c * (k' - k) := by ring
    _ ≤ d.grown c * k + d.grown c * (k' - k) :=
        Int.add_le_add hpaid (Int.mul_le_mul_of_nonneg_right hbelow (by omega))
    _ = d.grown c * k' := by ring

/-- The assets for which shares are paid in full have grown by no more than the supply. -/
theorem grown_mul_le {supply : Int} {c : Coin} (hk : 0 < supply + k)
    (h : d.amountOf c.denom ≤ d.returned supply k c) :
    d.grown c * supply ≤ c.amount * (supply + k) := by
  have hmul := (le_fdiv_iff hk).1 h
  rw [grown] at hmul ⊢
  linarith

theorem grown_mul_lt {supply : Int} {c : Coin} (hk : 0 < supply + k)
    (h : d.amountOf c.denom < d.returned supply k c) :
    d.grown c * supply < c.amount * (supply + k) := by
  have hmul := (le_fdiv_iff hk).1 (Int.add_one_le_of_lt h)
  rw [grown] at hmul ⊢
  linarith

/-- Shares that gain are more than those that exact invariants would issue. -/
theorem Outpaid.exact_mul_lt {supply : Int} (h : d.Outpaid p (d.returned supply k)) (hamp : 1 ≤ amp)
    (hlength : p.assets.length = p.decimals.length) (hreserves : ∀ c ∈ p.assets, 0 < c.amount)
    (hnonneg : ∀ c ∈ d.coins, 0 ≤ c.amount) (hsupply : 0 < supply) (hk : 0 < k) {r₀ r₁ : ℝ}
    (hr₀ : StableSwap.IsExact amp (raisedBy p precision Coin.amount) r₀)
    (hr₁ : StableSwap.IsExact amp (raisedBy p precision d.grown) r₁) :
    supply * r₁ < (supply + k) * r₀ := by
  obtain ⟨hall, c, hc, hmore⟩ := h
  obtain ⟨e, he, rfl⟩ : ∃ e ∈ p.assets.zip p.decimals, e.1 = c := by
    rw [← List.map_fst_zip (Nat.le_of_eq hlength)] at hc
    exact List.mem_map.1 hc
  have hamount (x : Coin × Int) (hx : x ∈ p.assets.zip p.decimals) : x.1 ∈ p.assets :=
    (List.of_mem_zip hx).1
  have hgrown (x : Coin × Int) (hx : x ∈ p.assets.zip p.decimals) : 0 < d.grown x.1 :=
    Int.add_pos_of_pos_of_nonneg (hreserves _ (hamount x hx)) (amountOf_nonneg hnonneg _)
  have hlt := StableSwap.exact_mul_lt hamp hsupply (show 0 < supply + k by omega)
    (fun x hx => Precision.raise_pos (hreserves _ (hamount x hx)) _ _)
    (fun x hx => Precision.raise_pos (hgrown x hx) _ _)
    (fun x hx => Precision.raise_mul_le (grown_mul_le (by omega) (hall _ (hamount x hx))) _ _)
    ⟨e, he, Precision.raise_mul_lt (grown_mul_lt (by omega) hmore) _ _⟩ hr₀ hr₁
  exact_mod_cast hlt

/-- The shares of a deposit gain nothing exactly where every number of shares that would gain is
more than the growth of the computed invariant allows for. -/
theorem StableMint.not_outpaid_iff (h : d.StableMint s p amp precision d₀ d₁ share)
    (hp : p.Valid) (hcurve : p.curve = .stableSwap amp) (hnonneg : ∀ c ∈ d.coins, 0 ≤ c.amount)
    (hsupply : 0 < s.shareSupply p) (hshare : 0 < share) :
    ¬d.Outpaid p (d.returned (s.shareSupply p) share) ↔
      ∀ k, 0 < k → d.Outpaid p (d.returned (s.shareSupply p) k) →
        s.shareSupply p * d₁ < (s.shareSupply p + k) * d₀ := by
  have hiff (k : Int) := h.lt_iff (k := k) (h.pos hp hcurve)
  constructor
  · intro hnot k hk hgains
    rw [← hiff]
    by_contra hle
    refine hnot (hgains.mono fun c hc => ?_)
    have hgrown : 0 ≤ d.grown c :=
      Int.add_nonneg (hp.assets_valid c hc).2.1 (amountOf_nonneg hnonneg _)
    exact returned_mono d hsupply hgrown hk (by omega)
  · intro hall hgains
    have hlt := hall share hshare hgains
    rw [← hiff] at hlt
    omega

/-- The shares of a deposit can be withdrawn, and are paid what is computed for them. -/
theorem Accepted.exists_withdrawal {deposits balances : List Int} {issued : List Effect}
    (h : d.Accepted s p deposits balances share issued o) (hp : p.Valid)
    (hnonneg : ∀ c ∈ d.coins, 0 ≤ c.amount) (hsupply : 0 < s.shareSupply p)
    (hleft : o.Leaves s s') (henabled : s'.config.withdrawalsEnabled = true)
    (sender transaction : String) :
    ∃ w, Withdrawal.run p.identifier ⟨sender, [⟨p.lpDenom, share⟩], transaction⟩ s' =
        .ok w (s'.savePool w.pool) ∧
      ∀ c ∈ p.assets, Coin.total c.denom w.sent = d.returned (s.shareSupply p) share c := by
  have hrefills := h.refills_pool hp hnonneg
  have hpos := h.share_pos
  have hshares := hleft.shareSupply_eq hrefills.lpDenom
  rw [h.issues_eq_share (Int.ne_of_gt hsupply)] at hshares
  have hstored : s'.registry.get? p.identifier = some o.pool := hrefills.identifier ▸ hleft.stored
  obtain ⟨w, hw⟩ := Withdrawal.exists_run henabled hstored (hrefills.valid hp) hpos (by omega)
    sender transaction
  rw [hrefills.lpDenom] at hw
  refine ⟨w, hw, fun c hc => ?_⟩
  obtain ⟨q, amount, hpaid⟩ := Withdrawal.paid_of_run hw
  obtain rfl : q = o.pool := Option.some.inj (hpaid.stored.symm.trans hstored)
  obtain rfl : share = amount :=
    congrArg Coin.amount (List.singleton_inj.1 hpaid.funds)
  have hdenom : c.denom ∈ p.denoms := List.mem_map_of_mem hc
  have hreserve : o.pool.reserve c.denom = d.grown c := by
    rw [h.reserve_eq_add hp.denoms_nodup, if_pos hdenom, Pool.reserve,
      Coin.total_of_mem hp.denoms_nodup hc, grown]
  rw [hpaid.total_sent (hrefills.valid hp) (Int.le_of_lt hpos), hreserve, hshares, returned]

/-- To deposit into a stableswap pool and to withdraw the shares gains nothing exactly where the
computed invariants keep, for every number of shares that would gain, an inequality that the exact
invariants satisfy. -/
theorem not_outpaid_by_withdrawal_iff (hvalid : p.Valid) (hcurve : p.curve = .stableSwap amp)
    (hreserves : ∀ c ∈ p.assets, 0 < c.amount) (hsupply : 0 < s.shareSupply p)
    (hrun : d.run p s = .ok o t) (hnonneg : ∀ c ∈ d.coins, 0 ≤ c.amount) (hleft : o.Leaves s s')
    (henabled : s'.config.withdrawalsEnabled = true) (sender transaction : String) :
    ∃ before after d₀ d₁ share w,
      curveAmounts p p.balances = .ok before ∧
      StableSwap.invariant s.config.solver amp before = .ok d₀ ∧
      curveAmounts o.pool o.pool.balances = .ok after ∧
      StableSwap.invariant s.config.solver amp after = .ok d₁ ∧
      Effect.issues o.settlement.effects p.lpDenom = share ∧
      Withdrawal.run p.identifier ⟨sender, [⟨p.lpDenom, share⟩], transaction⟩ s' =
        .ok w (s'.savePool w.pool) ∧
      ((¬d.Outpaid p fun c => Coin.total c.denom w.sent) ↔
        ∀ k, 0 < k → d.Outpaid p (d.returned (s.shareSupply p) k) →
          s.shareSupply p * d₁ < (s.shareSupply p + k) * d₀) ∧
      ∀ k, 0 < k → d.Outpaid p (d.returned (s.shareSupply p) k) → ∀ r₀ r₁,
        StableSwap.IsExact amp before r₀ → StableSwap.IsExact amp after r₁ →
          s.shareSupply p * r₁ < (s.shareSupply p + k) * r₀ := by
  obtain ⟨deposits, balances, share, issued, haccepted⟩ := accepted_of_run hrun
  obtain ⟨precision, d₀, d₁, hmint⟩ := haccepted.stableMint hcurve (Int.ne_of_gt hsupply)
  obtain ⟨w, hw, hsent⟩ := haccepted.exists_withdrawal hvalid hnonneg hsupply hleft henabled sender
    transaction
  refine ⟨_, _, d₀, d₁, share, w, hmint.curveAmounts_before hcurve, hmint.before,
    hmint.curveAmounts_after hcurve haccepted.pool_eq, hmint.after,
    haccepted.issues_eq_share (Int.ne_of_gt hsupply), hw, ?_, ?_⟩
  · rw [Outpaid.congr hsent]
    exact hmint.not_outpaid_iff hvalid hcurve hnonneg hsupply haccepted.share_pos
  · intro k hk hgains r₀ r₁ hr₀ hr₁
    exact hgains.exact_mul_lt (hvalid.one_le_amp hcurve) hmint.length hreserves hnonneg hsupply hk
      hr₀ hr₁

/-- A stableswap pool of two assets with six decimal places and without fees. -/
def skewedPool (uom uusd : Int) : Pool where
  identifier := "o.dust"
  assets := [⟨"uom", uom⟩, ⟨"uusd", uusd⟩]
  curve := .stableSwap 1
  lpDenom := "factory/o.dust"
  fees := {}
  decimals := [6, 6]

def dust : Deposit :=
  ⟨[⟨"uom", 1⟩, ⟨"uusd", 1⟩], "bob", "bob", none, none, none⟩

/-- Three shares gain, and the computed invariants, 1086 and 1089, allow for three. The exact ones
allow for less. -/
theorem outpaid_by_withdrawal_dust :
    ∃ w s', Withdrawal.run "o.dust" ⟨"bob", [⟨"factory/o.dust", 3⟩], "tx-1"⟩
        (.holding (skewedPool 737 373) 1089) = .ok w s' ∧
      (dust.Outpaid (skewedPool 736 372) fun c => Coin.total c.denom w.sent) ∧
      ∀ r₀ r₁ : ℝ, StableSwap.IsExact 1 [736, 372] r₀ → StableSwap.IsExact 1 [737, 373] r₁ →
        1086 * r₁ < 1089 * r₀ := by
  obtain ⟨attributes, _, hrun⟩ : ∃ attributes t,
      dust.run (skewedPool 736 372) (.holding (skewedPool 736 372) 1086) =
        .ok ⟨skewedPool 737 373, [.mintShare "factory/o.dust" 3 "bob"], attributes⟩ t :=
    ⟨_, _, rfl⟩
  have hgains : dust.Outpaid (skewedPool 736 372) (dust.returned 1086 3) := by decide
  obtain ⟨before, after, d₀, d₁, share, w, hbefore, hd₀, hafter, hd₁, hshare, hw, hiff, hexact⟩ :=
    @not_outpaid_by_withdrawal_iff (skewedPool 736 372) dust _ _
      (.holding (skewedPool 737 373) 1089) 1 _ (by decide) rfl (by decide) (by decide) hrun
      (by decide) ⟨rfl, rfl⟩ rfl "bob" "tx-1"
  obtain rfl : [736, 372] = before := Except.ok.inj hbefore
  obtain rfl : [737, 373] = after := Except.ok.inj hafter
  obtain rfl : 1086 = d₀ := Except.ok.inj hd₀
  obtain rfl : 1089 = d₁ := Except.ok.inj hd₁
  obtain rfl : 3 = share := hshare
  refine ⟨w, _, hw, ?_, fun r₀ r₁ hr₀ hr₁ => ?_⟩
  · by_contra hnot
    have hlt := hiff.1 hnot 3 (by decide) hgains
    exact absurd hlt (by decide)
  · have hlt : ((1086 : Int) : ℝ) * r₁ < ((1086 : Int) + (3 : Int)) * r₀ :=
      hexact 3 (by decide) hgains r₀ r₁ hr₀ hr₁
    norm_num at hlt
    exact hlt

end Deposit

namespace Chain

open Deposit

def dustRun : List Event :=
  [ .addPool (skewedPool 0 0), .fund "alice" [⟨"uom", 736⟩, ⟨"uusd", 372⟩],
    .execute "alice" [⟨"uom", 736⟩, ⟨"uusd", 372⟩] (.deposit { pool := "o.dust" }),
    .fund "bob" [⟨"uom", 1⟩, ⟨"uusd", 1⟩] ]

def dustRoundTrip : List Event :=
  [ .execute "bob" [⟨"uom", 1⟩, ⟨"uusd", 1⟩] (.deposit { pool := "o.dust" }),
    .execute "bob" [⟨"factory/o.dust", 3⟩] (.withdraw "o.dust") ]

/-- The round trip costs nothing and brings another unit. -/
theorem gains_by_dustRoundTrip :
    let c := run dustRun (empty {} true)
    let c' := run dustRoundTrip c
    c.state.registry.get? "o.dust" = some (skewedPool 736 372) ∧
      c.state.ledger.supply "factory/o.dust" = 1086 ∧
      c.state.ledger.balance "bob" "uom" = 1 ∧ c.state.ledger.balance "bob" "uusd" = 1 ∧
      c'.state.ledger.supply "factory/o.dust" = 1086 ∧
      c'.state.ledger.balance "bob" "uom" = 2 ∧ c'.state.ledger.balance "bob" "uusd" = 1 := by
  decide +kernel

end Chain

end MarketMaker

import MarketMaker.Operation.Basic
import MarketMaker.Proofs.Aggregate
import MarketMaker.Proofs.Liquidity.Slippage

/-! # Coins seen from their totals

What comes of coins is decided by their denoms and totals: whether they can be aggregated at all,
and the coins that they are aggregated to. Coins may be added to others before or after. For a
deposit even the denoms do not matter that are there with a total of zero. The order decides only
which sum is named by the fault of coins that are too many. -/

namespace MarketMaker

/-! ## Results that raise one kind of fault at most -/

namespace Result

variable {α β : Type} {kind : FaultKind}

/-- A result that is there, or a fault of one kind. -/
def OkOrRaises (x : Result α) (kind : FaultKind) : Prop := (∃ a, x = .ok a) ∨ x.Raises kind

/-- The same results; only where `p` holds may they be faults of the kind with different texts. -/
def SameUnless (p : Prop) (kind : FaultKind) (x y : Result α) : Prop :=
  x = y ∨ p ∧ x.Raises kind ∧ y.Raises kind

theorem OkOrRaises.raises_iff {x : Result α} (h : x.OkOrRaises kind) :
    x.Raises kind ↔ ¬∃ a, x = .ok a := by
  constructor
  · rintro hraises ⟨a, rfl⟩
    exact not_raises_ok hraises
  · intro hnone
    exact h.resolve_left hnone

theorem Raises.map {x : Result α} (hx : x.Raises kind) (f : α → β) :
    Raises (x.map f) kind := by
  obtain ⟨fault, rfl, hkind⟩ := hx
  exact ⟨fault, rfl, hkind⟩

theorem OkOrRaises.bind {x : Result α} {f : α → Result β} (hx : x.OkOrRaises kind)
    (hf : ∀ a, (f a).OkOrRaises kind) : OkOrRaises (x >>= f) kind := by
  rcases hx with ⟨a, rfl⟩ | hraises
  · exact hf a
  · exact .inr (bind_raises_iff.2 (.inl hraises))

theorem OkOrRaises.map {x : Result α} (hx : x.OkOrRaises kind) (f : α → β) :
    OkOrRaises (x.map f) kind := by
  rcases hx with ⟨a, rfl⟩ | hraises
  · exact .inl ⟨f a, rfl⟩
  · exact .inr (hraises.map f)

theorem OkOrRaises.foldlM {f : β → α → Result β} (hf : ∀ b a, (f b a).OkOrRaises kind)
    (items : List α) (b : β) : OkOrRaises (items.foldlM f b) kind := by
  induction items generalizing b with
  | nil => exact .inl ⟨b, rfl⟩
  | cons a rest ih =>
      rw [List.foldlM_cons]
      exact (hf b a).bind ih

theorem SameUnless.eq_ok_iff {p : Prop} {x y : Result α} (h : SameUnless p kind x y) {a : α} :
    x = .ok a ↔ y = .ok a := by
  rcases h with rfl | ⟨-, hx, hy⟩
  · exact Iff.rfl
  · constructor
    · rintro rfl
      exact (not_raises_ok hx).elim
    · rintro rfl
      exact (not_raises_ok hy).elim

theorem SameUnless.bind {p : Prop} {x y : Result α} (h : SameUnless p kind x y)
    (f : α → Result β) : SameUnless p kind (x >>= f) (y >>= f) := by
  rcases h with rfl | ⟨hp, hx, hy⟩
  · exact .inl rfl
  · exact .inr ⟨hp, bind_raises_iff.2 (.inl hx), bind_raises_iff.2 (.inl hy)⟩

end Result

/-! ## Actions that are refused with one kind of fault at most -/

namespace Action

variable {σ α β : Type} {kind : FaultKind} {p : Prop} {s : σ}

/-- An action that fails in a state with a fault of a kind, and changes nothing. -/
def Refuses (x : Action σ α) (s : σ) (kind : FaultKind) : Prop :=
  ∃ fault, x s = .error (.fault fault) s ∧ fault.kind = kind

/-- Actions that do the same in a state; only where `p` holds may both be refused there, with faults
of the kind with different texts. -/
def SameUnless (p : Prop) (kind : FaultKind) (s : σ) (x y : Action σ α) : Prop :=
  x s = y s ∨ p ∧ x.Refuses s kind ∧ y.Refuses s kind

theorem Refuses.not_ok {x : Action σ α} {t : σ} {a : α} (h : x.Refuses s kind) :
    x s ≠ .ok a t := by
  obtain ⟨fault, hx, -⟩ := h
  rw [hx]
  exact fun hok => nomatch hok

theorem SameUnless.eq_ok_iff {x y : Action σ α} (h : SameUnless p kind s x y) {a : α} {t : σ} :
    x s = .ok a t ↔ y s = .ok a t := by
  rcases h with hsame | ⟨-, hx, hy⟩
  · rw [hsame]
  · exact ⟨fun hok => absurd hok hx.not_ok, fun hok => absurd hok hy.not_ok⟩

theorem refuses_lift_bind {x : Result α} (hx : x.Raises kind) (f : α → Action σ β) :
    Refuses ((liftM x : Action σ α) >>= f) s kind := by
  obtain ⟨fault, rfl, hkind⟩ := hx
  exact ⟨fault, rfl, hkind⟩

theorem SameUnless.get_bind {f g : σ → Action σ β} (h : SameUnless p kind s (f s) (g s)) :
    SameUnless p kind s ((get : Action σ σ) >>= f) ((get : Action σ σ) >>= g) := h

theorem SameUnless.lift_bind {x y : Result α} (h : Result.SameUnless p kind x y)
    (f : α → Action σ β) :
    SameUnless p kind s ((liftM x : Action σ α) >>= f) ((liftM y : Action σ α) >>= f) := by
  rcases h with rfl | ⟨hp, hx, hy⟩
  · exact .inl rfl
  · exact .inr ⟨hp, refuses_lift_bind hx f, refuses_lift_bind hy f⟩

theorem SameUnless.lift_bind_right (x : Result α) {f g : α → Action σ β}
    (h : ∀ a, SameUnless p kind s (f a) (g a)) :
    SameUnless p kind s ((liftM x : Action σ α) >>= f) ((liftM x : Action σ α) >>= g) := by
  cases x with
  | error e => exact .inl rfl
  | ok a => exact h a

end Action

open Result (OkOrRaises SameUnless)

theorem Checked.add_okOrRaises (a b : Int) : OkOrRaises (add a b) .overflow := by
  unfold add
  split
  · exact .inr ⟨_, rfl, rfl⟩
  · exact .inl ⟨_, rfl⟩

namespace Coin

variable {coins more base extra out : List Coin} {c : Coin}

/-! ## Aggregates -/

theorem tally_okOrRaises (c : Coin) (coins : List Coin) :
    OkOrRaises (tally c coins) .overflow := by
  induction coins with
  | nil => exact (Checked.add_okOrRaises _ _).map _
  | cons d rest ih =>
      rw [tally]
      split
      · exact (Checked.add_okOrRaises _ _).map _
      · split
        · exact (Checked.add_okOrRaises _ _).map _
        · exact ih.map _

theorem aggregate_okOrRaises (coins : List Coin) : OkOrRaises (aggregate coins) .overflow :=
  .foldlM (fun totals c => tally_okOrRaises c totals) coins []

/-- More of a denom than an amount can be. -/
def TooMany (coins : List Coin) : Prop := ∃ denom, maxAmount < total denom coins

theorem not_tooMany_iff : ¬TooMany coins ↔ ∀ denom, total denom coins ≤ maxAmount := by
  simp [TooMany]

theorem TooMany.congr (h : TooMany coins)
    (htotal : ∀ denom, total denom coins = total denom more) : TooMany more := by
  obtain ⟨denom, hover⟩ := h
  exact ⟨denom, htotal denom ▸ hover⟩

theorem aggregate_raises_iff (h : ∀ c ∈ coins, 0 ≤ c.amount) :
    (aggregate coins).Raises .overflow ↔ TooMany coins := by
  rw [(aggregate_okOrRaises coins).raises_iff, exists_aggregate_iff h, ← not_tooMany_iff,
    not_not]

theorem aggregate_bind_aggregate (h : ∀ c ∈ coins, 0 ≤ c.amount) :
    (aggregate coins >>= aggregate) = aggregate coins := by
  cases hcoins : aggregate coins with
  | error e => rfl
  | ok out =>
      have hgathered := gathered_of_aggregate hcoins
      exact aggregate_congr hcoins h (nonneg_aggregate hcoins h)
        (fun denom => (hgathered.denoms denom).symm) fun denom => (hgathered.total denom).symm

/-- The same denoms, and as much of each. -/
structure SameTotals (coins more : List Coin) : Prop where
  denoms : ∀ denom, denom ∈ coins.map Coin.denom ↔ denom ∈ more.map Coin.denom
  total : ∀ denom, total denom coins = total denom more

namespace SameTotals

theorem of_perm (h : coins.Perm more) : SameTotals coins more where
  denoms _ := (h.map Coin.denom).mem_iff
  total := total_perm h

theorem trans (h : SameTotals coins more) (h' : SameTotals more out) : SameTotals coins out where
  denoms denom := (h.denoms denom).trans (h'.denoms denom)
  total denom := (h.total denom).trans (h'.total denom)

theorem append_right (h : SameTotals coins more) (rest : List Coin) :
    SameTotals (coins ++ rest) (more ++ rest) where
  denoms denom := by rw [List.map_append, List.map_append, List.mem_append, List.mem_append,
    h.denoms]
  total denom := by rw [total_append, total_append, h.total]

theorem aggregate (h : SameTotals coins more) (hcoins : ∀ c ∈ coins, 0 ≤ c.amount)
    (hmore : ∀ c ∈ more, 0 ≤ c.amount) :
    SameUnless (TooMany coins) .overflow (aggregate coins) (aggregate more) := by
  rcases aggregate_okOrRaises coins with ⟨out, hout⟩ | hraises
  · exact .inl (hout.trans (aggregate_congr hout hcoins hmore h.denoms h.total).symm)
  · have hover := (aggregate_raises_iff hcoins).1 hraises
    exact .inr ⟨hover, hraises, (aggregate_raises_iff hmore).2 (hover.congr h.total)⟩

end SameTotals

/-! ## Coins that are added to others -/

/-- A coin is added to one that has none of its denom behind it. -/
theorem addToLast?_eq_some {sum : Result (List Coin)} (h : addToLast? c coins = some sum) :
    ∃ before d behind, coins = before ++ d :: behind ∧ d.denom = c.denom ∧
      sum = (Checked.add d.amount c.amount).map fun amount =>
        before ++ ⟨d.denom, amount⟩ :: behind := by
  induction coins generalizing sum with
  | nil => cases h
  | cons d rest ih =>
      simp only [addToLast?] at h
      split at h
      · rename_i inner hinner
        obtain ⟨before, e, behind, rfl, hdenom, rfl⟩ := ih hinner
        cases h
        refine ⟨d :: before, e, behind, rfl, hdenom, ?_⟩
        cases Checked.add e.amount c.amount <;> rfl
      · split at h
        · rename_i hdenom
          cases h
          exact ⟨[], d, rest, rfl, hdenom, rfl⟩
        · cases h

/-- Adding a coin puts it at the end, or makes one of its denom larger. -/
theorem addOne_cases (coins : List Coin) (c : Coin) :
    addOne coins c = .ok (coins ++ [c]) ∨
      ∃ before d behind, coins = before ++ d :: behind ∧ d.denom = c.denom ∧
        addOne coins c = (Checked.add d.amount c.amount).map fun amount =>
          before ++ ⟨d.denom, amount⟩ :: behind := by
  unfold addOne
  cases h : addToLast? c coins with
  | none => exact .inl rfl
  | some sum => exact .inr (addToLast?_eq_some h)

theorem sameTotals_of_addOne (h : addOne coins c = .ok out) : SameTotals out (coins ++ [c]) := by
  rcases addOne_cases coins c with hlast | ⟨before, d, behind, rfl, hdenom, hsum⟩
  · cases hlast.symm.trans h
    exact ⟨fun _ => Iff.rfl, fun _ => rfl⟩
  · obtain ⟨_, hadd, rfl⟩ := Result.map_eq_ok.1 (hsum.symm.trans h)
    obtain ⟨-, rfl⟩ := Checked.add_eq_ok_iff.1 hadd
    constructor
    · intro denom
      simp [hdenom, or_comm, or_left_comm]
    · intro denom
      simp only [total_append, total_cons, total_nil, hdenom]
      split <;> omega

theorem nonneg_of_addOne (h : addOne coins c = .ok out) (hcoins : ∀ x ∈ coins, 0 ≤ x.amount)
    (hc : 0 ≤ c.amount) : ∀ x ∈ out, 0 ≤ x.amount := by
  rcases addOne_cases coins c with hlast | ⟨before, d, behind, rfl, -, hsum⟩
  · cases hlast.symm.trans h
    simpa [or_imp, forall_and] using And.intro hcoins hc
  · obtain ⟨_, hadd, rfl⟩ := Result.map_eq_ok.1 (hsum.symm.trans h)
    obtain ⟨-, rfl⟩ := Checked.add_eq_ok_iff.1 hadd
    obtain ⟨hbefore, hrest⟩ := List.forall_mem_append.1 hcoins
    obtain ⟨hd, hbehind⟩ := List.forall_mem_cons.1 hrest
    exact List.forall_mem_append.2
      ⟨hbefore, List.forall_mem_cons.2 ⟨Int.add_nonneg hd hc, hbehind⟩⟩

theorem addOne_okOrRaises (coins : List Coin) (c : Coin) :
    OkOrRaises (addOne coins c) .overflow := by
  rcases addOne_cases coins c with hlast | ⟨before, d, behind, -, -, hsum⟩
  · exact .inl ⟨_, hlast⟩
  · rw [hsum]
    exact (Checked.add_okOrRaises _ _).map _

/-- There is room for a coin where there is room for all of its denom. -/
theorem exists_addOne (hcoins : ∀ x ∈ coins, 0 ≤ x.amount)
    (hroom : total c.denom (coins ++ [c]) ≤ maxAmount) : ∃ out, addOne coins c = .ok out := by
  rcases addOne_cases coins c with hlast | ⟨before, d, behind, rfl, hdenom, hsum⟩
  · exact ⟨_, hlast⟩
  · have hd : d.amount ≤ total c.denom (before ++ d :: behind) :=
      hdenom ▸ amount_le_total hcoins (by simp)
    rw [total_append, total_singleton, if_pos rfl] at hroom
    have hadd : Checked.add d.amount c.amount = .ok (d.amount + c.amount) :=
      Checked.add_eq_ok_iff.2 ⟨by omega, rfl⟩
    exact ⟨_, by rw [hsum, hadd]; rfl⟩

/-- Coins are added as if they were put at the end, unless there is too much of a denom then. The
induction is on the coins that are added; what they are added to keeps the totals. -/
theorem addAll_cases (hbase : ∀ c ∈ base, 0 ≤ c.amount) (hextra : ∀ c ∈ extra, 0 ≤ c.amount) :
    (∃ sum, addAll base extra = .ok sum ∧ (∀ c ∈ sum, 0 ≤ c.amount) ∧
        SameTotals sum (base ++ extra)) ∨
      (addAll base extra).Raises .overflow ∧ TooMany (base ++ extra) := by
  induction extra generalizing base with
  | nil =>
      refine .inl ⟨base, addAll_nil, hbase, ?_⟩
      rw [List.append_nil]
      exact ⟨fun _ => Iff.rfl, fun _ => rfl⟩
  | cons c rest ih =>
      obtain ⟨hc, hrest⟩ := List.forall_mem_cons.1 hextra
      have hcons : base ++ c :: rest = base ++ [c] ++ rest := by simp
      rw [hcons]
      rcases addOne_okOrRaises base c with ⟨next, hnext⟩ | hraises
      · have hsame := (sameTotals_of_addOne hnext).append_right rest
        have hstep : addAll base (c :: rest) = addAll next rest := by
          rw [addAll, List.foldlM_cons, hnext]
          rfl
        rw [hstep]
        rcases ih (nonneg_of_addOne hnext hbase hc) hrest with
          ⟨sum, hsum, hnonneg, htotals⟩ | ⟨hraises, hover⟩
        · exact .inl ⟨sum, hsum, hnonneg, htotals.trans hsame⟩
        · exact .inr ⟨hraises, hover.congr hsame.total⟩
      · have hover : maxAmount < total c.denom (base ++ [c]) := by
          by_contra hroom
          obtain ⟨out, hout⟩ := exists_addOne hbase (Int.not_lt.1 hroom)
          exact Result.not_raises_ok (hout ▸ hraises)
        have hmore : 0 ≤ total c.denom rest := total_nonneg hrest
        refine .inr ⟨?_, c.denom, ?_⟩
        · rw [addAll, List.foldlM_cons]
          exact Result.bind_raises_iff.2 (.inl hraises)
        · rw [total_append]
          omega

/-- Coins come to the same whether they are added first or aggregated together. -/
theorem aggregate_addAll (hbase : ∀ c ∈ base, 0 ≤ c.amount) (hextra : ∀ c ∈ extra, 0 ≤ c.amount) :
    SameUnless (TooMany (base ++ extra)) .overflow (addAll base extra >>= aggregate)
      (aggregate (base ++ extra)) := by
  have hboth : ∀ c ∈ base ++ extra, 0 ≤ c.amount := List.forall_mem_append.2 ⟨hbase, hextra⟩
  rcases addAll_cases hbase hextra with ⟨sum, hsum, hnonneg, htotals⟩ | ⟨hraises, hover⟩
  · rw [hsum]
    rcases htotals.aggregate hnonneg hboth with hsame | ⟨hover, hraises⟩
    · exact .inl hsame
    · exact .inr ⟨hover.congr htotals.total, hraises⟩
  · exact .inr ⟨hover, Result.bind_raises_iff.2 (.inl hraises),
      (aggregate_raises_iff hboth).2 hover⟩

/-! ## Coins that are some -/

theorem mem_denoms_filter_pos (h : ∀ c ∈ coins, 0 ≤ c.amount) (denom : String) :
    denom ∈ (coins.filter fun c => 0 < c.amount).map Coin.denom ↔ 0 < total denom coins := by
  have hpos : ∀ c ∈ coins.filter fun c => 0 < c.amount, 0 < c.amount := fun c hc => by
    simpa using (List.mem_filter.1 hc).2
  rw [← total_filter_pos denom h]
  constructor
  · intro hmem
    obtain ⟨c, hc, rfl⟩ := List.mem_map.1 hmem
    exact Int.lt_of_lt_of_le (hpos c hc)
      (amount_le_total (fun x hx => Int.le_of_lt (hpos x hx)) hc)
  · intro htotal
    by_contra hnone
    rw [total_of_not_mem hnone] at htotal
    exact Int.lt_irrefl _ htotal

/-- Of ascending coins, those that are some are known by their totals. -/
theorem Ascending.filter_pos_eq (h : Ascending coins) (h' : Ascending more)
    (hcoins : ∀ c ∈ coins, 0 ≤ c.amount) (hmore : ∀ c ∈ more, 0 ≤ c.amount)
    (htotal : ∀ denom, total denom coins = total denom more) :
    (coins.filter fun c => 0 < c.amount) = more.filter fun c => 0 < c.amount := by
  have hself : Gathered (coins.filter fun c => 0 < c.amount)
      (coins.filter fun c => 0 < c.amount) := ⟨h.filter _, fun _ => Iff.rfl, fun _ => rfl⟩
  refine hself.eq ⟨h'.filter _, fun denom => ?_, fun denom => ?_⟩
  · rw [mem_denoms_filter_pos hcoins, mem_denoms_filter_pos hmore, htotal]
  · rw [total_filter_pos denom hcoins, total_filter_pos denom hmore, htotal]

/-- Coins of the same totals come to the same coins that are some. -/
theorem aggregate_filter_pos (hcoins : ∀ c ∈ coins, 0 ≤ c.amount)
    (hmore : ∀ c ∈ more, 0 ≤ c.amount) (htotal : ∀ denom, total denom coins = total denom more) :
    SameUnless (TooMany coins) .overflow
      ((aggregate coins).map fun all => all.filter fun c => 0 < c.amount)
      ((aggregate more).map fun all => all.filter fun c => 0 < c.amount) := by
  by_cases hover : TooMany coins
  · exact .inr ⟨hover, ((aggregate_raises_iff hcoins).2 hover).map _,
      ((aggregate_raises_iff hmore).2 (hover.congr htotal)).map _⟩
  · have hroom := not_tooMany_iff.1 hover
    obtain ⟨a, ha⟩ := (exists_aggregate_iff hcoins).2 hroom
    obtain ⟨b, hb⟩ := (exists_aggregate_iff hmore).2 fun denom => htotal denom ▸ hroom denom
    have hsame : (a.filter fun c => 0 < c.amount) = b.filter fun c => 0 < c.amount :=
      (ascending_aggregate ha).filter_pos_eq (ascending_aggregate hb)
        (nonneg_aggregate ha hcoins) (nonneg_aggregate hb hmore) fun denom => by
          rw [total_aggregate ha, total_aggregate hb, htotal]
    rw [ha, hb]
    exact .inl (congrArg Except.ok hsame)

end Coin

open Coin

/-! ## Deposits -/

namespace DepositOrder

/-- The coins of a call are the aggregated ones that are some, if the pool holds them. -/
theorem coinsOf_eq_bind (call : Call) (pool : Pool) :
    coinsOf call pool =
      ((aggregate call.funds).map fun all => all.filter fun c => 0 < c.amount) >>= fun coins =>
        if coins = [] then fail .emptyAssets
        else
          match coins.find? fun c => !pool.holds c.denom with
          | some c => fail (.denomNotInPool c.denom pool.identifier)
          | none => .ok coins := by
  unfold coinsOf
  cases aggregate call.funds <;> rfl

/-- Funds of the same totals make the same deposit. -/
theorem run_funds_congr (order : DepositOrder) (s : State) (call : Call) {coins more : List Coin}
    (hcoins : ∀ c ∈ coins, 0 ≤ c.amount) (hmore : ∀ c ∈ more, 0 ≤ c.amount)
    (htotal : ∀ denom, total denom coins = total denom more) :
    Action.SameUnless (TooMany coins) .overflow s (order.run { call with funds := coins })
      (order.run { call with funds := more }) := by
  have hbrought (pool : Pool) : SameUnless (TooMany coins) .overflow
      (coinsOf { call with funds := coins } pool) (coinsOf { call with funds := more } pool) := by
    rw [coinsOf_eq_bind, coinsOf_eq_bind]
    exact (aggregate_filter_pos hcoins hmore htotal).bind _
  refine .get_bind (.lift_bind_right _ fun _ => ?_)
  exact .lift_bind_right _ fun pool => .lift_bind (hbrought pool) _

end DepositOrder

/-! ## What coins are known by -/

/-- What comes of coins is decided by their totals, and their denoms where zeros are kept. Where
coins are too many, every order of them is refused; only the sum that the fault names may differ. -/
theorem Coin.aggregate_known_by_totals {coins : List Coin} (h : ∀ c ∈ coins, 0 ≤ c.amount) :
    ((aggregate coins).Raises .overflow ↔ TooMany coins) ∧
      (¬TooMany coins → ∃ out, aggregate coins = .ok out ∧ Gathered coins out) ∧
      (aggregate coins >>= aggregate) = aggregate coins ∧
      (∀ more, more.Perm coins →
        SameUnless (TooMany coins) .overflow (aggregate coins) (aggregate more)) ∧
      (∀ more, (∀ c ∈ more, 0 ≤ c.amount) → SameTotals coins more →
        SameUnless (TooMany coins) .overflow (aggregate coins) (aggregate more)) ∧
      (∀ more, (∀ c ∈ more, 0 ≤ c.amount) → (∀ denom, total denom coins = total denom more) →
        ∀ (order : DepositOrder) (s : State) (call : Call),
          Action.SameUnless (TooMany coins) .overflow s (order.run { call with funds := coins })
            (order.run { call with funds := more })) ∧
      ∀ extra, (∀ c ∈ extra, 0 ≤ c.amount) →
        SameUnless (TooMany (coins ++ extra)) .overflow (addAll coins extra >>= aggregate)
          (aggregate (coins ++ extra)) := by
  refine ⟨aggregate_raises_iff h, fun hroom => ?_, aggregate_bind_aggregate h, fun more hperm => ?_,
    fun more hmore hsame => hsame.aggregate h hmore,
    fun more hmore htotal order s call => order.run_funds_congr s call h hmore htotal,
    fun extra hextra => aggregate_addAll h hextra⟩
  · obtain ⟨out, hout⟩ := (exists_aggregate_iff h).2 (not_tooMany_iff.1 hroom)
    exact ⟨out, hout, gathered_of_aggregate hout⟩
  · exact (SameTotals.of_perm hperm.symm).aggregate h fun c hc => h c (hperm.mem_iff.1 hc)

def Coin.parts : List Coin := [⟨"uom", 60⟩, ⟨"uusd", 400⟩, ⟨"ueth", 0⟩, ⟨"uom", 40⟩]

def DepositOrder.runUneven (funds : List Coin) : EStateM.Result Failure State Response :=
  run { pool := "o.uneven" } ⟨"alice", funds, "tx-1"⟩ (.holding Deposit.unevenPool 2000)

theorem Coin.aggregate_known_by_totals_parts :
    aggregate parts = .ok [⟨"ueth", 0⟩, ⟨"uom", 100⟩, ⟨"uusd", 400⟩] ∧
      (addAll parts parts >>= aggregate) = .ok [⟨"ueth", 0⟩, ⟨"uom", 200⟩, ⟨"uusd", 800⟩] ∧
      ∃ r s, DepositOrder.runUneven [⟨"uusd", 400⟩, ⟨"uom", 100⟩] = .ok r s ∧
        DepositOrder.runUneven parts = .ok r s := by
  have hall : aggregate parts = .ok [⟨"ueth", 0⟩, ⟨"uom", 100⟩, ⟨"uusd", 400⟩] := by cbv
  have hboth : aggregate (parts ++ parts) = .ok [⟨"ueth", 0⟩, ⟨"uom", 200⟩, ⟨"uusd", 800⟩] := by
    cbv
  obtain ⟨r, s, hwhole⟩ : ∃ r s,
      DepositOrder.runUneven [⟨"uusd", 400⟩, ⟨"uom", 100⟩] = .ok r s := ⟨_, _, rfl⟩
  have htotal (denom : String) :
      total denom parts = total denom [⟨"uusd", 400⟩, ⟨"uom", 100⟩] := by
    simp only [parts, total_cons, total_nil]
    split <;> split <;> split <;> rfl
  obtain ⟨-, -, -, -, -, hdeposit, hadd⟩ := @aggregate_known_by_totals parts (by decide)
  have hsame := hdeposit _ (by decide) htotal { pool := "o.uneven" }
    (.holding Deposit.unevenPool 2000) ⟨"alice", [], "tx-1"⟩
  exact ⟨hall, (hadd parts (by decide)).eq_ok_iff.2 hboth, r, s, hwhole,
    hsame.eq_ok_iff.2 hwhole⟩

end MarketMaker

import Mathlib.Data.List.Induction
import Mathlib.Data.List.Sort
import MarketMaker.Proofs.Reserve

/-! # Aggregated coins

Aggregation keeps the total of every denom and leaves one coin for each denom, in the order of
denoms. So what comes of coins is seen from their denoms and totals, and parts of them may be
aggregated first. -/

namespace MarketMaker.Coin

/-- Each denom comes before the next. -/
def Ascending (coins : List Coin) : Prop := coins.Pairwise fun c d => c.denom < d.denom

theorem Ascending.nodup {coins : List Coin} (h : Ascending coins) :
    (coins.map Coin.denom).Nodup := by
  rw [List.nodup_iff_pairwise_ne, List.pairwise_map]
  exact List.Pairwise.imp (fun hlt => String.ne_of_lt hlt) h

/-! ## One coin -/

theorem total_tally {c : Coin} {coins out : List Coin} (h : tally c coins = .ok out)
    (denom : String) : total denom out = total denom coins + total denom [c] := by
  induction coins generalizing out with
  | nil =>
      simp only [tally, Result.map_eq_ok, Checked.add_eq_ok_iff] at h
      obtain ⟨_, ⟨-, rfl⟩, rfl⟩ := h
      rw [total_singleton, total_singleton, total_nil]
      dsimp only
      split <;> omega
  | cons x rest ih =>
      simp only [tally] at h
      split at h
      · rename_i heq
        obtain ⟨_, hadd, rfl⟩ := Result.map_eq_ok.1 h
        obtain ⟨-, rfl⟩ := Checked.add_eq_ok_iff.1 hadd
        rw [total_cons, total_cons, total_singleton, heq]
        dsimp only
        split <;> omega
      · split at h
        · obtain ⟨_, hadd, rfl⟩ := Result.map_eq_ok.1 h
          obtain ⟨-, rfl⟩ := Checked.add_eq_ok_iff.1 hadd
          rw [total_cons, total_singleton]
          dsimp only
          split <;> omega
        · obtain ⟨more, hmore, rfl⟩ := Result.map_eq_ok.1 h
          rw [total_cons, total_cons, ih hmore]
          omega

theorem mem_denoms_tally {c : Coin} {coins out : List Coin} (h : tally c coins = .ok out)
    {denom : String} :
    denom ∈ out.map Coin.denom ↔ denom = c.denom ∨ denom ∈ coins.map Coin.denom := by
  induction coins generalizing out with
  | nil =>
      obtain ⟨_, -, rfl⟩ := Result.map_eq_ok.1 h
      simp
  | cons x rest ih =>
      simp only [tally] at h
      split at h
      · rename_i heq
        obtain ⟨_, -, rfl⟩ := Result.map_eq_ok.1 h
        simp [heq]
      · split at h
        · obtain ⟨_, -, rfl⟩ := Result.map_eq_ok.1 h
          simp
        · obtain ⟨more, hmore, rfl⟩ := Result.map_eq_ok.1 h
          rw [List.map_cons, List.map_cons, List.mem_cons, List.mem_cons, ih hmore]
          exact or_left_comm

theorem ascending_tally {c : Coin} {coins out : List Coin} (h : tally c coins = .ok out)
    (hs : Ascending coins) : Ascending out := by
  induction coins generalizing out with
  | nil =>
      obtain ⟨_, -, rfl⟩ := Result.map_eq_ok.1 h
      exact List.pairwise_singleton _ _
  | cons x rest ih =>
      obtain ⟨hx, hrest⟩ := List.pairwise_cons.1 hs
      simp only [tally] at h
      split at h
      · obtain ⟨_, -, rfl⟩ := Result.map_eq_ok.1 h
        exact List.pairwise_cons.2 ⟨hx, hrest⟩
      · rename_i hne
        split at h
        · rename_i hlt
          obtain ⟨_, -, rfl⟩ := Result.map_eq_ok.1 h
          refine List.pairwise_cons.2 ⟨fun d hd => ?_, hs⟩
          rcases List.mem_cons.1 hd with rfl | hd
          · exact hlt
          · exact String.lt_trans hlt (hx d hd)
        · rename_i hnlt
          obtain ⟨more, hmore, rfl⟩ := Result.map_eq_ok.1 h
          have hxc : x.denom < c.denom := by
            rcases Decidable.em (x.denom < c.denom) with hlt | hle
            · exact hlt
            · exact absurd (String.le_antisymm (String.not_lt.1 hle) (String.not_lt.1 hnlt)) hne
          refine List.pairwise_cons.2 ⟨fun d hd => ?_, ih hmore hrest⟩
          rcases (mem_denoms_tally hmore).1 (List.mem_map_of_mem hd) with hd | hd
          · exact hd ▸ hxc
          · obtain ⟨e, he, hed⟩ := List.mem_map.1 hd
            exact hed ▸ hx e he

theorem nonneg_tally {c : Coin} {coins out : List Coin} (h : tally c coins = .ok out)
    (hc : 0 ≤ c.amount) (hs : ∀ x ∈ coins, 0 ≤ x.amount) : ∀ x ∈ out, 0 ≤ x.amount := by
  induction coins generalizing out with
  | nil =>
      simp only [tally, Result.map_eq_ok, Checked.add_eq_ok_iff] at h
      obtain ⟨_, ⟨-, rfl⟩, rfl⟩ := h
      simpa using hc
  | cons y rest ih =>
      obtain ⟨hy, hrest⟩ := List.forall_mem_cons.1 hs
      simp only [tally] at h
      split at h
      · obtain ⟨_, hadd, rfl⟩ := Result.map_eq_ok.1 h
        obtain ⟨-, rfl⟩ := Checked.add_eq_ok_iff.1 hadd
        exact List.forall_mem_cons.2 ⟨Int.add_nonneg hy hc, hrest⟩
      · split at h
        · obtain ⟨_, hadd, rfl⟩ := Result.map_eq_ok.1 h
          obtain ⟨-, rfl⟩ := Checked.add_eq_ok_iff.1 hadd
          exact List.forall_mem_cons.2 ⟨Int.add_nonneg (Int.le_refl 0) hc, hs⟩
        · obtain ⟨more, hmore, rfl⟩ := Result.map_eq_ok.1 h
          exact List.forall_mem_cons.2 ⟨hy, ih hmore hrest⟩

/-! ## All coins -/

/-- What holds of no coins and is kept by each coin holds of an aggregate. -/
private theorem fold_tally {P : List Coin → List Coin → Prop} {coins totals out : List Coin}
    (h : coins.foldlM (fun totals c => tally c totals) totals = .ok out)
    (step : ∀ seen totals c out, c ∈ coins → P seen totals → tally c totals = .ok out →
      P (seen ++ [c]) out) (seen : List Coin) (start : P seen totals) : P (seen ++ coins) out := by
  induction coins generalizing totals seen with
  | nil =>
      cases h
      simpa using start
  | cons c rest ih =>
      rw [List.foldlM_cons, Result.bind_eq_ok] at h
      obtain ⟨next, hc, hrest⟩ := h
      have hnext := step seen totals c next List.mem_cons_self start hc
      have hmore := ih hrest
        (fun seen totals d out hd => step seen totals d out (List.mem_cons_of_mem c hd)) _ hnext
      rwa [List.append_assoc] at hmore

theorem total_aggregate {coins out : List Coin} (h : aggregate coins = .ok out) (denom : String) :
    total denom out = total denom coins := by
  refine fold_tally (P := fun seen totals => total denom totals = total denom seen) h
    (fun seen totals c out _ ih hc => ?_) [] rfl
  rw [total_tally hc, ih, total_append]

theorem ascending_aggregate {coins out : List Coin} (h : aggregate coins = .ok out) :
    Ascending out :=
  fold_tally (P := fun _ totals => Ascending totals) h
    (fun _ _ _ _ _ hs hc => ascending_tally hc hs) [] List.Pairwise.nil

theorem nonneg_aggregate {coins out : List Coin} (h : aggregate coins = .ok out)
    (hs : ∀ c ∈ coins, 0 ≤ c.amount) : ∀ c ∈ out, 0 ≤ c.amount :=
  fold_tally (P := fun _ totals => ∀ c ∈ totals, 0 ≤ c.amount) h
    (fun _ _ _ _ hmem ih hc => nonneg_tally hc (hs _ hmem) ih) [] (fun _ hc => nomatch hc)

/-! ## What comes of coins -/

/-- Coins that ascend by denom are known by their denoms and totals. -/
theorem Ascending.eq_map_total {coins : List Coin} (h : Ascending coins) :
    coins = (coins.map Coin.denom).map fun denom => ⟨denom, total denom coins⟩ := by
  rw [List.map_map]
  refine (List.map_id coins).symm.trans (List.map_congr_left fun c hc => ?_)
  rw [Function.comp_apply, total_of_mem h.nodup hc, id_eq]

/-- One coin for each denom that occurs, of all that there is of it. -/
structure Gathered (coins out : List Coin) : Prop where
  ascending : Ascending out
  denoms : ∀ denom, denom ∈ out.map Coin.denom ↔ denom ∈ coins.map Coin.denom
  total : ∀ denom, total denom out = total denom coins

namespace Gathered

variable {coins more out out' : List Coin}

theorem eq (h : Gathered coins out) (h' : Gathered coins out') : out = out' := by
  have hdenoms : out.map Coin.denom = out'.map Coin.denom :=
    List.Pairwise.eq_of_mem_iff (List.pairwise_map.2 h.ascending) (List.pairwise_map.2 h'.ascending)
      fun denom => (h.denoms denom).trans (h'.denoms denom).symm
  rw [h.ascending.eq_map_total, h'.ascending.eq_map_total, hdenoms]
  exact List.map_congr_left fun denom _ => by rw [h.total, h'.total]

/-- What comes of coins is seen from their denoms and totals alone. -/
theorem congr (h : Gathered coins out)
    (hdenoms : ∀ denom, denom ∈ coins.map Coin.denom ↔ denom ∈ more.map Coin.denom)
    (htotal : ∀ denom, Coin.total denom coins = Coin.total denom more) : Gathered more out where
  ascending := h.ascending
  denoms denom := (h.denoms denom).trans (hdenoms denom)
  total denom := (h.total denom).trans (htotal denom)

theorem pos (h : Gathered coins out) (hpos : ∀ c ∈ coins, 0 < c.amount) :
    ∀ c ∈ out, 0 < c.amount := by
  intro c hc
  obtain ⟨d, hd, hdenom⟩ := List.mem_map.1 ((h.denoms c.denom).1 (List.mem_map_of_mem hc))
  calc 0 < d.amount := hpos d hd
    _ ≤ Coin.total d.denom coins := amount_le_total (fun x hx => Int.le_of_lt (hpos x hx)) hd
    _ = Coin.total c.denom out := by rw [hdenom, h.total]
    _ = c.amount := total_of_mem h.ascending.nodup hc

end Gathered

theorem gathered_of_aggregate {coins out : List Coin} (h : aggregate coins = .ok out) :
    Gathered coins out where
  ascending := ascending_aggregate h
  denoms denom := by
    refine fold_tally (P := fun seen totals => denom ∈ totals.map Coin.denom ↔
      denom ∈ seen.map Coin.denom) h (fun seen totals c out _ ih hc => ?_) [] Iff.rfl
    rw [mem_denoms_tally hc, ih, List.map_append, List.mem_append, List.map_singleton,
      List.mem_singleton, or_comm]
  total := total_aggregate h

theorem exists_tally_iff {c : Coin} {coins : List Coin} (hs : Ascending coins) :
    (∃ out, tally c coins = .ok out) ↔ total c.denom coins + c.amount ≤ maxAmount := by
  induction coins with
  | nil => simp [tally, Result.map_eq_ok, Checked.add_eq_ok_iff, total_nil]
  | cons x rest ih =>
      obtain ⟨hx, hrest⟩ := List.pairwise_cons.1 hs
      simp only [tally]
      split
      · rename_i heq
        have habsent : c.denom ∉ rest.map Coin.denom := by
          rw [heq]
          exact (List.nodup_cons.1 hs.nodup).1
        rw [total_cons, if_pos heq.symm, total_of_not_mem habsent]
        simp [Result.map_eq_ok, Checked.add_eq_ok_iff]
      · rename_i hne
        split
        · rename_i hlt
          have habsent : c.denom ∉ (x :: rest).map Coin.denom := by
            intro hmem
            obtain ⟨d, hd, hdenom⟩ := List.mem_map.1 hmem
            rcases List.mem_cons.1 hd with rfl | hd
            · exact hne hdenom.symm
            · exact String.lt_irrefl _ (String.lt_trans hlt (hdenom ▸ hx d hd))
          rw [total_of_not_mem habsent]
          simp [Result.map_eq_ok, Checked.add_eq_ok_iff]
        · rw [total_cons, if_neg (Ne.symm hne), Int.zero_add, ← ih hrest]
          simp [Result.map_eq_ok]

theorem exists_aggregate_concat_iff {coins : List Coin} {c : Coin} :
    (∃ out, aggregate (coins ++ [c]) = .ok out) ↔
      (∃ totals, aggregate coins = .ok totals) ∧ total c.denom coins + c.amount ≤ maxAmount := by
  simp only [aggregate, List.foldlM_append, List.foldlM_cons, List.foldlM_nil, bind_pure,
    Result.bind_eq_ok]
  constructor
  · rintro ⟨out, totals, htotals, hout⟩
    have hroom := (exists_tally_iff (ascending_aggregate htotals)).1 ⟨out, hout⟩
    rw [total_aggregate htotals] at hroom
    exact ⟨⟨totals, htotals⟩, hroom⟩
  · rintro ⟨⟨totals, htotals⟩, hroom⟩
    rw [← total_aggregate htotals] at hroom
    obtain ⟨out, hout⟩ := (exists_tally_iff (ascending_aggregate htotals)).2 hroom
    exact ⟨out, totals, htotals, hout⟩

/-- Coins can be aggregated unless there is too much of a denom. The induction is on the coins from
the first to the last, as they are added. -/
theorem exists_aggregate_iff {coins : List Coin} (h : ∀ c ∈ coins, 0 ≤ c.amount) :
    (∃ out, aggregate coins = .ok out) ↔ ∀ denom, total denom coins ≤ maxAmount := by
  induction coins using List.reverseRecOn with
  | nil => exact ⟨fun _ _ => by simp [total_nil, maxAmount], fun _ => ⟨[], rfl⟩⟩
  | append_singleton coins c ih =>
      have hc : 0 ≤ c.amount := h c (by simp)
      rw [exists_aggregate_concat_iff, ih fun x hx => h x (List.mem_append_left _ hx)]
      simp only [total_append, total_singleton]
      constructor
      · rintro ⟨hall, hroom⟩ denom
        split
        · rename_i heq
          exact heq ▸ hroom
        · rw [Int.add_zero]
          exact hall denom
      · intro hall
        refine ⟨fun denom => ?_, by simpa using hall c.denom⟩
        have hdenom := hall denom
        split at hdenom <;> omega

/-- Coins with the same denoms and totals come to the same. -/
theorem aggregate_congr {coins more out : List Coin} (h : aggregate coins = .ok out)
    (hcoins : ∀ c ∈ coins, 0 ≤ c.amount) (hmore : ∀ c ∈ more, 0 ≤ c.amount)
    (hdenoms : ∀ denom, denom ∈ coins.map Coin.denom ↔ denom ∈ more.map Coin.denom)
    (htotal : ∀ denom, total denom coins = total denom more) : aggregate more = .ok out := by
  have hroom := (exists_aggregate_iff hcoins).1 ⟨out, h⟩
  obtain ⟨out', hout'⟩ := (exists_aggregate_iff hmore).2 fun denom => htotal denom ▸ hroom denom
  have hsame := (gathered_of_aggregate h).congr hdenoms htotal
  rw [hout', hsame.eq (gathered_of_aggregate hout')]

/-- It is the same to aggregate parts first. -/
theorem aggregate_append_eq_ok_iff {coins more out : List Coin}
    (hcoins : ∀ c ∈ coins, 0 ≤ c.amount) (hmore : ∀ c ∈ more, 0 ≤ c.amount) :
    aggregate (coins ++ more) = .ok out ↔ ∃ a b, aggregate coins = .ok a ∧ aggregate more = .ok b ∧
      aggregate (a ++ b) = .ok out := by
  have hboth : ∀ c ∈ coins ++ more, 0 ≤ c.amount := List.forall_mem_append.2 ⟨hcoins, hmore⟩
  have hparts {a b : List Coin} (ha : aggregate coins = .ok a) (hb : aggregate more = .ok b) :
      aggregate (coins ++ more) = .ok out ↔ aggregate (a ++ b) = .ok out := by
    have hab : ∀ c ∈ a ++ b, 0 ≤ c.amount :=
      List.forall_mem_append.2 ⟨nonneg_aggregate ha hcoins, nonneg_aggregate hb hmore⟩
    have hdenoms (denom : String) :
        denom ∈ (a ++ b).map Coin.denom ↔ denom ∈ (coins ++ more).map Coin.denom := by
      rw [List.map_append, List.mem_append, (gathered_of_aggregate ha).denoms,
        (gathered_of_aggregate hb).denoms, List.map_append, List.mem_append]
    have htotal (denom : String) : total denom (a ++ b) = total denom (coins ++ more) := by
      rw [total_append, total_aggregate ha, total_aggregate hb, total_append]
    constructor
    · intro h
      exact aggregate_congr h hboth hab (fun d => (hdenoms d).symm) fun d => (htotal d).symm
    · intro h
      exact aggregate_congr h hab hboth hdenoms htotal
  constructor
  · intro h
    have hroom (denom : String) : total denom coins + total denom more ≤ maxAmount :=
      total_append denom coins more ▸ (exists_aggregate_iff hboth).1 ⟨out, h⟩ denom
    obtain ⟨a, ha⟩ := (exists_aggregate_iff hcoins).2 fun denom =>
      Int.le_trans (Int.le_add_of_nonneg_right (total_nonneg hmore)) (hroom denom)
    obtain ⟨b, hb⟩ := (exists_aggregate_iff hmore).2 fun denom =>
      Int.le_trans (Int.le_add_of_nonneg_left (total_nonneg hcoins)) (hroom denom)
    exact ⟨a, b, ha, hb, (hparts ha hb).1 h⟩
  · rintro ⟨a, b, ha, hb, h⟩
    exact (hparts ha hb).2 h

/-! ## One and two coins -/

theorem aggregate_singleton {c : Coin} (h : c.amount ≤ maxAmount) : aggregate [c] = .ok [c] := by
  have hadd : Checked.add 0 c.amount = .ok c.amount :=
    Checked.add_eq_ok_iff.2 ⟨by omega, (Int.zero_add _).symm⟩
  simp [aggregate, tally, hadd, Except.map, bind, Except.bind, pure, Except.pure]

theorem aggregate_pair {c d : Coin} (hc : c.amount ≤ maxAmount) (hd : d.amount ≤ maxAmount)
    (hne : c.denom ≠ d.denom) :
    ∃ coins, aggregate [c, d] = .ok coins ∧ (coins = [c, d] ∨ coins = [d, c]) := by
  have hfirst : Checked.add 0 c.amount = .ok c.amount :=
    Checked.add_eq_ok_iff.2 ⟨by omega, (Int.zero_add _).symm⟩
  have hsecond : Checked.add 0 d.amount = .ok d.amount :=
    Checked.add_eq_ok_iff.2 ⟨by omega, (Int.zero_add _).symm⟩
  by_cases hlt : d.denom < c.denom
  · refine ⟨[d, c], ?_, .inr rfl⟩
    simp [aggregate, tally, hfirst, hsecond, hne.symm, hlt, Except.map, bind, Except.bind, pure,
      Except.pure]
  · refine ⟨[c, d], ?_, .inl rfl⟩
    simp [aggregate, tally, hfirst, hsecond, hne.symm, hlt, Except.map, bind, Except.bind, pure,
      Except.pure]

end MarketMaker.Coin

import MarketMaker.Pool.Snapshot
import MarketMaker.Proofs.Fees
import MarketMaker.Proofs.Model
import MarketMaker.Proofs.Ratio.Decimal
import MarketMaker.Proofs.Reserve

/-! # Pools that survive their file

Every part of a snapshot comes back from what is written of it: fee shares through their decimal
text, curves through the kind that tells them apart, amounts as integers. The checks across fields
pass again, since they hold of every snapshot that was read or made. -/

namespace MarketMaker

open Reading

theorem Coin.faithful_model : Coin.model.Faithful Coin.Valid 1 := by
  refine .object (fun h => ?valid) (fun h => ?read_write) (fun h => ?exact)
  case valid =>
    simp only [ofFields, seq_eq_accepted, map_eq_accepted] at h
    obtain ⟨_, amount, ⟨denom, hdenom, rfl⟩, hamount, rfl⟩ := h
    exact ⟨faithful_name.valid_of_required hdenom, faithful_amount.valid_of_required hamount⟩
  case read_write =>
    simp only [ofFields, seq_eq_accepted, map_eq_accepted]
    exact ⟨_, _, ⟨_, faithful_name.required_write h.1 rfl, rfl⟩,
      faithful_amount.required_write h.2 rfl, rfl⟩
  case exact => exact ⟨faithful_name.exact h.1, faithful_amount.exact h.2⟩

/-! ## Curves -/

namespace Curve

theorem faithful_amp : Model.Faithful ⟨bounded 1 maxAmp, .int⟩ (Between 1 maxAmp) 0 :=
  faithful_bounded (by decide) (by decide)

/-- What a tag leads to is valid: only a stableswap curve has something to check. -/
theorem valid_of_ofTagged {fields : Fields} {tag : Json} {curve : Curve}
    (h : ofTagged fields tag = accepted curve) : curve.Valid := by
  unfold ofTagged at h
  split at h
  · split at h
    · simp only [within_eq_accepted, constantProductOfFields, map_eq_accepted] at h
      obtain ⟨_, -, rfl⟩ := h
      exact trivial
    · split at h
      · simp only [within_eq_accepted, stableSwapOfFields, seq_eq_accepted, map_eq_accepted] at h
        obtain ⟨_, amp, ⟨_, -, rfl⟩, hamp, rfl⟩ := h
        exact faithful_amp.valid_of_required hamp
      · cases h
  · cases h

theorem faithful_model : model.Faithful Curve.Valid 1 where
  valid h := by
    obtain ⟨fields, -, h⟩ := object_eq_accepted.1 h
    unfold ofFields at h
    split at h
    · cases h
    · exact valid_of_ofTagged h
  read_write {curve} h := by
    cases curve with
    | constantProduct => rfl
    | stableSwap amp =>
        have hread : stableSwapOfFields [("kind", .text stableSwapKind), ("amp", .int amp)] =
            accepted (stableSwap amp) := by
          simp only [stableSwapOfFields, seq_eq_accepted, map_eq_accepted]
          exact ⟨_, amp, ⟨(), rfl, rfl⟩, faithful_amp.required_write h rfl, rfl⟩
        exact within_eq_accepted.2 hread
  exact {curve} h := by
    cases curve with
    | constantProduct => exact .object (List.forall_iff_forall_mem.1 (.text _))
    | stableSwap amp => exact .object (List.forall_iff_forall_mem.1 ⟨.text _, faithful_amp.exact h⟩)

end Curve

/-! ## Fees -/

namespace FeeSchedule

theorem share_eq_accepted {v : Json} {r : Ratio} :
    share v = accepted r ↔ Ratio.ofJson v = .ok r ∧ r ≤ .one := by
  unfold share
  rw [andThen_eq_accepted]
  constructor
  · rintro ⟨s, hs, h⟩
    split at h
    · cases h
    next hle =>
      cases h
      exact ⟨ofExcept_eq_accepted.1 hs, Nat.not_lt.1 hle⟩
  · rintro ⟨hr, hle⟩
    exact ⟨r, ofExcept_eq_accepted.2 hr, if_neg (Nat.not_lt.2 hle)⟩

theorem faithful_share : Model.Faithful ⟨share, fun r => .text r.text⟩ (· ≤ Ratio.one) 0 where
  valid h := (share_eq_accepted.1 h).2
  read_write {r} h := by
    have hdigits : r.atomics / Ratio.unit < Nat.pow 10 1 :=
      Nat.lt_of_le_of_lt (Nat.div_le_div_right h) (by decide)
    have htext := Ratio.ofText_text (Text.lt_writeLimit hdigits (by decide))
    exact (share_eq_accepted (v := .text r.text)).2 ⟨htext, h⟩
  exact _ := .text _

theorem faithful_feeModel : feeModel.Faithful (· ≤ Ratio.one) 1 :=
  .object (fun h => faithful_share.valid_of_optional (Nat.zero_le _) h)
    (fun h => faithful_share.optional_write h rfl) (fun h => faithful_share.exact h)

theorem checkTotal_eq_accepted {fees accepted' : FeeSchedule} :
    checkTotal fees = accepted accepted' ↔ fees.Valid ∧ accepted' = fees := by
  unfold checkTotal
  split
  next hle => simp [FeeSchedule.Valid, Ratio.lt_def, Nat.not_lt.2 (Ratio.le_def.1 hle)]
  next hle => simp [FeeSchedule.Valid, Ratio.lt_def, Nat.not_le.1 (mt Ratio.le_def.2 hle), eq_comm]

/-- No share of a schedule is above one. -/
structure SharesAtMostOne (fees : FeeSchedule) : Prop where
  swap : fees.swap ≤ .one
  protocol : fees.protocol ≤ .one
  burn : fees.burn ≤ .one
  extra : ∀ share ∈ fees.extra, share ≤ Ratio.one

theorem Valid.sharesAtMostOne {fees : FeeSchedule} (h : fees.Valid) : fees.SharesAtMostOne where
  swap := h.share_le (by simp [shares])
  protocol := h.share_le (by simp [shares])
  burn := h.share_le (by simp [shares])
  extra _ hmem := h.share_le (by simp [shares, hmem])

theorem faithful_model : model.Faithful FeeSchedule.Valid 3 := by
  refine .object (fun h => ?valid) (fun h => ?read_write) (fun h => ?exact)
  case valid =>
    obtain ⟨fees, -, htotal⟩ := andThen_eq_accepted.1 h
    obtain ⟨hvalid, rfl⟩ := checkTotal_eq_accepted.1 htotal
    exact hvalid
  case read_write =>
    have hshares := h.sharesAtMostOne
    unfold ofFields
    refine andThen_eq_accepted.2 ⟨_, ?_, checkTotal_eq_accepted.2 ⟨h, rfl⟩⟩
    simp only [seq_eq_accepted, map_eq_accepted]
    exact ⟨_, _, ⟨_, _, ⟨_, _, ⟨_, faithful_feeModel.optional_write hshares.swap rfl, rfl⟩,
      faithful_feeModel.optional_write hshares.protocol rfl, rfl⟩,
      faithful_feeModel.optional_write hshares.burn rfl, rfl⟩,
      faithful_feeModel.listOf.optional_write hshares.extra rfl, rfl⟩
  case exact =>
    have hshares := h.sharesAtMostOne
    exact ⟨(faithful_feeModel.exact hshares.swap).mono (by decide),
      (faithful_feeModel.exact hshares.protocol).mono (by decide),
      (faithful_feeModel.exact hshares.burn).mono (by decide),
      faithful_feeModel.listOf.exact hshares.extra⟩

end FeeSchedule

/-! ## Pools -/

namespace Pool

theorem checkAssets_eq_accepted {p q : Pool} :
    checkAssets p = accepted q ↔
      (2 ≤ p.assets.length ∧ p.assets.length ≤ maxAssets) ∧ p.denoms.Nodup ∧
        p.decimals.length = p.assets.length ∧ q = p := by
  unfold checkAssets
  split
  next hcount =>
    simp only [problem, reduceCtorEq, false_iff]
    omega
  next hcount =>
    split
    next hdenoms => simp [problem, hdenoms]
    next hdenoms =>
      split
      next hdecimals => simp [problem, hdecimals]
      next hdecimals =>
        simp only [accepted.injEq, Decidable.not_not.1 hdenoms, Decidable.not_not.1 hdecimals,
          true_and, eq_comm (a := p), iff_and_self]
        omega

theorem faithful_identifier :
    Model.Faithful ⟨identifier?, .text⟩ (IsIdentifier maxIdentifierLength isIdentifierChar) 0 :=
  Reading.faithful_identifier _ _

theorem faithful_decimals : (Model.mk (bounded 0 maxDecimals) Json.int).listOf.Faithful
    (fun ds => ∀ d ∈ ds, Between 0 maxDecimals d) 1 :=
  (faithful_bounded (Int.le_refl 0) (by decide)).listOf

theorem faithful_model : model.Faithful Pool.Valid 4 := by
  refine .object (fun h => ?valid) (fun h => ?read_write) (fun h => ?exact)
  case valid =>
    obtain ⟨p, hp, hcheck⟩ := andThen_eq_accepted.1 h
    obtain ⟨hcount, hdenoms, hlength, rfl⟩ := checkAssets_eq_accepted.1 hcheck
    simp only [seq_eq_accepted, map_eq_accepted] at hp
    obtain ⟨_, decimals, ⟨_, fees, ⟨_, lpDenom, ⟨_, curve, ⟨_, assets,
      ⟨identifier, hidentifier, rfl⟩, hassets, rfl⟩, hcurve, rfl⟩, hlp, rfl⟩, hfees, rfl⟩,
      hdecimals, rfl⟩ := hp
    have hid := faithful_identifier.valid_of_required hidentifier
    exact
      { identifier_ne := hid.ne
        identifier_length := hid.length
        identifier_chars := hid.chars
        asset_count := hcount
        assets_valid := Coin.faithful_model.listOf.valid_of_required hassets
        denoms_nodup := hdenoms
        decimals_length := hlength
        decimals_range := faithful_decimals.valid_of_required hdecimals
        curve_valid := Curve.faithful_model.valid_of_required hcurve
        lpDenom_ne := faithful_name.valid_of_required hlp
        fees_valid := FeeSchedule.faithful_model.valid_of_optional (by decide) hfees }
  case read_write =>
    refine andThen_eq_accepted.2 ⟨_, ?_, checkAssets_eq_accepted.2
      ⟨h.asset_count, h.denoms_nodup, h.decimals_length, rfl⟩⟩
    have hid := IsIdentifier.mk h.identifier_ne h.identifier_length h.identifier_chars
    simp only [seq_eq_accepted, map_eq_accepted]
    exact ⟨_, _, ⟨_, _, ⟨_, _, ⟨_, _, ⟨_, _, ⟨_, faithful_identifier.required_write hid rfl, rfl⟩,
      Coin.faithful_model.listOf.required_write h.assets_valid rfl, rfl⟩,
      Curve.faithful_model.required_write h.curve_valid rfl, rfl⟩,
      faithful_name.required_write h.lpDenom_ne rfl, rfl⟩,
      FeeSchedule.faithful_model.optional_write h.fees_valid rfl, rfl⟩,
      faithful_decimals.required_write h.decimals_range rfl, rfl⟩
  case exact =>
    exact ⟨.text _, (Coin.faithful_model.listOf.exact h.assets_valid).mono (by decide),
      (Curve.faithful_model.exact h.curve_valid).mono (by decide), .text _,
      FeeSchedule.faithful_model.exact h.fees_valid,
      (faithful_decimals.exact h.decimals_range).mono (by decide)⟩

end Pool

/-! ## Files -/

namespace Snapshot

/-- A valid pool and a supply of 128 bits. -/
structure Valid (s : Snapshot) : Prop where
  pool_valid : s.pool.Valid
  supply_range : 0 ≤ s.supply ∧ s.supply ≤ maxAmount

instance (s : Snapshot) : Decidable s.Valid :=
  decidable_of_iff (s.pool.Valid ∧ 0 ≤ s.supply ∧ s.supply ≤ maxAmount)
    ⟨fun h => ⟨h.1, h.2⟩, fun h => ⟨h.1, h.2⟩⟩

theorem faithful_model : model.Faithful Snapshot.Valid 5 := by
  refine .object (fun h => ?valid) (fun h => ?read_write) (fun h => ?exact)
  case valid =>
    simp only [ofFields, seq_eq_accepted, map_eq_accepted] at h
    obtain ⟨_, supply, ⟨pool, hpool, rfl⟩, hsupply, rfl⟩ := h
    exact ⟨Pool.faithful_model.valid_of_required hpool,
      faithful_amount.valid_of_optional ⟨Int.le_refl 0, by decide⟩ hsupply⟩
  case read_write =>
    simp only [ofFields, seq_eq_accepted, map_eq_accepted]
    exact ⟨_, _, ⟨_, Pool.faithful_model.required_write h.pool_valid rfl, rfl⟩,
      faithful_amount.optional_write h.supply_range rfl, rfl⟩
  case exact =>
    exact ⟨Pool.faithful_model.exact h.pool_valid,
      (faithful_amount.exact h.supply_range).mono (by decide)⟩

theorem faithful_fileModel : fileModel.Faithful (fun snapshots => ∀ s ∈ snapshots, s.Valid) 7 :=
  .object (fun h => faithful_model.listOf.valid_of_optional (by simp) h)
    (fun h => faithful_model.listOf.optional_write h rfl)
    (fun h => faithful_model.listOf.exact h)

/-- The snapshots that the model admits are the valid ones. -/
theorem valid_iff {s : Snapshot} : s.Valid ↔ ∃ v, model.read v = accepted s :=
  ⟨fun h => ⟨_, faithful_model.read_write h⟩, fun ⟨_, h⟩ => faithful_model.valid h⟩

/-- Snapshots that are written to a file are read back as they were, by the loader of files and by
the model of the file itself. -/
theorem ofFileText_render {snapshots : List Snapshot} (h : ∀ s ∈ snapshots, s.Valid) :
    ofFileText (Json.render (fileModel.write snapshots)) = .ok snapshots ∧
      fileModel.returns snapshots = true := by
  refine ⟨?_, faithful_fileModel.returns h⟩
  have hexact := (faithful_fileModel.exact h).mono (n := nestingLimit) (by decide)
  rw [ofFileText, Json.parseWithin_render hexact]
  exact toResult_eq_ok.2 (faithful_fileModel.read_write h)

/-- Three dollars on a stableswap curve; the fees have fractions of several lengths. -/
def threeDollars : Snapshot where
  pool :=
    { identifier := "o.usd/3"
      assets := [⟨"uusdc", 5000000⟩, ⟨"uusdt", maxAmount⟩, ⟨"adai", 0⟩]
      curve := .stableSwap 85
      lpDenom := "factory/manager/o.usd/3.LP"
      fees :=
        { swap := ⟨3000000000000000⟩
          protocol := ⟨1⟩
          burn := .zero
          extra := [⟨250000000000000000⟩, ⟨10⟩] }
      decimals := [6, 6, 18] }
  supply := maxAmount

/-- A pair without fees whose denoms have to be escaped. -/
def escapedPair : Snapshot where
  pool :=
    { identifier := "p.1"
      assets := [⟨"a \"b\" \\", 1000⟩, ⟨"\n\t", 3⟩]
      curve := .constantProduct
      lpDenom := "é"
      fees := {}
      decimals := [0, 38] }
  supply := 0

theorem ofFileText_render_pair :
    (∀ s ∈ [threeDollars, escapedPair], s.Valid) ∧
      ofFileText (Json.render (fileModel.write [threeDollars, escapedPair])) =
        .ok [threeDollars, escapedPair] ∧
      fileModel.returns [threeDollars, escapedPair] = true :=
  have hvalid : ∀ s ∈ [threeDollars, escapedPair], s.Valid := by decide
  ⟨hvalid, ofFileText_render hvalid⟩

end Snapshot

end MarketMaker

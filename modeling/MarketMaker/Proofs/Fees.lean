import Mathlib.Algebra.Order.BigOperators.Group.List
import Mathlib.Algebra.Order.Ring.Nat
import MarketMaker.Proofs.Quote

/-! # What fees leave of an amount

All fees together are at most what the sum of their shares is, rounded down once, so that they leave
something of every amount. What they leave need not grow with the amount: where several fees reach
their next unit at the same amount, each of them takes it. -/

namespace MarketMaker

/-! ## One share -/

namespace Ratio

variable {r : Ratio}

theorem mulFloor_of_zero (h : r.atomics = 0) (amount : Int) : r.mulFloor amount = 0 := by
  simp [mulFloor, h]

theorem mulFloor_unit (r : Ratio) : r.mulFloor unit = r.atomics :=
  Int.mul_fdiv_cancel_left _ (by decide)

/-- A share of one whole loses its last unit where the whole loses one, if it has any. -/
theorem mulFloor_unit_sub_one (h : r.atomics ≤ unit) (hpos : 0 < r.atomics) :
    r.mulFloor (unit - 1) = r.atomics - 1 := by
  have hunit : (0 : Int) < unit := by decide
  apply Int.le_antisymm
  · rw [mulFloor, ← Int.lt_add_one_iff, fdiv_lt_iff hunit, Int.sub_mul, Int.mul_comm]
    simp only [unit] at h ⊢
    omega
  · rw [mulFloor, le_fdiv_iff hunit, Int.sub_mul, Int.sub_mul, Int.mul_comm]
    omega

/-- A share of at most one grows by no more than the amount. -/
theorem mulFloor_le_add (h : r.atomics ≤ unit) {a b : Int} (hle : a ≤ b) :
    r.mulFloor b ≤ r.mulFloor a + (b - a) := by
  have hunit : (0 : Int) < unit := by decide
  have hfloor : a * r.atomics < (r.mulFloor a + 1) * unit :=
    (fdiv_lt_iff hunit).1 (Int.lt_add_one_of_le (Int.le_refl _))
  have hgrown : (b - a) * r.atomics ≤ (b - a) * unit :=
    Int.mul_le_mul_of_nonneg_left (by exact_mod_cast h) (Int.sub_nonneg_of_le hle)
  rw [← Int.lt_add_one_iff, mulFloor, fdiv_lt_iff hunit]
  calc b * r.atomics = a * r.atomics + (b - a) * r.atomics := by
        rw [← Int.add_mul]
        congr 1
        omega
    _ < (r.mulFloor a + 1) * unit + (b - a) * unit := Int.add_lt_add_of_lt_of_le hfloor hgrown
    _ = (r.mulFloor a + (b - a) + 1) * unit := by
        rw [← Int.add_mul]
        congr 1
        omega

end Ratio

/-! ## All shares -/

namespace FeeSchedule

variable {fees : FeeSchedule}

def shares (fees : FeeSchedule) : List Ratio := fees.swap :: fees.protocol :: fees.burn :: fees.extra

def charging (fees : FeeSchedule) : Nat := fees.shares.countP fun share => 0 < share.atomics

def kept (fees : FeeSchedule) (amount : Int) : Int := amount - (fees.charge amount).total

theorem charge_total (fees : FeeSchedule) (amount : Int) :
    (fees.charge amount).total = sumOf (fees.shares.map fun share => share.mulFloor amount) := by
  simp only [charge, Charges.total, shares, List.map_cons, sumOf_cons]
  omega

theorem total_atomics (fees : FeeSchedule) :
    fees.total.atomics = (fees.shares.map Ratio.atomics).sum := by
  have hfold (extra : List Ratio) (start : Ratio) : (extra.foldl Ratio.add start).atomics =
      start.atomics + (extra.map Ratio.atomics).sum := by
    induction extra generalizing start with
    | nil => rfl
    | cons share rest ih =>
        rw [List.foldl_cons, ih, List.map_cons, List.sum_cons, ← Nat.add_assoc]
        rfl
  simp only [total, hfold, shares, List.map_cons, List.sum_cons, Ratio.add]
  omega

theorem Valid.share_le (h : fees.Valid) {share : Ratio} (hmem : share ∈ fees.shares) :
    share.atomics ≤ Ratio.unit := by
  have htotal : fees.total.atomics < Ratio.unit := Ratio.lt_def.1 h
  have hsum : share.atomics ≤ (fees.shares.map Ratio.atomics).sum :=
    List.le_sum_of_mem (List.mem_map_of_mem hmem)
  rw [← total_atomics] at hsum
  omega

theorem charge_total_le_mulFloor (fees : FeeSchedule) (amount : Int) :
    (fees.charge amount).total ≤ fees.total.mulFloor amount :=
  (le_fdiv_iff (by decide)).2 (fees.charge_total_mul_unit_le amount)

theorem Valid.charge_total_lt (h : fees.Valid) {amount : Int} (hamount : 0 < amount) :
    (fees.charge amount).total < amount := by
  have hunit : (0 : Int) < Ratio.unit := by decide
  have hshare : (fees.total.atomics : Int) < Ratio.unit := by exact_mod_cast Ratio.lt_def.1 h
  refine Int.lt_of_mul_lt_mul_right ?_ (Int.le_of_lt hunit)
  calc (fees.charge amount).total * Ratio.unit ≤ amount * fees.total.atomics :=
        fees.charge_total_mul_unit_le amount
    _ < amount * Ratio.unit := Int.mul_lt_mul_of_pos_left hshare hamount

/-! ## Amounts that grow -/

section

variable {shares : List Ratio}

theorem sumOf_mulFloor_of_none (h : (shares.countP fun share => 0 < share.atomics) = 0)
    (amount : Int) : sumOf (shares.map fun share => share.mulFloor amount) = 0 := by
  induction shares with
  | nil => rfl
  | cons share rest ih =>
      rw [List.countP_eq_zero, List.forall_mem_cons] at h
      obtain ⟨hshare, hrest⟩ := h
      have hzero : share.atomics = 0 := by simpa using hshare
      rw [List.map_cons, sumOf_cons, Ratio.mulFloor_of_zero hzero,
        ih (List.countP_eq_zero.2 hrest), Int.add_zero]

/-- Every share that is some takes its last unit of one whole at once. -/
theorem sumOf_mulFloor_unit (h : ∀ share ∈ shares, share.atomics ≤ Ratio.unit) :
    sumOf (shares.map fun share => share.mulFloor Ratio.unit) =
      sumOf (shares.map fun share => share.mulFloor (Ratio.unit - 1)) +
        (shares.countP fun share => 0 < share.atomics : Nat) := by
  induction shares with
  | nil => rfl
  | cons share rest ih =>
      rw [List.forall_mem_cons] at h
      obtain ⟨hshare, hrest⟩ := h
      simp only [List.map_cons, sumOf_cons, List.countP_cons, ih hrest]
      by_cases hpos : 0 < share.atomics
      · have hlast := Ratio.mulFloor_unit_sub_one hshare hpos
        rw [Ratio.mulFloor_unit, hlast]
        simp only [hpos, decide_true, ite_true, Int.natCast_add]
        omega
      · have hzero : share.atomics = 0 := Nat.eq_zero_of_not_pos hpos
        simp only [Ratio.mulFloor_of_zero hzero, hzero, Nat.lt_irrefl, decide_false,
          Bool.false_eq_true, ite_false, Nat.add_zero]
        omega

/-- One share that is some, among others that are not, grows by no more than the amount. -/
theorem sumOf_mulFloor_le_add (h : ∀ share ∈ shares, share.atomics ≤ Ratio.unit)
    (hone : (shares.countP fun share => 0 < share.atomics) ≤ 1) {a b : Int} (hle : a ≤ b) :
    sumOf (shares.map fun share => share.mulFloor b) ≤
      sumOf (shares.map fun share => share.mulFloor a) + (b - a) := by
  induction shares with
  | nil =>
      simp only [List.map_nil, sumOf_nil]
      omega
  | cons share rest ih =>
      rw [List.forall_mem_cons] at h
      obtain ⟨hshare, hrest⟩ := h
      rw [List.countP_cons] at hone
      simp only [List.map_cons, sumOf_cons]
      by_cases hpos : 0 < share.atomics
      · have hnone : (rest.countP fun share => 0 < share.atomics) = 0 := by
          simp only [hpos, decide_true, ite_true] at hone
          omega
        have hgrown := Ratio.mulFloor_le_add hshare hle
        rw [sumOf_mulFloor_of_none hnone, sumOf_mulFloor_of_none hnone]
        omega
      · have hzero : share.atomics = 0 := Nat.eq_zero_of_not_pos hpos
        have hgrown := ih hrest (by omega)
        rw [Ratio.mulFloor_of_zero hzero, Ratio.mulFloor_of_zero hzero]
        omega

end

/-- What is kept grows with the amount as long as one fee is charged at most. With more of them it
falls at one whole, where each takes its last unit. -/
theorem Valid.kept_mono_iff (h : fees.Valid) :
    (∀ a b, 0 ≤ a → a ≤ b → fees.kept a ≤ fees.kept b) ↔ fees.charging ≤ 1 := by
  have hshares : ∀ share ∈ fees.shares, share.atomics ≤ Ratio.unit := fun _ => h.share_le
  constructor
  · intro hmono
    have hwhole : fees.kept (Ratio.unit - 1) ≤ fees.kept Ratio.unit :=
      hmono _ _ (by decide) (Int.sub_le_self _ (by decide))
    have hlast := sumOf_mulFloor_unit hshares
    rw [kept, kept, charge_total, charge_total] at hwhole
    rw [charging]
    omega
  · intro hone a b _ hle
    have hgrown := sumOf_mulFloor_le_add hshares hone hle
    rw [kept, kept, charge_total, charge_total]
    omega

/-- Fees together are at most their total share of an amount, rounded down once, and leave something
of an amount that is some. From the gross amount of `net` on they leave `net`, although what they
leave falls with a growing amount as soon as two of them are charged. -/
theorem charges_fit_and_gross_covers (h : fees.Valid) :
    (∀ amount, 0 ≤ amount →
      (fees.charge amount).total ≤ fees.total.mulFloor amount ∧
        (fees.charge amount).total ≤ amount ∧
        (0 < amount → (fees.charge amount).total < amount)) ∧
      (∀ net, 0 ≤ net → ∃ gross, grossAmount fees net = .ok gross ∧
        ∀ amount, gross ≤ amount → net ≤ fees.kept amount) ∧
      ((∀ a b, 0 ≤ a → a ≤ b → fees.kept a ≤ fees.kept b) ↔ fees.charging ≤ 1) := by
  refine ⟨fun amount hamount => ?_, fun net _ => ?_, h.kept_mono_iff⟩
  · exact ⟨fees.charge_total_le_mulFloor amount, h.charge_total_le hamount, h.charge_total_lt⟩
  · obtain ⟨gross, hgross, -⟩ := exists_grossAmount h net
    exact ⟨gross, hgross, fun amount => grossAmount_covers hgross⟩

def threeQuarters : FeeSchedule where
  swap := ⟨250000000000000000⟩
  burn := ⟨250000000000000000⟩
  extra := [⟨250000000000000000⟩]

/-- Three units are kept of three, and one of four. -/
theorem charges_fit_and_gross_covers_threeQuarters :
    threeQuarters.Valid ∧ (threeQuarters.charge 7).total ≤ 5 ∧
      (∃ gross, grossAmount threeQuarters 2 = .ok gross ∧ 2 ≤ threeQuarters.kept (gross + 9)) ∧
      ¬(∀ a b, 0 ≤ a → a ≤ b → threeQuarters.kept a ≤ threeQuarters.kept b) ∧
      threeQuarters.kept 3 = 3 ∧ threeQuarters.kept 4 = 1 := by
  have hvalid : threeQuarters.Valid := by decide
  obtain ⟨hfit, hcovers, hmono⟩ := charges_fit_and_gross_covers hvalid
  obtain ⟨gross, hgross, hkept⟩ := hcovers 2 (by decide)
  refine ⟨hvalid, ?_, ⟨gross, hgross, hkept _ (by omega)⟩, ?_, by decide, by decide⟩
  · exact Int.le_trans (hfit 7 (by decide)).1 (by decide)
  · rw [hmono]
    decide

end FeeSchedule

end MarketMaker

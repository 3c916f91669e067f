import Mathlib.Algebra.BigOperators.Group.Finset.Basic
import Mathlib.Algebra.BigOperators.Group.Finset.Piecewise
import MarketMaker.Proofs.Supply

/-! # Calls of a ledger, one after the other

A call that fails keeps what it has changed, and a ledger can be put back to any copy that was taken
of it. Whatever the calls are, the supply of a denom is what all addresses hold of it: a call fails
before its first change, or between two coins, and never between the two sides of one coin. -/

namespace MarketMaker

namespace Ledger

/-! ## The addresses that hold something -/

def addresses (l : Ledger) : Finset String := (l.balances.keys.map Prod.fst).toFinset

/-- The supply of each denom is spread over the addresses, and every balance is an amount. -/
structure Balanced (l : Ledger) : Prop where
  sum_eq : ∀ d, ∑ a ∈ l.addresses, l.balance a d = l.supply d
  others : ∀ a, a ∉ l.addresses → ∀ d, l.balance a d = 0
  amounts : ∀ a d, 0 ≤ l.balance a d ∧ l.balance a d ≤ maxAmount

theorem balance_of_not_mem {l : Ledger} {a : String} (h : a ∉ l.addresses) (d : String) :
    l.balance a d = 0 := by
  have hkey : (a, d) ∉ l.balances.keys := by
    intro hmem
    exact h (List.mem_toFinset.2 (List.mem_map_of_mem hmem))
  rw [balance, Table.get?_eq_none_iff.2 hkey, Option.getD_none]

/-- Entries count once each, whichever addresses are gone through. -/
private theorem sum_find {entries : List ((String × String) × Int)} {addresses : Finset String}
    (hkeys : (entries.map Prod.fst).Nodup) (haddresses : ∀ e ∈ entries, e.1.1 ∈ addresses)
    (d : String) : ∑ a ∈ addresses, (Table.find (a, d) entries).getD 0 =
      sumOf (entries.map fun e => if e.1.2 = d then e.2 else 0) := by
  induction entries with
  | nil => simp [Table.find, sumOf]
  | cons e rest ih =>
      obtain ⟨⟨holder, denom⟩, amount⟩ := e
      simp only [List.map_cons, List.nodup_cons, List.forall_mem_cons] at hkeys haddresses
      have hfirst : ∀ a, (Table.find (a, d) (((holder, denom), amount) :: rest)).getD 0 =
          (if holder = a then if denom = d then amount else 0 else 0) +
            (Table.find (a, d) rest).getD 0 := by
        intro a
        by_cases ha : holder = a
        · by_cases hd : denom = d
          · have hrest := Table.find_eq_none_iff.2 hkeys.1
            simp_all [Table.find]
          · simp [Table.find, hd]
        · simp [Table.find, ha]
      simp only [hfirst, Finset.sum_add_distrib, Finset.sum_ite_eq, haddresses.1, ite_true,
        List.map_cons, sumOf_cons, ih hkeys.2 haddresses.2]

theorem sum_addresses (l : Ledger) (d : String) : ∑ a ∈ l.addresses, l.balance a d = l.total d :=
  sum_find l.balances.nodup
    (fun _ he => List.mem_toFinset.2 (List.mem_map_of_mem (List.mem_map_of_mem he))) d

theorem Sound.balanced {l : Ledger} (h : l.Sound) : l.Balanced where
  sum_eq d := (l.sum_addresses d).trans (h.backed d)
  others _ ha := balance_of_not_mem ha
  amounts a d := ⟨h.nonneg a d, (h.balance_le_supply a d).trans (h.fits d)⟩

/-! ## Where a call fails -/

section Failures

variable {address source target denom : String} {amount : Int} {coins : List Coin}
  {l l' : Ledger} {e : Failure}

/-- A transfer that fails has moved the coins before one that the source cannot pay. -/
theorem Sound.of_transfer_error (h : l.Sound) (hcoins : ∀ c ∈ coins, 0 ≤ c.amount)
    (herror : Ledger.transfer source target coins l = .error e l') :
    ∃ moved c rest, coins = moved ++ c :: rest ∧
      Ledger.transfer source target moved l = .ok () l' ∧
        debit source c.denom c.amount l' = .error e l' := by
  induction coins generalizing l with
  | nil => cases herror
  | cons c rest ih =>
      rw [List.forall_mem_cons] at hcoins
      by_cases hheld : c.amount ≤ l.balance source c.denom
      · obtain ⟨m, hfirst⟩ := h.exists_transfer target hheld
        obtain ⟨k, n, hdebit, hcredit, hnil⟩ := transfer_cons_eq_ok.1 hfirst
        have hrest : Ledger.transfer source target rest n = .error e l' := by
          simp only [Ledger.transfer, bind, EStateM.bind, hdebit, hcredit] at herror
          exact herror
        obtain ⟨moved, x, left, rfl, hmoved, hlack⟩ :=
          ih (h.move hcoins.1 hdebit hcredit) hcoins.2 hrest
        exact ⟨c :: moved, x, left, rfl, transfer_cons_eq_ok.2 ⟨k, n, hdebit, hcredit, hmoved⟩,
          hlack⟩
      · have hlack := debit_of_lt (Int.not_le.1 hheld)
        simp only [Ledger.transfer, bind, EStateM.bind, hlack] at herror
        cases herror
        exact ⟨[], c, rest, rfl, rfl, hlack⟩

theorem Sound.left_burn (h : l.Sound) (address denom : String) (hamount : 0 ≤ amount) :
    ((Ledger.burn address denom amount).left l).Sound := by
  unfold Action.left
  cases hburn : Ledger.burn address denom amount l with
  | ok u l' => exact h.burn hburn hamount
  | error e l' => exact (h.of_burn_error hburn).1 ▸ h

theorem Sound.left_transfer (h : l.Sound) (source target : String)
    (hcoins : ∀ c ∈ coins, 0 ≤ c.amount) :
    ((Ledger.transfer source target coins).left l).Sound := by
  unfold Action.left
  cases hmoves : Ledger.transfer source target coins l with
  | ok u l' => exact h.transfer hcoins hmoves
  | error e l' =>
      obtain ⟨moved, c, rest, rfl, hmoved, -⟩ := h.of_transfer_error hcoins hmoves
      exact h.transfer (fun x hx => hcoins x (List.mem_append_left _ hx)) hmoved

theorem Sound.left_lock (h : l.Sound) (identifier receiver : String) (asset : Coin)
    (duration : Int) : ((Ledger.lock identifier receiver asset duration).left l).Sound := by
  unfold Action.left
  cases hlock : Ledger.lock identifier receiver asset duration l with
  | ok p l' => exact h.lock hlock
  | error e l' =>
      rw [Ledger.lock, Action.get_bind, Action.lift_bind] at hlock
      cases hasset : lockedAsset (l.position? identifier) asset with
      | ok sum => simp only [hasset] at hlock; cases hlock
      | error cause =>
          simp only [hasset] at hlock
          cases hlock
          exact h

end Failures

/-! ## Calls and copies -/

/-- What can be asked of a ledger. A copy is named by its place among those taken. -/
inductive Call
  | mint (address denom : String) (amount : Int)
  | burn (address denom : String) (amount : Int)
  | transfer (source target : String) (coins : List Coin)
  | lock (identifier receiver : String) (asset : Coin) (duration : Int)
  | seed (holder : String) (pool : Pool) (supply : Int)
  | snapshot
  | restore (copy : Nat)

/-- A ledger and the copies that were taken of it. -/
structure Session where
  ledger : Ledger
  copies : List Ledger

/-- No amount of a call is below zero. -/
def Call.Nonneg : Call → Prop
  | mint _ _ amount => 0 ≤ amount
  | burn _ _ amount => 0 ≤ amount
  | transfer _ _ coins => ∀ c ∈ coins, 0 ≤ c.amount
  | lock _ _ asset _ => 0 ≤ asset.amount
  | seed _ pool supply => (∀ c ∈ pool.assets, 0 ≤ c.amount) ∧ 0 ≤ supply
  | snapshot => True
  | restore _ => True

namespace Session

def start : Session := ⟨empty, []⟩

/-- A session after an action on its ledger, also after one that failed. -/
def change {α : Type} (s : Session) (action : Action Ledger α) : Session :=
  { s with ledger := action.left s.ledger }

def after (s : Session) : Call → Session
  | .mint address denom amount => s.change (Ledger.mint address denom amount)
  | .burn address denom amount => s.change (Ledger.burn address denom amount)
  | .transfer source target coins => s.change (Ledger.transfer source target coins)
  | .lock identifier receiver asset duration =>
    s.change (Ledger.lock identifier receiver asset duration)
  | .seed holder pool supply => s.change (Ledger.seed holder pool supply)
  | .snapshot => { s with copies := s.copies ++ [s.ledger] }
  | .restore copy => { s with ledger := s.copies[copy]?.getD s.ledger }

def run (s : Session) (calls : List Call) : Session := calls.foldl after s

/-- The ledger and all that it can be put back to are sound. -/
structure Sound (s : Session) : Prop where
  ledger : s.ledger.Sound
  copies : ∀ l ∈ s.copies, l.Sound

theorem sound_start : start.Sound := ⟨sound_empty, fun _ hl => nomatch hl⟩

theorem sound_after {s : Session} (hs : s.Sound) {call : Call} (h : call.Nonneg) :
    (s.after call).Sound := by
  cases call with
  | mint address denom amount => exact ⟨hs.ledger.left_mint address denom h, hs.copies⟩
  | burn address denom amount => exact ⟨hs.ledger.left_burn address denom h, hs.copies⟩
  | transfer source target coins => exact ⟨hs.ledger.left_transfer source target h, hs.copies⟩
  | lock identifier receiver asset duration =>
      exact ⟨hs.ledger.left_lock identifier receiver asset duration, hs.copies⟩
  | seed holder pool supply => exact ⟨hs.ledger.left_seed holder pool supply, hs.copies⟩
  | snapshot =>
      refine ⟨hs.ledger, fun l hl => ?_⟩
      rcases List.mem_append.1 hl with hl | hl
      · exact hs.copies l hl
      · exact List.mem_singleton.1 hl ▸ hs.ledger
  | restore copy =>
      refine ⟨?_, hs.copies⟩
      cases hcopy : s.copies[copy]? with
      | none => simpa only [after, hcopy, Option.getD_none] using hs.ledger
      | some l =>
          simpa only [after, hcopy, Option.getD_some] using
            hs.copies l (List.mem_of_getElem? hcopy)

theorem sound_run {s : Session} (hs : s.Sound) {calls : List Call}
    (h : ∀ call ∈ calls, call.Nonneg) : (s.run calls).Sound := by
  induction calls generalizing s with
  | nil => exact hs
  | cons call rest ih =>
      rw [List.forall_mem_cons] at h
      exact ih (sound_after hs h.1) h.2

/-- After any calls, failed ones among them, the supply of a denom is what all addresses hold of it.
A further call that fails has changed nothing, or moved the coins before one that is not held. -/
theorem balanced_after_calls (calls : List Call) (h : ∀ call ∈ calls, call.Nonneg) :
    (start.run calls).ledger.Balanced ∧
      (∀ address denom amount e l, mint address denom amount (start.run calls).ledger = .error e l →
        l = (start.run calls).ledger ∧ maxAmount < l.supply denom + amount) ∧
      (∀ address denom amount e l, burn address denom amount (start.run calls).ledger = .error e l →
        l = (start.run calls).ledger ∧ l.balance address denom < amount) ∧
      ∀ source target coins e l, (∀ c ∈ coins, 0 ≤ c.amount) →
        transfer source target coins (start.run calls).ledger = .error e l →
          ∃ moved c rest, coins = moved ++ c :: rest ∧
            transfer source target moved (start.run calls).ledger = .ok () l ∧
              debit source c.denom c.amount l = .error e l := by
  have hsound := (sound_run sound_start h).ledger
  refine ⟨hsound.balanced, ?_, ?_, ?_⟩
  · intro address denom amount e l herror
    obtain ⟨rfl, hlarge⟩ := hsound.of_mint_error herror
    exact ⟨rfl, hlarge⟩
  · intro address denom amount e l herror
    obtain ⟨rfl, hlack⟩ := hsound.of_burn_error herror
    exact ⟨rfl, hlack⟩
  · intro source target coins e l hcoins herror
    exact hsound.of_transfer_error hcoins herror

/-- Calls among which a transfer fails at its second coin, and a mint where it would not fit. -/
def mixedCalls : List Call :=
  [.mint "alice" "uom" 100, .snapshot, .burn "alice" "uom" 100, .restore 0,
    .transfer "alice" "bob" [⟨"uom", 30⟩, ⟨"uom", 80⟩], .mint "bob" "uom" maxAmount,
    .transfer "bob" "bob" [⟨"uom", 30⟩], .burn "bob" "uom" 10]

theorem balanced_after_mixedCalls :
    (∀ call ∈ mixedCalls, call.Nonneg) ∧ (start.run mixedCalls).ledger.Balanced ∧
      (start.run mixedCalls).ledger.balance "alice" "uom" = 70 ∧
      (start.run mixedCalls).ledger.balance "bob" "uom" = 20 ∧
      (start.run mixedCalls).ledger.supply "uom" = 90 := by
  have hnonneg : ∀ call ∈ mixedCalls, call.Nonneg := by
    simp [mixedCalls, Call.Nonneg, maxAmount]
  exact ⟨hnonneg, (balanced_after_calls mixedCalls hnonneg).1, by decide +kernel,
    by decide +kernel, by decide +kernel⟩

end Session

end Ledger

end MarketMaker

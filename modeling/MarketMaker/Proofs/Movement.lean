import MarketMaker.Proofs.Sequence
import MarketMaker.Proofs.Total

/-! # What ledger actions and effects move

Every ledger action is described by what each address gains of each denom and by how much of each
denom is issued. Movements add up along a sequence, so a whole settlement has one description. -/

namespace MarketMaker

/-! ## Movements of a ledger -/

namespace Ledger

/-- A ledger after gains of addresses and an issue of denoms. -/
structure Moved (l l' : Ledger) (gain : String → String → Int) (issue : String → Int) : Prop where
  balance : ∀ a d, l'.balance a d = l.balance a d + gain a d
  supply : ∀ d, l'.supply d = l.supply d + issue d

theorem Moved.refl (l : Ledger) : l.Moved l (fun _ _ => 0) (fun _ => 0) :=
  ⟨fun _ _ => (Int.add_zero _).symm, fun _ => (Int.add_zero _).symm⟩

theorem Moved.trans {l l' l'' : Ledger} {gain gain' : String → String → Int}
    {issue issue' : String → Int} (h : l.Moved l' gain issue) (h' : l'.Moved l'' gain' issue') :
    l.Moved l'' (fun a d => gain a d + gain' a d) (fun d => issue d + issue' d) := by
  constructor
  · intro a d
    rw [h'.balance, h.balance, Int.add_assoc]
  · intro d
    rw [h'.supply, h.supply, Int.add_assoc]

theorem Moved.congr {l l' : Ledger} {gain gain' : String → String → Int}
    {issue issue' : String → Int} (h : l.Moved l' gain issue) (hg : ∀ a d, gain a d = gain' a d)
    (hi : ∀ d, issue d = issue' d) : l.Moved l' gain' issue' :=
  ⟨fun a d => by rw [h.balance, hg], fun d => by rw [h.supply, hi]⟩

theorem credit_eq_ok {address denom : String} {amount : Int} {l l' : Ledger} {u : Unit} :
    credit address denom amount l = .ok u l' ↔
      l.balance address denom + amount ≤ maxAmount ∧
        l' = l.setBalance address denom (l.balance address denom + amount) := by
  simp only [credit, Action.bind_eq_ok, Action.get_eq_ok, Action.lift_eq_ok,
    Checked.add_eq_ok_iff, Action.set_eq_ok]
  constructor
  · rintro ⟨_, _, ⟨rfl, rfl⟩, _, _, ⟨⟨hle, rfl⟩, rfl⟩, rfl⟩
    exact ⟨hle, rfl⟩
  · rintro ⟨hle, rfl⟩
    exact ⟨l, l, ⟨rfl, rfl⟩, _, l, ⟨⟨hle, rfl⟩, rfl⟩, rfl⟩

theorem debit_eq_ok {address denom : String} {amount : Int} {l l' : Ledger} {u : Unit} :
    debit address denom amount l = .ok u l' ↔
      amount ≤ l.balance address denom ∧
        l' = l.setBalance address denom (l.balance address denom - amount) := by
  simp only [debit, Action.bind_eq_ok, Action.get_eq_ok, Action.lift_eq_ok,
    Checked.sub_eq_ok_iff, Action.set_eq_ok]
  constructor
  · rintro ⟨_, _, ⟨rfl, rfl⟩, _, _, ⟨⟨hle, rfl⟩, rfl⟩, rfl⟩
    exact ⟨hle, rfl⟩
  · rintro ⟨hle, rfl⟩
    exact ⟨l, l, ⟨rfl, rfl⟩, _, l, ⟨⟨hle, rfl⟩, rfl⟩, rfl⟩

/-- A debit of more than is held changes nothing. -/
theorem debit_of_lt {address denom : String} {amount : Int} {l : Ledger}
    (h : l.balance address denom < amount) :
    debit address denom amount l =
      .error (.fault (.subtraction (l.balance address denom) amount)) l := by
  rw [debit, Action.get_bind, Action.lift_bind, Checked.sub, if_pos (Int.sub_neg_of_lt h)]
  rfl

def single (address : String) (c : Coin) (a d : String) : Int :=
  if address = a ∧ c.denom = d then c.amount else 0

def gainOf (address : String) (coins : List Coin) (a d : String) : Int :=
  if address = a then Coin.total d coins else 0

theorem single_self (address : String) (c : Coin) (d : String) :
    single address c address d = Coin.total d [c] := by
  simp only [single, true_and, Coin.total_singleton]

theorem single_of_ne {address a : String} (h : address ≠ a) (c : Coin) (d : String) :
    single address c a d = 0 := by
  simp only [single, h, false_and, ite_false]

theorem single_nonneg (address : String) {c : Coin} (h : 0 ≤ c.amount) (a d : String) :
    0 ≤ single address c a d := by
  rw [single]
  split
  · exact h
  · exact Int.le_refl 0

theorem single_add (address denom : String) (x y : Int) (a d : String) :
    single address ⟨denom, x + y⟩ a d =
      single address ⟨denom, x⟩ a d + single address ⟨denom, y⟩ a d := by
  simp only [single]
  split <;> omega

theorem gainOf_self (address : String) (coins : List Coin) (d : String) :
    gainOf address coins address d = Coin.total d coins := by
  simp only [gainOf, ite_true]

theorem gainOf_of_ne {address a : String} (h : address ≠ a) (coins : List Coin) (d : String) :
    gainOf address coins a d = 0 := by
  simp only [gainOf, h, ite_false]

theorem gainOf_nil (address a d : String) : gainOf address [] a d = 0 := by
  simp only [gainOf, Coin.total_nil, ite_self]

theorem gainOf_cons (address : String) (c : Coin) (rest : List Coin) (a d : String) :
    gainOf address (c :: rest) a d = single address c a d + gainOf address rest a d := by
  by_cases h : address = a <;> simp [gainOf, single, h, Coin.total_cons]

theorem moved_setBalance (l : Ledger) (address denom : String) (amount : Int) :
    l.Moved (l.setBalance address denom (l.balance address denom + amount))
      (single address ⟨denom, amount⟩) (fun _ => 0) := by
  constructor
  · intro a d
    rw [balance_setBalance]
    by_cases h : address = a ∧ denom = d
    · simp [single, h]
    · simp [single, h]
  · intro d
    rw [supply_setBalance, Int.add_zero]

theorem moved_setSupply (l : Ledger) (denom : String) (amount : Int) :
    l.Moved (l.setSupply denom (l.supply denom + amount)) (fun _ _ => 0)
      (fun d => if denom = d then amount else 0) := by
  constructor
  · intro a d
    rw [balance_setSupply, Int.add_zero]
  · intro d
    rw [supply_setSupply]
    by_cases h : denom = d
    · simp [h]
    · simp [h]

theorem moved_of_credit {address denom : String} {amount : Int} {l l' : Ledger} {u : Unit}
    (h : credit address denom amount l = .ok u l') :
    l.Moved l' (single address ⟨denom, amount⟩) (fun _ => 0) := by
  obtain ⟨-, rfl⟩ := credit_eq_ok.1 h
  exact moved_setBalance l address denom amount

theorem moved_of_debit {address denom : String} {amount : Int} {l l' : Ledger} {u : Unit}
    (h : debit address denom amount l = .ok u l') :
    l.Moved l' (fun a d => -single address ⟨denom, amount⟩ a d) (fun _ => 0) := by
  obtain ⟨-, rfl⟩ := debit_eq_ok.1 h
  refine (moved_setBalance l address denom (-amount)).congr (fun a d => ?_) (fun _ => rfl)
  by_cases h : address = a ∧ denom = d <;> simp [single, h]

theorem moved_of_mint {address denom : String} {amount : Int} {l l' : Ledger} {u : Unit}
    (h : mint address denom amount l = .ok u l') :
    l.Moved l' (single address ⟨denom, amount⟩) (fun d => if denom = d then amount else 0) := by
  simp only [mint, Action.bind_eq_ok, Action.get_eq_ok, Action.lift_eq_ok,
    Checked.add_eq_ok_iff, Action.set_eq_ok] at h
  obtain ⟨_, _, ⟨rfl, rfl⟩, _, _, ⟨⟨-, rfl⟩, rfl⟩, _, _, rfl, hcredit⟩ := h
  refine ((moved_setSupply _ denom amount).trans (moved_of_credit hcredit)).congr ?_ ?_
  · exact fun a d => Int.zero_add _
  · exact fun d => Int.add_zero _

theorem moved_of_burn {address denom : String} {amount : Int} {l l' : Ledger} {u : Unit}
    (h : burn address denom amount l = .ok u l') :
    l.Moved l' (fun a d => -single address ⟨denom, amount⟩ a d)
      (fun d => -if denom = d then amount else 0) := by
  simp only [burn, Action.bind_eq_ok, Action.get_eq_ok, Action.lift_eq_ok,
    Checked.sub_eq_ok_iff, Action.set_eq_ok] at h
  obtain ⟨_, m, hdebit, _, _, ⟨h₁, -⟩, _, _, ⟨⟨-, h₂⟩, -⟩, rfl⟩ := h
  rw [h₂, h₁]
  have hsupply := moved_setSupply m denom (-amount)
  refine ((moved_of_debit hdebit).trans hsupply).congr ?_ ?_
  · exact fun a d => Int.add_zero _
  · intro d
    by_cases h : denom = d <;> simp [h]

/-! ### Other balances -/

theorem balance_left_credit {address denom a d : String} (h : address ≠ a ∨ denom ≠ d)
    (amount : Int) (l : Ledger) :
    ((credit address denom amount).left l).balance a d = l.balance a d := by
  have hother : ¬(address = a ∧ denom = d) := by
    rintro ⟨rfl, rfl⟩
    simp at h
  unfold Action.left
  split
  · rename_i hok
    rw [(moved_of_credit hok).balance, single, if_neg hother, Int.add_zero]
  · rename_i herror
    rw [credit, Action.get_bind, Action.lift_bind] at herror
    split at herror
    · cases herror
    · cases herror
      rfl

theorem balance_left_mint {address denom a d : String} (h : address ≠ a ∨ denom ≠ d)
    (amount : Int) (l : Ledger) :
    ((mint address denom amount).left l).balance a d = l.balance a d := by
  unfold Action.left
  rw [mint, Action.get_bind, Action.lift_bind]
  cases Checked.add (l.supply denom) amount with
  | error e => rfl
  | ok sum => exact balance_left_credit h amount (l.setSupply denom sum)

/-- Minting touches one address and the denoms of its coins, also where it fails half-way. -/
theorem balance_left_mintAll {address a d : String} {coins : List Coin}
    (h : address ≠ a ∨ d ∉ coins.map Coin.denom) (l : Ledger) :
    ((mintAll address coins).left l).balance a d = l.balance a d := by
  induction coins generalizing l with
  | nil => rfl
  | cons c rest ih =>
      rw [List.map_cons, List.mem_cons, not_or] at h
      have hmint := balance_left_mint (h.imp_right fun hd => Ne.symm hd.1) c.amount l
      exact Action.left_bind_eq (g := fun l => l.balance a d) hmint
        fun _ l' => ih (h.imp_right And.right) l'

theorem supply_left_credit (address denom d : String) (amount : Int) (l : Ledger) :
    ((credit address denom amount).left l).supply d = l.supply d := by
  unfold Action.left
  rw [credit, Action.get_bind, Action.lift_bind]
  cases Checked.add (l.balance address denom) amount <;> rfl

theorem supply_left_mint (address : String) {denom d : String} (h : denom ≠ d) (amount : Int)
    (l : Ledger) : ((mint address denom amount).left l).supply d = l.supply d := by
  unfold Action.left
  rw [mint, Action.get_bind, Action.lift_bind]
  cases Checked.add (l.supply denom) amount with
  | error e => rfl
  | ok sum =>
      have hcredit := supply_left_credit address denom d amount (l.setSupply denom sum)
      rw [supply_setSupply, if_neg h] at hcredit
      exact hcredit

/-- Minting issues the denoms of its coins only, also where it fails half-way. -/
theorem supply_left_mintAll (address : String) {d : String} {coins : List Coin}
    (h : d ∉ coins.map Coin.denom) (l : Ledger) :
    ((mintAll address coins).left l).supply d = l.supply d := by
  induction coins generalizing l with
  | nil => rfl
  | cons c rest ih =>
      simp only [List.map_cons, List.mem_cons, not_or] at h
      obtain ⟨hne, hrest⟩ := h
      have hmint := supply_left_mint address (Ne.symm hne) c.amount l
      exact Action.left_bind_eq (g := fun l => l.supply d) hmint fun _ l' => ih hrest l'

theorem supply_left_seed (holder : String) {pool : Pool} {d : String}
    (h : d ∉ (pool.assets.filter fun x => 0 < x.amount).map Coin.denom) (l : Ledger) :
    ((seed holder pool 0).left l).supply d = l.supply d := by
  have hmint := supply_left_mintAll holder h l
  exact Action.left_bind_eq (g := fun l : Ledger => l.supply d) hmint fun _ _ => rfl

theorem balance_left_seed {holder a d : String} {pool : Pool}
    (h : holder ≠ a ∨ d ∉ (pool.assets.filter fun x => 0 < x.amount).map Coin.denom) (l : Ledger) :
    ((seed holder pool 0).left l).balance a d = l.balance a d :=
  Action.left_bind_eq (g := fun l : Ledger => l.balance a d) (balance_left_mintAll h l)
    fun _ _ => rfl

theorem positions_left_mint (address denom : String) (amount : Int) (l : Ledger) :
    ((mint address denom amount).left l).positions = l.positions := by
  unfold Action.left
  rw [mint, Action.get_bind, Action.lift_bind]
  cases Checked.add (l.supply denom) amount with
  | error e => rfl
  | ok sum =>
      dsimp only
      rw [Action.set_bind, credit, Action.get_bind, Action.lift_bind]
      cases Checked.add ((l.setSupply denom sum).balance address denom) amount <;> rfl

/-- Minting opens no position, also where it fails half-way. -/
theorem positions_left_mintAll (address : String) (coins : List Coin) (l : Ledger) :
    ((mintAll address coins).left l).positions = l.positions := by
  induction coins generalizing l with
  | nil => rfl
  | cons c rest ih =>
      have hmint := positions_left_mint address c.denom c.amount l
      exact Action.left_bind_eq (g := positions) hmint fun _ l' => ih l'

theorem positions_left_seed (holder : String) (pool : Pool) (l : Ledger) :
    ((seed holder pool 0).left l).positions = l.positions :=
  Action.left_bind_eq (g := positions) (positions_left_mintAll holder _ l) fun _ _ => rfl

theorem moved_of_mintAll {address : String} {coins : List Coin} {l l' : Ledger} {u : Unit}
    (h : mintAll address coins l = .ok u l') :
    l.Moved l' (gainOf address coins) (fun d => Coin.total d coins) := by
  induction coins generalizing l with
  | nil =>
      obtain ⟨-, rfl⟩ := Action.pure_eq_ok.1 h
      exact (Moved.refl _).congr (fun a d => (gainOf_nil address a d).symm) (fun _ => rfl)
  | cons c rest ih =>
      obtain ⟨_, m, hmint, hrest⟩ := Action.bind_eq_ok.1 h
      refine ((moved_of_mint hmint).trans (ih hrest)).congr ?_ ?_
      · exact fun a d => (gainOf_cons address c rest a d).symm
      · exact fun d => (Coin.total_cons d c rest).symm

theorem moved_of_burnAll {address : String} {coins : List Coin} {l l' : Ledger} {u : Unit}
    (h : burnAll address coins l = .ok u l') :
    l.Moved l' (fun a d => -gainOf address coins a d) (fun d => -Coin.total d coins) := by
  induction coins generalizing l with
  | nil =>
      obtain ⟨-, rfl⟩ := Action.pure_eq_ok.1 h
      refine (Moved.refl _).congr (fun a d => ?_) (fun _ => rfl)
      rw [gainOf_nil, Int.neg_zero]
  | cons c rest ih =>
      obtain ⟨_, m, hburn, hrest⟩ := Action.bind_eq_ok.1 h
      refine ((moved_of_burn hburn).trans (ih hrest)).congr ?_ ?_
      · intro a d
        rw [gainOf_cons, Int.neg_add]
      · intro d
        rw [Coin.total_cons, Int.neg_add]

theorem moved_of_transfer {source target : String} {coins : List Coin} {l l' : Ledger} {u : Unit}
    (h : transfer source target coins l = .ok u l') :
    l.Moved l' (fun a d => gainOf target coins a d - gainOf source coins a d) (fun _ => 0) := by
  induction coins generalizing l with
  | nil =>
      obtain ⟨-, rfl⟩ := Action.pure_eq_ok.1 h
      refine (Moved.refl _).congr (fun a d => ?_) (fun _ => rfl)
      rw [gainOf_nil, gainOf_nil, Int.sub_zero]
  | cons c rest ih =>
      obtain ⟨_, m, hdebit, hmore⟩ := Action.bind_eq_ok.1 h
      obtain ⟨_, m', hcredit, hrest⟩ := Action.bind_eq_ok.1 hmore
      have hdebit : l.Moved m (fun a d => -single source c a d) (fun _ => 0) :=
        moved_of_debit hdebit
      have hcredit : m.Moved m' (single target c) (fun _ => 0) := moved_of_credit hcredit
      refine ((hdebit.trans hcredit).trans (ih hrest)).congr (fun a d => ?_) (fun _ => rfl)
      rw [gainOf_cons, gainOf_cons]
      omega

theorem moved_of_lock {identifier receiver : String} {asset : Coin} {duration : Int}
    {l l' : Ledger} {p : Position} (h : lock identifier receiver asset duration l = .ok p l') :
    l.Moved l' (fun _ _ => 0) (fun _ => 0) := by
  simp only [lock, Action.bind_eq_ok, Action.get_eq_ok, Action.lift_eq_ok, Action.set_eq_ok,
    Action.pure_eq_ok] at h
  obtain ⟨_, _, ⟨rfl, rfl⟩, _, _, ⟨-, rfl⟩, _, _, rfl, -, rfl⟩ := h
  exact ⟨fun _ _ => (Int.add_zero _).symm, fun _ => (Int.add_zero _).symm⟩

end Ledger

/-! ## Effects -/

namespace Effect

open Ledger

def gain : Effect → String → String → Int
  | send recipient coins, a, d => gainOf recipient coins a d - gainOf managerAddress coins a d
  | burn coins, a, d => -gainOf managerAddress coins a d
  | mintShare denom amount recipient, a, d => single recipient ⟨denom, amount⟩ a d
  | burnShare denom amount, a, d => -single managerAddress ⟨denom, amount⟩ a d
  | lock service _ _ asset _ _, a, d =>
      gainOf service [asset] a d - gainOf managerAddress [asset] a d

def issue : Effect → String → Int
  | send .., _ => 0
  | burn coins, d => -Coin.total d coins
  | mintShare denom amount _, d => if denom = d then amount else 0
  | burnShare denom amount, d => -if denom = d then amount else 0
  | lock .., _ => 0

def gains (effects : List Effect) (a d : String) : Int := sumOf (effects.map fun e => e.gain a d)

def issues (effects : List Effect) (d : String) : Int := sumOf (effects.map fun e => e.issue d)

theorem gains_nil (a d : String) : gains [] a d = 0 := rfl

theorem gains_cons (e : Effect) (rest : List Effect) (a d : String) :
    gains (e :: rest) a d = e.gain a d + gains rest a d := rfl

theorem gains_append (effects more : List Effect) (a d : String) :
    gains (effects ++ more) a d = gains effects a d + gains more a d := by
  simp only [gains, List.map_append, sumOf_append]

theorem issues_nil (d : String) : issues [] d = 0 := rfl

theorem issues_cons (e : Effect) (rest : List Effect) (d : String) :
    issues (e :: rest) d = e.issue d + issues rest d := rfl

theorem issues_append (effects more : List Effect) (d : String) :
    issues (effects ++ more) d = issues effects d + issues more d := by
  simp only [issues, List.map_append, sumOf_append]

end Effect

namespace Chain

open Ledger

/-- Nothing but the ledger and the count of named positions differs. -/
structure SameBooks (c c' : Chain) : Prop where
  config : c'.state.config = c.state.config
  registry : c'.state.registry = c.state.registry
  provisions : c'.state.provisions = c.state.provisions
  autoConfirm : c'.autoConfirm = c.autoConfirm
  pending : c'.pending = c.pending
  transactions : c'.transactions = c.transactions

theorem SameBooks.refl (c : Chain) : c.SameBooks c := ⟨rfl, rfl, rfl, rfl, rfl, rfl⟩

theorem SameBooks.trans {c c' c'' : Chain} (h : c.SameBooks c') (h' : c'.SameBooks c'') :
    c.SameBooks c'' :=
  ⟨h'.config.trans h.config, h'.registry.trans h.registry, h'.provisions.trans h.provisions,
    h'.autoConfirm.trans h.autoConfirm, h'.pending.trans h.pending,
    h'.transactions.trans h.transactions⟩

theorem sameBooks_withLedger {α : Type} (action : Action Ledger α) (c : Chain) :
    c.SameBooks (after (withLedger action) c) := by
  unfold after withLedger
  cases action c.state.ledger <;> exact ⟨rfl, rfl, rfl, rfl, rfl, rfl⟩

theorem ledger_after_withLedger {α : Type} (action : Action Ledger α) (c : Chain) :
    (after (withLedger action) c).state.ledger = action.left c.state.ledger := by
  unfold after withLedger Action.left
  cases action c.state.ledger <;> rfl

theorem sameBooks_bind {α β : Type} {x : Action Chain α} {f : α → Action Chain β} {c : Chain}
    (hx : c.SameBooks (after x c))
    (hf : ∀ (a : α) (c' : Chain), c'.SameBooks (after (f a) c')) :
    c.SameBooks (after (x >>= f) c) := by
  rcases after_bind x f c with ⟨a, c', hok, h⟩ | ⟨-, h⟩
  · rw [h]
    rw [after_eq_of_ok hok] at hx
    exact hx.trans (hf a c')
  · rw [h]
    exact hx

theorem sameBooks_pure {α : Type} (a : α) (c : Chain) :
    c.SameBooks (after (pure a : Action Chain α) c) := SameBooks.refl c

theorem sameBooks_positionName (identifier : Option String) (c : Chain) :
    c.SameBooks (after (positionName identifier) c) := by
  cases identifier with
  | none => exact ⟨rfl, rfl, rfl, rfl, rfl, rfl⟩
  | some name => exact SameBooks.refl c

theorem sameBooks_applyEffect (e : Effect) (c : Chain) :
    c.SameBooks (after (applyEffect e) c) := by
  cases e with
  | send recipient coins => exact sameBooks_withLedger _ c
  | burn coins => exact sameBooks_withLedger _ c
  | mintShare denom amount recipient => exact sameBooks_withLedger _ c
  | burnShare denom amount => exact sameBooks_withLedger _ c
  | lock service expands receiver asset identifier duration =>
      refine sameBooks_bind (sameBooks_withLedger _ c) fun _ c₁ => ?_
      refine sameBooks_bind (sameBooks_positionName identifier c₁) fun name c₂ => ?_
      exact sameBooks_bind (sameBooks_withLedger _ c₂) fun _ c₃ => sameBooks_pure () c₃

/-- Effects leave the books alone, whether they are carried out to the end or not. -/
theorem sameBooks_applyEffects (effects : List Effect) (c : Chain) :
    c.SameBooks (after (applyEffects effects) c) := by
  induction effects generalizing c with
  | nil => exact SameBooks.refl c
  | cons e rest ih => exact sameBooks_bind (sameBooks_applyEffect e c) fun _ c' => ih c'

/-! ## Effects that are carried out -/

theorem moved_of_withLedger {α : Type} {action : Action Ledger α} {c c' : Chain} {a : α}
    {gain : String → String → Int} {issue : String → Int}
    (h : withLedger action c = .ok a c')
    (hm : ∀ l l', action l = .ok a l' → l.Moved l' gain issue) :
    c.state.ledger.Moved c'.state.ledger gain issue := by
  obtain ⟨l, hl, rfl⟩ := withLedger_eq_ok.1 h
  exact hm _ _ hl

theorem ledger_of_positionName {identifier : Option String} {c c' : Chain} {name : String}
    (h : positionName identifier c = .ok name c') : c'.state.ledger = c.state.ledger := by
  cases identifier with
  | some given =>
      obtain ⟨-, rfl⟩ := Action.pure_eq_ok.1 h
      rfl
  | none =>
      simp only [positionName, freshPosition, Action.bind_eq_ok, Action.modify_eq_ok,
        Action.get_eq_ok, Action.pure_eq_ok] at h
      obtain ⟨_, _, rfl, _, _, ⟨rfl, rfl⟩, -, rfl⟩ := h
      rfl

theorem moved_of_applyEffect {e : Effect} {c c' : Chain} {u : Unit}
    (h : applyEffect e c = .ok u c') : c.state.ledger.Moved c'.state.ledger e.gain e.issue := by
  cases e with
  | send recipient coins => exact moved_of_withLedger h fun _ _ => moved_of_transfer
  | burn coins => exact moved_of_withLedger h fun _ _ => moved_of_burnAll
  | mintShare denom amount recipient => exact moved_of_withLedger h fun _ _ => moved_of_mint
  | burnShare denom amount => exact moved_of_withLedger h fun _ _ => moved_of_burn
  | lock service expands receiver asset identifier duration =>
      simp only [applyEffect, Action.bind_eq_ok, Action.pure_eq_ok] at h
      obtain ⟨_, c₁, hsend, name, c₂, hname, p, c₃, hlock, -, rfl⟩ := h
      have hs := moved_of_withLedger hsend fun _ _ => moved_of_transfer
      have hl := moved_of_withLedger hlock fun _ _ => moved_of_lock
      rw [ledger_of_positionName hname] at hl
      exact (hs.trans hl).congr (fun a d => Int.add_zero _) (fun d => Int.add_zero _)

theorem moved_of_applyEffects {effects : List Effect} {c c' : Chain} {u : Unit}
    (h : applyEffects effects c = .ok u c') :
    c.state.ledger.Moved c'.state.ledger (Effect.gains effects) (Effect.issues effects) := by
  induction effects generalizing c with
  | nil =>
      obtain ⟨-, rfl⟩ := Action.pure_eq_ok.1 h
      exact Moved.refl _
  | cons e rest ih =>
      obtain ⟨_, c₁, he, hrest⟩ := Action.bind_eq_ok.1 h
      exact (moved_of_applyEffect he).trans (ih hrest)

theorem sameBooks_of_applyEffects {effects : List Effect} {c c' : Chain} {u : Unit}
    (h : applyEffects effects c = .ok u c') : c.SameBooks c' := by
  have hs := sameBooks_applyEffects effects c
  rwa [after_eq_of_ok h] at hs

end Chain

end MarketMaker

import Mathlib.Data.List.Forall2
import MarketMaker.Coin.Model
import MarketMaker.Quote.Model

/-! # Readings that are accepted

A reading of several parts is accepted when each part is. -/

namespace MarketMaker

namespace Reading

variable {α β : Type}

theorem map_eq_accepted {f : α → β} {r : Reading α} {b : β} :
    f <$> r = accepted b ↔ ∃ a, r = accepted a ∧ b = f a := by
  change r.map f = accepted b ↔ _
  cases r with
  | accepted a => simp [map, eq_comm]
  | rejected ps => simp [map]
  | refused cause => simp [map]

theorem seq_eq_accepted {f : Reading (α → β)} {r : Reading α} {b : β} :
    f <*> r = accepted b ↔ ∃ g a, f = accepted g ∧ r = accepted a ∧ b = g a := by
  change (f.both r).map _ = accepted b ↔ _
  cases f with
  | accepted g => cases r <;> simp [both, map, eq_comm]
  | rejected ps => cases r <;> simp [both, map]
  | refused cause => cases r <;> simp [both, map]

theorem toResult_eq_ok {r : Reading α} {a : α} : r.toResult = .ok a ↔ r = accepted a := by
  cases r <;> simp [toResult, fail]

theorem within_eq_accepted {step : String} {r : Reading α} {a : α} :
    r.within step = accepted a ↔ r = accepted a := by
  cases r <;> simp [within]

theorem ofExcept_eq_accepted {e : Except ValueFault α} {a : α} :
    ofExcept e = accepted a ↔ e = .ok a := by
  cases e <;> simp [ofExcept, problem]

theorem andThen_eq_accepted {r : Reading α} {f : α → Reading β} {b : β} :
    r.andThen f = accepted b ↔ ∃ a, r = accepted a ∧ f a = accepted b := by
  cases r <;> simp [andThen]

theorem object_eq_accepted {otherwise : ProblemKind} {read : Fields → Reading α} {v : Json}
    {a : α} :
    object otherwise read v = accepted a ↔
      ∃ fields, v = .object fields ∧ read fields = accepted a := by
  cases v <;> simp [object, problem]

theorem required_eq_accepted {name : String} {read : Json → Reading α} {fields : Fields} {a : α} :
    required name read fields = accepted a ↔
      ∃ v, Json.lookup name fields = some v ∧ read v = accepted a := by
  unfold required
  cases Json.lookup name fields with
  | none => simp [problem, within]
  | some v => simp [within_eq_accepted]

theorem optional_eq_accepted {name : String} {default : α} {read : Json → Reading α}
    {fields : Fields} {a : α} :
    optional name default read fields = accepted a ↔
      (∃ v, Json.lookup name fields = some v ∧ read v = accepted a) ∨
        Json.lookup name fields = none ∧ a = default := by
  unfold optional
  cases Json.lookup name fields with
  | none => simp [eq_comm]
  | some v => simp [within_eq_accepted]

/-- A list is read when each of its items is. -/
theorem itemsFrom_eq_accepted {read : Json → Reading α} {i : Nat} {items : List Json}
    {as : List α} :
    itemsFrom read i items = accepted as ↔
      List.Forall₂ (fun v a => read v = accepted a) items as := by
  induction items generalizing i as with
  | nil => simp [itemsFrom, eq_comm]
  | cons v rest ih =>
      have hboth : itemsFrom read i (v :: rest) =
          List.cons <$> (read v).within (toString i) <*> itemsFrom read (i + 1) rest := by
        change _ = ((((read v).within (toString i)).map List.cons).both _).map _
        rw [itemsFrom]
        cases (read v).within (toString i) <;> cases itemsFrom read (i + 1) rest <;> rfl
      simp only [hboth, seq_eq_accepted, map_eq_accepted, within_eq_accepted, ih,
        List.forall₂_cons_left_iff]
      constructor
      · rintro ⟨_, _, ⟨a, ha, rfl⟩, hrest, rfl⟩
        exact ⟨a, _, ha, hrest, rfl⟩
      · rintro ⟨a, more, ha, hrest, rfl⟩
        exact ⟨_, _, ⟨a, ha, rfl⟩, hrest, rfl⟩

theorem list_eq_accepted {read : Json → Reading α} {v : Json} {as : List α} :
    list read v = accepted as ↔
      ∃ items, v = .list items ∧ List.Forall₂ (fun v a => read v = accepted a) items as := by
  cases v <;> simp [list, problem, itemsFrom_eq_accepted]

/-- An amount that is given as an integer is read as it is, if it is in range. -/
theorem required_amount {name : String} {fields : Fields} {m n : Int}
    (h : Json.lookup name fields = some (.int m)) :
    required name amount fields = accepted n ↔ 0 ≤ m ∧ m ≤ maxAmount ∧ n = m := by
  rw [required, h, ← amountOfInt_eq_ok_iff]
  dsimp only
  rw [within_eq_accepted, amount, ofExcept_eq_accepted, amountOf]

theorem required_amount_large {name : String} {fields : Fields} {m : Int}
    (h : Json.lookup name fields = some (.int m)) (hm : maxAmount < m) :
    required name amount fields = rejected [⟨.value (.amountTooLarge m), [name]⟩] := by
  have hmax : (0 : Int) < maxAmount := by decide
  have hamount : amountOfInt m = .error (.amountTooLarge m) := by
    rw [amountOfInt, if_neg (by omega), if_pos hm]
  rw [required, h]
  dsimp only
  rw [amount, amountOf, hamount]
  rfl

/-- A name that is given as a text is read as it is, if it is not empty. -/
theorem required_name {name : String} {fields : Fields} {s t : String}
    (h : Json.lookup name fields = some (.text s)) :
    required name Reading.name fields = accepted t ↔ s ≠ "" ∧ t = s := by
  rw [required, h]
  dsimp only
  rw [within_eq_accepted, Reading.name, text]
  by_cases hs : s = ""
  · simp [andThen, hs, problem]
  · simp [andThen, hs, eq_comm]

end Reading

open Reading

/-- A coin is made of a denom that is named and an amount of 128 bits. -/
theorem Coin.make_eq_ok_iff {denom : String} {amount : Int} {c : Coin} :
    Coin.make denom amount = .ok c ↔ c.Valid ∧ c = ⟨denom, amount⟩ := by
  have hdenom : Json.lookup "denom" [("denom", .text denom), ("amount", .int amount)] =
      some (.text denom) := rfl
  have hamount : Json.lookup "amount" [("denom", .text denom), ("amount", .int amount)] =
      some (.int amount) := rfl
  simp only [make, toResult_eq_ok, ofFields, seq_eq_accepted, map_eq_accepted,
    required_name hdenom, required_amount hamount]
  constructor
  · rintro ⟨_, _, ⟨_, ⟨hne, rfl⟩, rfl⟩, ⟨hle, hmax, rfl⟩, rfl⟩
    exact ⟨⟨hne, hle, hmax⟩, rfl⟩
  · rintro ⟨⟨hne, hle, hmax⟩, rfl⟩
    exact ⟨_, _, ⟨_, ⟨hne, rfl⟩, rfl⟩, ⟨hle, hmax, rfl⟩, rfl⟩

/-! ## Quotes -/

/-- The rejection of a quote for its spread. -/
def spreadTooLarge (spread : Int) : Failure :=
  .rejected [⟨.value (.amountTooLarge spread), ["spread_amount"]⟩]

/-- Amounts of 128 bits. -/
structure Charges.Fits (c : Charges) : Prop where
  swap : 0 ≤ c.swap ∧ c.swap ≤ maxAmount
  protocol : 0 ≤ c.protocol ∧ c.protocol ≤ maxAmount
  burn : 0 ≤ c.burn ∧ c.burn ≤ maxAmount
  extra : 0 ≤ c.extra ∧ c.extra ≤ maxAmount

/-- Fields that hold the charges give back the charges, if every amount fits. -/
theorem Charges.ofFields_eq_accepted {fields : Fields} {c d : Charges}
    (hswap : Json.lookup "swap_fee_amount" fields = some (.int c.swap))
    (hprotocol : Json.lookup "protocol_fee_amount" fields = some (.int c.protocol))
    (hburn : Json.lookup "burn_fee_amount" fields = some (.int c.burn))
    (hextra : Json.lookup "extra_fees_amount" fields = some (.int c.extra)) :
    ofFields fields = accepted d ↔ c.Fits ∧ d = c := by
  simp only [ofFields, seq_eq_accepted, map_eq_accepted, required_amount hswap,
    required_amount hprotocol, required_amount hburn, required_amount hextra]
  constructor
  · rintro ⟨_, _, ⟨_, _, ⟨_, _, ⟨_, ⟨hs, hs', rfl⟩, rfl⟩, ⟨hp, hp', rfl⟩, rfl⟩, ⟨hb, hb', rfl⟩,
      rfl⟩, ⟨he, he', rfl⟩, rfl⟩
    exact ⟨⟨⟨hs, hs'⟩, ⟨hp, hp'⟩, ⟨hb, hb'⟩, ⟨he, he'⟩⟩, rfl⟩
  · rintro ⟨⟨⟨hs, hs'⟩, ⟨hp, hp'⟩, ⟨hb, hb'⟩, ⟨he, he'⟩⟩, rfl⟩
    exact ⟨_, _, ⟨_, _, ⟨_, _, ⟨_, ⟨hs, hs', rfl⟩, rfl⟩, ⟨hp, hp', rfl⟩, rfl⟩, ⟨hb, hb', rfl⟩, rfl⟩,
      ⟨he, he', rfl⟩, rfl⟩

/-- A quote that can be reported. -/
structure SwapQuote.Fits (q : SwapQuote) : Prop where
  returned : 0 ≤ q.returned ∧ q.returned ≤ maxAmount
  spread : 0 ≤ q.spread ∧ q.spread ≤ maxAmount
  charges : q.charges.Fits

/-- A report is the quote itself, and there is one exactly if every amount fits. -/
theorem SwapQuote.reported_eq_ok_iff {q r : SwapQuote} : q.reported = .ok r ↔ q.Fits ∧ r = q := by
  have hreturned : Json.lookup "return_amount" q.toFields = some (.int q.returned) := rfl
  have hspread : Json.lookup "spread_amount" q.toFields = some (.int q.spread) := rfl
  have hcharges : ∀ d, Charges.ofFields q.toFields = accepted d ↔ q.charges.Fits ∧ d = q.charges :=
    fun d => Charges.ofFields_eq_accepted rfl rfl rfl rfl
  simp only [reported, toResult_eq_ok, SwapQuote.ofFields, seq_eq_accepted, map_eq_accepted,
    required_amount hreturned, required_amount hspread, hcharges]
  constructor
  · rintro ⟨_, _, ⟨_, _, ⟨_, ⟨hr, hr', rfl⟩, rfl⟩, ⟨hs, hs', rfl⟩, rfl⟩, ⟨hc, rfl⟩, rfl⟩
    exact ⟨⟨⟨hr, hr'⟩, ⟨hs, hs'⟩, hc⟩, rfl⟩
  · rintro ⟨⟨⟨hr, hr'⟩, ⟨hs, hs'⟩, hc⟩, rfl⟩
    exact ⟨_, _, ⟨_, _, ⟨_, ⟨hr, hr', rfl⟩, rfl⟩, ⟨hs, hs', rfl⟩, rfl⟩, ⟨hc, rfl⟩, rfl⟩

/-- Where only the spread does not fit, it is all that the quote is rejected for. -/
theorem SwapQuote.reported_of_large {q : SwapQuote}
    (hreturned : 0 ≤ q.returned ∧ q.returned ≤ maxAmount) (hspread : maxAmount < q.spread)
    (hcharges : q.charges.Fits) : q.reported = .error (spreadTooLarge q.spread) := by
  have hfirst : required "return_amount" amount q.toFields = accepted q.returned :=
    (required_amount rfl).2 ⟨hreturned.1, hreturned.2, rfl⟩
  have hsecond : required "spread_amount" amount q.toFields = _ := required_amount_large rfl hspread
  have hlast : Charges.ofFields q.toFields = accepted q.charges :=
    (Charges.ofFields_eq_accepted rfl rfl rfl rfl).2 ⟨hcharges, rfl⟩
  rw [reported, SwapQuote.ofFields, hfirst, hsecond, hlast]
  rfl

/-- An offer that can be reported. -/
structure OfferQuote.Fits (q : OfferQuote) : Prop where
  offer : 0 ≤ q.offer ∧ q.offer ≤ maxAmount
  spread : 0 ≤ q.spread ∧ q.spread ≤ maxAmount
  charges : q.charges.Fits

theorem OfferQuote.reported_eq_ok_iff {q r : OfferQuote} :
    q.reported = .ok r ↔ q.Fits ∧ r = q := by
  have hoffer : Json.lookup "offer_amount" q.toFields = some (.int q.offer) := rfl
  have hspread : Json.lookup "spread_amount" q.toFields = some (.int q.spread) := rfl
  have hcharges : ∀ d, Charges.ofFields q.toFields = accepted d ↔ q.charges.Fits ∧ d = q.charges :=
    fun d => Charges.ofFields_eq_accepted rfl rfl rfl rfl
  simp only [reported, toResult_eq_ok, OfferQuote.ofFields, seq_eq_accepted, map_eq_accepted,
    required_amount hoffer, required_amount hspread, hcharges]
  constructor
  · rintro ⟨_, _, ⟨_, _, ⟨_, ⟨ho, ho', rfl⟩, rfl⟩, ⟨hs, hs', rfl⟩, rfl⟩, ⟨hc, rfl⟩, rfl⟩
    exact ⟨⟨⟨ho, ho'⟩, ⟨hs, hs'⟩, hc⟩, rfl⟩
  · rintro ⟨⟨⟨ho, ho'⟩, ⟨hs, hs'⟩, hc⟩, rfl⟩
    exact ⟨_, _, ⟨_, _, ⟨_, ⟨ho, ho', rfl⟩, rfl⟩, ⟨hs, hs', rfl⟩, rfl⟩, ⟨hc, rfl⟩, rfl⟩

/-- Where only the spread does not fit, it is all that the quote is rejected for. -/
theorem OfferQuote.reported_of_large {q : OfferQuote}
    (hoffer : 0 ≤ q.offer ∧ q.offer ≤ maxAmount) (hspread : maxAmount < q.spread)
    (hcharges : q.charges.Fits) : q.reported = .error (spreadTooLarge q.spread) := by
  have hfirst : required "offer_amount" amount q.toFields = accepted q.offer :=
    (required_amount rfl).2 ⟨hoffer.1, hoffer.2, rfl⟩
  have hsecond : required "spread_amount" amount q.toFields = _ := required_amount_large rfl hspread
  have hlast : Charges.ofFields q.toFields = accepted q.charges :=
    (Charges.ofFields_eq_accepted rfl rfl rfl rfl).2 ⟨hcharges, rfl⟩
  rw [reported, OfferQuote.ofFields, hfirst, hsecond, hlast]
  rfl

end MarketMaker

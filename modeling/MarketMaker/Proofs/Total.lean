import MarketMaker.Coin.Aggregate
import MarketMaker.Table

/-! # Totals of tables and of coins -/

namespace MarketMaker

/-! ## Tables -/

namespace Table

variable {κ α : Type} [DecidableEq κ]

/-- The sum of a measure over the entries of a table. -/
def sumEntries (t : Table κ α) (f : κ → α → Int) : Int := sumOf (t.entries.map fun e => f e.1 e.2)

/-- The measure of the entry under a key, zero where there is none. -/
def entryAt (t : Table κ α) (f : κ → α → Int) (key : κ) : Int := ((t.get? key).map (f key)).getD 0

def sumBy (t : Table κ α) (f : α → Int) : Int := sumOf (t.entries.map fun e => f e.2)

def measureAt (t : Table κ α) (f : α → Int) (key : κ) : Int := ((t.get? key).map f).getD 0

theorem measureAt_of_get? {t : Table κ α} {f : α → Int} {key : κ} {value : α}
    (h : t.get? key = some value) : t.measureAt f key = f value := by
  simp only [measureAt, h, Option.map_some, Option.getD_some]

theorem measureAt_of_none {t : Table κ α} {f : α → Int} {key : κ} (h : t.get? key = none) :
    t.measureAt f key = 0 := by
  simp only [measureAt, h, Option.map_none, Option.getD_none]

private theorem sumOf_replace (f : κ → α → Int) (key : κ) (value : α) (entries : List (κ × α)) :
    sumOf ((replace key value entries).map fun e => f e.1 e.2) =
      sumOf (entries.map fun e => f e.1 e.2) + f key value -
        ((find key entries).map (f key)).getD 0 := by
  induction entries with
  | nil => simp [replace, find, sumOf]
  | cons e rest ih =>
      obtain ⟨k, v⟩ := e
      by_cases h : k = key
      · subst h
        simp only [replace, find, ite_true, List.map_cons, sumOf_cons, Option.map_some,
          Option.getD_some]
        omega
      · simp only [replace, find, h, ite_false, List.map_cons, sumOf_cons, ih]
        omega

theorem sumEntries_put (t : Table κ α) (f : κ → α → Int) (key : κ) (value : α) :
    (t.put key value).sumEntries f = t.sumEntries f + f key value - t.entryAt f key :=
  sumOf_replace f key value t.entries

theorem sumBy_put (t : Table κ α) (f : α → Int) (key : κ) (value : α) :
    (t.put key value).sumBy f = t.sumBy f + f value - t.measureAt f key :=
  t.sumEntries_put (fun _ => f) key value

private theorem filter_ne_of_find_eq_none {key : κ} {entries : List (κ × α)}
    (h : find key entries = none) : (entries.filter fun e => e.1 ≠ key) = entries := by
  rw [List.filter_eq_self]
  intro e he
  have hne : e.1 ≠ key := by
    rintro rfl
    exact find_eq_none_iff.1 h (List.mem_map_of_mem he)
  simpa using hne

private theorem sumOf_filter_ne (f : κ → α → Int) (key : κ) (entries : List (κ × α))
    (hn : (entries.map Prod.fst).Nodup) :
    sumOf ((entries.filter fun e => e.1 ≠ key).map fun e => f e.1 e.2) =
      sumOf (entries.map fun e => f e.1 e.2) - ((find key entries).map (f key)).getD 0 := by
  induction entries with
  | nil => simp [find, sumOf]
  | cons e rest ih =>
      obtain ⟨k, v⟩ := e
      simp only [List.map_cons, List.nodup_cons] at hn
      by_cases h : k = key
      · subst h
        have hrest : find k rest = none := find_eq_none_iff.2 hn.1
        have hfilter := filter_ne_of_find_eq_none hrest
        simp only [ne_eq, not_true_eq_false, decide_false, Bool.false_eq_true,
          not_false_eq_true, List.filter_cons_of_neg, find, ite_true, List.map_cons, sumOf_cons,
          Option.map_some, Option.getD_some] at hfilter ⊢
        rw [hfilter]
        omega
      · simp only [ne_eq, h, not_false_eq_true, decide_true, List.filter_cons_of_pos,
          List.map_cons, sumOf_cons, find, ite_false]
        have hi := ih hn.2
        simp only [ne_eq] at hi
        omega

theorem sumEntries_erase (t : Table κ α) (f : κ → α → Int) (key : κ) :
    (t.erase key).sumEntries f = t.sumEntries f - t.entryAt f key :=
  sumOf_filter_ne f key t.entries t.nodup

theorem sumBy_erase (t : Table κ α) (f : α → Int) (key : κ) :
    (t.erase key).sumBy f = t.sumBy f - t.measureAt f key :=
  t.sumEntries_erase (fun _ => f) key

theorem erase_of_none {t : Table κ α} {key : κ} (h : t.get? key = none) : t.erase key = t := by
  obtain ⟨entries, hn⟩ := t
  simp only [erase, filter_ne_of_find_eq_none h]

private theorem filter_replace_of_find_eq_none {key : κ} {value : α} {entries : List (κ × α)}
    (h : find key entries = none) :
    ((replace key value entries).filter fun e => e.1 ≠ key) = entries := by
  induction entries with
  | nil => simp [replace]
  | cons e rest ih =>
      obtain ⟨k, v⟩ := e
      by_cases hk : k = key
      · simp [find, hk] at h
      · simp only [find, hk, ite_false] at h
        simp only [replace, hk, ite_false, ne_eq, not_false_eq_true, decide_true,
          List.filter_cons_of_pos]
        rw [ih h]

/-- What is put under a new key and taken out again leaves nothing. -/
theorem erase_put_of_none {t : Table κ α} {key : κ} (h : t.get? key = none) (value : α) :
    (t.put key value).erase key = t := by
  obtain ⟨entries, hn⟩ := t
  simp only [put, erase, filter_replace_of_find_eq_none h]

theorem put_of_get? {t : Table κ α} {key : κ} {value : α} (h : t.get? key = some value) :
    t.put key value = t := by
  obtain ⟨entries, hn⟩ := t
  simp only [put, mk.injEq]
  dsimp only [get?] at h
  clear hn
  induction entries with
  | nil => cases h
  | cons e rest ih =>
      obtain ⟨k, v⟩ := e
      by_cases hk : k = key
      · simp only [find, hk, ite_true, Option.some.injEq] at h
        simp only [replace, hk, h, ite_true]
      · simp only [find, hk, ite_false] at h
        simp only [replace, hk, ite_false, ih h]

theorem put_put (t : Table κ α) (key : κ) (old value : α) :
    (t.put key old).put key value = t.put key value := by
  obtain ⟨entries, hn⟩ := t
  simp only [put, mk.injEq]
  clear hn
  induction entries with
  | nil => simp [replace]
  | cons e rest ih =>
      obtain ⟨k, v⟩ := e
      by_cases hk : k = key
      · simp [replace, hk]
      · simp [replace, hk, ih]

/-- Values under different keys can be put in any order, where the keys do not both come new. -/
theorem put_comm {t : Table κ α} {key key' : κ} (hne : key ≠ key') (hkey : key ∈ t.keys)
    (value value' : α) :
    (t.put key value).put key' value' = (t.put key' value').put key value := by
  obtain ⟨entries, hn⟩ := t
  simp only [put, mk.injEq]
  dsimp only [keys] at hkey
  clear hn
  induction entries with
  | nil => cases hkey
  | cons e rest ih =>
      obtain ⟨k, v⟩ := e
      by_cases hk : k = key
      · subst hk
        simp [replace, hne]
      · have hrest := (List.mem_cons.1 hkey).resolve_left (Ne.symm hk)
        by_cases hk' : k = key'
        · subst hk'
          simp [replace, hk]
        · simp [replace, hk, hk', ih hrest]

theorem mem_entries_of_get? {t : Table κ α} {key : κ} {value : α} (h : t.get? key = some value) :
    (key, value) ∈ t.entries := by
  obtain ⟨entries, hn⟩ := t
  dsimp only [get?] at h ⊢
  clear hn
  induction entries with
  | nil => cases h
  | cons e rest ih =>
      obtain ⟨k, v⟩ := e
      by_cases hk : k = key
      · simp only [find, hk, ite_true, Option.some.injEq] at h
        simp [hk, h]
      · simp only [find, hk, ite_false] at h
        exact List.mem_cons_of_mem _ (ih h)

theorem get?_of_mem_entries {t : Table κ α} {key : κ} {value : α} (h : (key, value) ∈ t.entries) :
    t.get? key = some value := by
  obtain ⟨entries, hn⟩ := t
  unfold get?
  dsimp only at h ⊢
  induction entries with
  | nil => cases h
  | cons e rest ih =>
      simp only [List.map_cons, List.nodup_cons] at hn
      rcases List.mem_cons.1 h with rfl | hrest
      · simp only [find, ite_true]
      · have hne : e.1 ≠ key := by
          rintro rfl
          exact hn.1 (List.mem_map.2 ⟨_, hrest, rfl⟩)
        simp only [find, hne, ite_false]
        exact ih hn.2 hrest

theorem sumEntries_nonneg {t : Table κ α} {f : κ → α → Int}
    (h : ∀ key value, t.get? key = some value → 0 ≤ f key value) : 0 ≤ t.sumEntries f := by
  apply sumOf_nonneg
  intro x hx
  obtain ⟨⟨key, value⟩, he, rfl⟩ := List.mem_map.1 hx
  exact h key value (get?_of_mem_entries he)

private theorem nonneg_erase {t : Table κ α} {f : κ → α → Int}
    (h : ∀ key value, t.get? key = some value → 0 ≤ f key value) (key : κ) :
    ∀ k v, (t.erase key).get? k = some v → 0 ≤ f k v := by
  intro k v hk
  rw [get?_erase] at hk
  split at hk
  · cases hk
  · exact h k v hk

/-- One entry is at most the sum, if none is below zero. -/
theorem entryAt_le_sumEntries {t : Table κ α} {f : κ → α → Int}
    (h : ∀ key value, t.get? key = some value → 0 ≤ f key value) (key : κ) :
    t.entryAt f key ≤ t.sumEntries f := by
  have hrest := sumEntries_nonneg (nonneg_erase h key)
  rw [sumEntries_erase] at hrest
  omega

/-- Two entries together are at most the sum, if none is below zero. -/
theorem entryAt_add_le_sumEntries {t : Table κ α} {f : κ → α → Int}
    (h : ∀ key value, t.get? key = some value → 0 ≤ f key value) {key other : κ}
    (hne : key ≠ other) : t.entryAt f key + t.entryAt f other ≤ t.sumEntries f := by
  have hother := entryAt_le_sumEntries (nonneg_erase h key) other
  rw [sumEntries_erase, entryAt, get?_erase, if_neg hne, ← entryAt] at hother
  omega

theorem measureAt_le_sumBy {t : Table κ α} {f : α → Int}
    (h : ∀ key value, t.get? key = some value → 0 ≤ f value) (key : κ) :
    t.measureAt f key ≤ t.sumBy f :=
  entryAt_le_sumEntries (f := fun _ => f) h key

end Table

/-! ## Coins -/

namespace Coin

theorem total_nil (denom : String) : total denom [] = 0 := rfl

theorem total_cons (denom : String) (c : Coin) (rest : List Coin) :
    total denom (c :: rest) = (if c.denom = denom then c.amount else 0) + total denom rest := by
  by_cases h : c.denom = denom
  · simp [total, h, sumOf]
  · simp [total, h]

theorem total_singleton (denom : String) (c : Coin) :
    total denom [c] = if c.denom = denom then c.amount else 0 := by
  rw [total_cons, total_nil, Int.add_zero]

theorem total_append (denom : String) (coins more : List Coin) :
    total denom (coins ++ more) = total denom coins + total denom more := by
  simp only [total, List.filter_append, List.map_append, sumOf_append]

theorem total_perm {coins more : List Coin} (h : coins.Perm more) (denom : String) :
    total denom coins = total denom more := sumOf_perm ((h.filter _).map _)

theorem total_nonneg {denom : String} {coins : List Coin} (h : ∀ c ∈ coins, 0 ≤ c.amount) :
    0 ≤ total denom coins := by
  induction coins with
  | nil => exact Int.le_refl 0
  | cons c rest ih =>
      have hc := h c List.mem_cons_self
      have hrest := ih fun x hx => h x (List.mem_cons_of_mem c hx)
      rw [total_cons]
      split <;> omega

/-- One coin is at most all of its denom, if none is below zero. -/
theorem amount_le_total {coins : List Coin} (h : ∀ c ∈ coins, 0 ≤ c.amount) {c : Coin}
    (hc : c ∈ coins) : c.amount ≤ total c.denom coins := by
  obtain ⟨before, behind, rfl⟩ := List.append_of_mem hc
  have hbefore : 0 ≤ total c.denom before :=
    total_nonneg fun d hd => h d (List.mem_append_left _ hd)
  have hbehind : 0 ≤ total c.denom behind :=
    total_nonneg fun d hd => h d (List.mem_append_right _ (List.mem_cons_of_mem c hd))
  rw [total_append, total_cons, if_pos rfl]
  omega

/-- Coins of zero do not count. -/
theorem total_filter_pos (denom : String) {coins : List Coin} (h : ∀ c ∈ coins, 0 ≤ c.amount) :
    total denom (coins.filter fun c => 0 < c.amount) = total denom coins := by
  induction coins with
  | nil => rfl
  | cons c rest ih =>
      have hc := h c List.mem_cons_self
      have hrest := ih fun x hx => h x (List.mem_cons_of_mem c hx)
      by_cases hpos : 0 < c.amount
      · simp only [hpos, decide_true, List.filter_cons_of_pos, total_cons, hrest]
      · have hzero : c.amount = 0 := by omega
        simp only [hzero, Int.lt_irrefl, decide_false, Bool.false_eq_true, not_false_eq_true,
          List.filter_cons_of_neg, total_cons, ite_self, Int.zero_add, hrest]

end Coin

end MarketMaker

/-! Tables: values kept under distinct keys, in the order in which the keys first came. `get?_put`
and `get?_erase` say what each change does to every key. -/

namespace MarketMaker

/-- Values under distinct keys. -/
structure Table (κ α : Type) where
  entries : List (κ × α)
  nodup : (entries.map Prod.fst).Nodup
  deriving DecidableEq

namespace Table

variable {κ α : Type} [DecidableEq κ]

def empty : Table κ α := ⟨[], List.nodup_nil⟩

def keys (t : Table κ α) : List κ := t.entries.map Prod.fst

def size (t : Table κ α) : Nat := t.entries.length

/-! ### Entry lists -/

def find (key : κ) : List (κ × α) → Option α
  | [] => none
  | (k, v) :: rest => if k = key then some v else find key rest

/-- Replaces the value of a key where it stands, or adds the key at the end. -/
def replace (key : κ) (value : α) : List (κ × α) → List (κ × α)
  | [] => [(key, value)]
  | (k, v) :: rest => if k = key then (key, value) :: rest else (k, v) :: replace key value rest

theorem mem_keys_replace {key k : κ} {value : α} {entries : List (κ × α)} :
    k ∈ (replace key value entries).map Prod.fst ↔ k = key ∨ k ∈ entries.map Prod.fst := by
  induction entries with
  | nil => simp [replace]
  | cons e rest ih =>
    simp only [replace]
    split
    · rename_i h
      simp [h]
    · simp only [List.map_cons, List.mem_cons, ih]
      grind

theorem keys_replace_of_not_mem {key : κ} {value : α} {entries : List (κ × α)}
    (h : key ∉ entries.map Prod.fst) :
    (replace key value entries).map Prod.fst = entries.map Prod.fst ++ [key] := by
  induction entries with
  | nil => rfl
  | cons e rest ih =>
    rw [List.map_cons, List.mem_cons, not_or] at h
    rw [replace, if_neg (Ne.symm h.1), List.map_cons, List.map_cons, ih h.2, List.cons_append]

theorem nodup_replace {key : κ} {value : α} {entries : List (κ × α)}
    (h : (entries.map Prod.fst).Nodup) : ((replace key value entries).map Prod.fst).Nodup := by
  induction entries with
  | nil => simp [replace]
  | cons e rest ih =>
    simp only [replace]
    split
    · rename_i he
      simpa [he] using h
    · rename_i he
      simp only [List.map_cons, List.nodup_cons] at h ⊢
      exact ⟨fun hm => (mem_keys_replace.1 hm).elim he h.1, ih h.2⟩

theorem find_replace {key k : κ} {value : α} {entries : List (κ × α)} :
    find k (replace key value entries) = if key = k then some value else find k entries := by
  induction entries with
  | nil => simp [replace, find]
  | cons e rest ih =>
    simp only [replace]
    split
    · rename_i he
      by_cases hk : key = k <;> simp [find, he, hk]
    · rename_i he
      simp only [find, ih]
      by_cases hk : key = k
      · subst hk
        simp [he]
      · simp [hk]

theorem find_filter_ne {key k : κ} {entries : List (κ × α)} :
    find k (entries.filter fun e => e.1 ≠ key) = if key = k then none else find k entries := by
  induction entries with
  | nil => simp [find]
  | cons e rest ih =>
    by_cases he : e.1 = key
    · simp only [List.filter_cons, he, ne_eq, not_true_eq_false, decide_false,
        Bool.false_eq_true, ite_false, find, ih]
      by_cases hk : key = k <;> simp [hk]
    · simp only [List.filter_cons, he, ne_eq, not_false_eq_true, decide_true, ite_true, find, ih]
      by_cases hk : key = k
      · subst hk
        simp [he]
      · simp [hk]

theorem find_eq_none_iff {key : κ} {entries : List (κ × α)} :
    find key entries = none ↔ key ∉ entries.map Prod.fst := by
  induction entries with
  | nil => simp [find]
  | cons e rest ih =>
    simp only [find, List.map_cons, List.mem_cons]
    split <;> grind

/-! ### Operations -/

def get? (t : Table κ α) (key : κ) : Option α := find key t.entries

def contains (t : Table κ α) (key : κ) : Bool := (t.get? key).isSome

def put (t : Table κ α) (key : κ) (value : α) : Table κ α :=
  ⟨replace key value t.entries, nodup_replace t.nodup⟩

def erase (t : Table κ α) (key : κ) : Table κ α :=
  ⟨t.entries.filter fun e => e.1 ≠ key, t.nodup.sublist (List.filter_sublist.map _)⟩

/-- The table of a list of entries; a later entry replaces an earlier one of its key. -/
def ofList (entries : List (κ × α)) : Table κ α :=
  entries.foldl (fun t e => t.put e.1 e.2) empty

theorem get?_put {t : Table κ α} {key k : κ} {value : α} :
    (t.put key value).get? k = if key = k then some value else t.get? k := find_replace

theorem get?_erase {t : Table κ α} {key k : κ} :
    (t.erase key).get? k = if key = k then none else t.get? k := find_filter_ne

theorem get?_eq_none_iff {t : Table κ α} {key : κ} : t.get? key = none ↔ key ∉ t.keys :=
  find_eq_none_iff

theorem keys_put_of_none {t : Table κ α} {key : κ} (h : t.get? key = none) (value : α) :
    (t.put key value).keys = t.keys ++ [key] := keys_replace_of_not_mem (get?_eq_none_iff.1 h)

theorem keys_erase {t : Table κ α} {key : κ} :
    (t.erase key).keys = t.keys.filter fun k => k ≠ key := by
  simp only [keys, erase, List.filter_map, Function.comp_def]

theorem contains_iff_mem_keys {t : Table κ α} {key : κ} : t.contains key = true ↔ key ∈ t.keys := by
  rw [contains, Option.isSome_iff_ne_none, ne_eq, get?_eq_none_iff, Decidable.not_not]

end Table

end MarketMaker

import MarketMaker.Model.Basic
import MarketMaker.Proofs.Json.RoundTrip
import MarketMaker.Proofs.Ratio.Text
import MarketMaker.Proofs.Reading

/-! # Models that give back what they write

A model is faithful to a class of values when it admits these and no others, and reads each of them
back from what it writes of it. The models of the parts make the model of the whole. -/

namespace MarketMaker

namespace Model

variable {α : Type} {m : Model α} {Valid : α → Prop} {nesting : Nat}

structure Faithful (m : Model α) (Valid : α → Prop) (nesting : Nat) : Prop where
  valid : ∀ {v : Json} {a : α}, m.read v = .accepted a → Valid a
  read_write : ∀ {a : α}, Valid a → m.read (m.write a) = .accepted a
  exact : ∀ {a : α}, Valid a → (m.write a).Exact nesting

namespace Faithful

open Reading

variable {name : String} {fields : Fields} {a default : α}

theorem valid_of_required (h : m.Faithful Valid nesting)
    (hread : required name m.read fields = accepted a) : Valid a := by
  obtain ⟨v, -, hv⟩ := required_eq_accepted.1 hread
  exact h.valid hv

theorem valid_of_optional (h : m.Faithful Valid nesting) (hdefault : Valid default)
    (hread : optional name default m.read fields = accepted a) : Valid a := by
  rcases optional_eq_accepted.1 hread with ⟨v, -, hv⟩ | ⟨-, rfl⟩
  · exact h.valid hv
  · exact hdefault

theorem required_write (h : m.Faithful Valid nesting) (ha : Valid a)
    (hfield : Json.lookup name fields = some (m.write a)) :
    required name m.read fields = accepted a :=
  required_eq_accepted.2 ⟨_, hfield, h.read_write ha⟩

theorem optional_write (h : m.Faithful Valid nesting) (ha : Valid a)
    (hfield : Json.lookup name fields = some (m.write a)) :
    optional name default m.read fields = accepted a :=
  optional_eq_accepted.2 (.inl ⟨_, hfield, h.read_write ha⟩)

theorem listOf (h : m.Faithful Valid nesting) :
    m.listOf.Faithful (fun as => ∀ a ∈ as, Valid a) (nesting + 1) where
  valid := by
    intro v as hread
    obtain ⟨items, rfl, hitems⟩ := list_eq_accepted.1 hread
    induction hitems with
    | nil =>
        intro a ha
        cases ha
    | cons hv hrest ih =>
        have hmore := ih (list_eq_accepted.2 ⟨_, rfl, hrest⟩)
        exact List.forall_mem_cons.2 ⟨h.valid hv, hmore⟩
  read_write := by
    intro as has
    refine list_eq_accepted.2 ⟨_, rfl, ?_⟩
    induction as with
    | nil => exact .nil
    | cons a rest ih =>
        obtain ⟨ha, hrest⟩ := List.forall_mem_cons.1 has
        exact .cons (h.read_write ha) (ih hrest)
  exact := by
    intro as has
    refine .list fun v hv => ?_
    obtain ⟨a, ha, rfl⟩ := List.mem_map.1 hv
    exact h.exact (has a ha)

/-- A model of objects is faithful when the reading and writing of their fields is. -/
theorem object {otherwise : ProblemKind} {read : Fields → Reading α} {write : α → Fields}
    (valid : ∀ {fields a}, read fields = accepted a → Valid a)
    (read_write : ∀ {a}, Valid a → read (write a) = accepted a)
    (exact : ∀ {a}, Valid a → (write a).Forall fun f => f.2.Exact nesting) :
    Faithful ⟨Reading.object otherwise read, fun a => .object (write a)⟩ Valid (nesting + 1) where
  valid h := by
    obtain ⟨fields, -, hfields⟩ := object_eq_accepted.1 h
    exact valid hfields
  read_write h := read_write h
  exact h := .object (List.forall_iff_forall_mem.1 (exact h))

theorem returns [DecidableEq α] (h : m.Faithful Valid nesting) (ha : Valid a) :
    m.returns a = true := by
  rw [Model.returns, Json.parse_render (h.exact ha)]
  simp [h.read_write ha]

end Faithful

end Model

namespace Reading

/-! ## Scalars -/

theorem name_eq_accepted {v : Json} {s : String} :
    name v = accepted s ↔ text v = accepted s ∧ s ≠ "" := by
  unfold name
  rw [andThen_eq_accepted]
  constructor
  · rintro ⟨t, ht, h⟩
    split at h
    · cases h
    · cases h
      exact ⟨ht, ‹_›⟩
  · rintro ⟨ht, hne⟩
    exact ⟨s, ht, if_neg hne⟩

theorem faithful_name : Model.Faithful ⟨name, .text⟩ (· ≠ "") 0 where
  valid h := (name_eq_accepted.1 h).2
  read_write {s} h := (name_eq_accepted (v := .text s)).2 ⟨rfl, h⟩
  exact _ := .text _

structure IsIdentifier (maxLength : Nat) (allowed : Char → Bool) (s : String) : Prop where
  ne : s ≠ ""
  length : s.length ≤ maxLength
  chars : s.toList.all allowed = true

theorem identifier_eq_accepted {maxLength : Nat} {allowed : Char → Bool} {v : Json} {s : String} :
    identifier maxLength allowed v = accepted s ↔
      text v = accepted s ∧ IsIdentifier maxLength allowed s := by
  unfold identifier
  rw [andThen_eq_accepted]
  constructor
  · rintro ⟨t, ht, h⟩
    obtain ⟨htext, hne⟩ := name_eq_accepted.1 ht
    split at h
    · cases h
    next hlength =>
      split at h
      next hchars =>
        cases h
        exact ⟨htext, hne, Nat.not_lt.1 hlength, hchars⟩
      · cases h
  · rintro ⟨htext, h⟩
    refine ⟨s, name_eq_accepted.2 ⟨htext, h.ne⟩, ?_⟩
    rw [if_neg (Nat.not_lt.2 h.length), if_pos h.chars]

theorem faithful_identifier (maxLength : Nat) (allowed : Char → Bool) :
    Model.Faithful ⟨identifier maxLength allowed, .text⟩ (IsIdentifier maxLength allowed) 0 where
  valid h := (identifier_eq_accepted.1 h).2
  read_write h := identifier_eq_accepted.2 ⟨rfl, h⟩
  exact _ := .text _

def Between (least greatest n : Int) : Prop := least ≤ n ∧ n ≤ greatest

theorem isWritable_of_between {n : Int} (h : Between 0 maxAmount n) : Text.isWritable n = true := by
  obtain ⟨hle, hge⟩ := h
  have hmax : maxAmount < 10 ^ 39 := by decide
  have hpow : n.natAbs < Nat.pow 10 39 := by
    change n.natAbs < 10 ^ 39
    omega
  exact decide_eq_true (Text.lt_writeLimit hpow (by decide))

theorem faithful_bounded {least greatest : Int} (hleast : 0 ≤ least)
    (hgreatest : greatest ≤ maxAmount) :
    Model.Faithful ⟨bounded least greatest, .int⟩ (Between least greatest) 0 where
  valid := by
    intro v n h
    obtain ⟨k, -, hk⟩ := andThen_eq_accepted.1 h
    split at hk
    · cases hk
    next hle =>
      split at hk
      · cases hk
      next hge =>
        cases hk
        exact ⟨Int.not_lt.1 hle, Int.not_lt.1 hge⟩
  read_write := by
    intro n h
    change bounded least greatest (.int n) = accepted n
    refine andThen_eq_accepted.2 ⟨n, rfl, ?_⟩
    rw [if_neg (Int.not_lt.2 h.1), if_neg (Int.not_lt.2 h.2)]
  exact h := .int (isWritable_of_between ⟨Int.le_trans hleast h.1, Int.le_trans h.2 hgreatest⟩)

theorem faithful_amount : Model.Faithful ⟨amount, .int⟩ (Between 0 maxAmount) 0 where
  valid := by
    intro v n h
    have hamount := ofExcept_eq_accepted.1 h
    unfold amountOf at hamount
    split at hamount
    · obtain ⟨hle, hge, rfl⟩ := amountOfInt_eq_ok_iff.1 hamount
      exact ⟨hle, hge⟩
    · split at hamount
      · obtain ⟨hle, hge, rfl⟩ := amountOfInt_eq_ok_iff.1 hamount
        exact ⟨hle, hge⟩
      · cases hamount
    all_goals cases hamount
  read_write h := ofExcept_eq_accepted.2 (amountOfInt_eq_ok_iff.2 ⟨h.1, h.2, rfl⟩)
  exact h := .int (isWritable_of_between h)

end Reading

end MarketMaker

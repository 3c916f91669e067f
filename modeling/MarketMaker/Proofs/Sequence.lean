import MarketMaker.Chain.Basic

/-! # Steps in sequence

A sequence succeeds when each of its steps does. These equivalences take the runs of results and
actions apart, so that later proofs name the intermediate values and states. -/

namespace MarketMaker

/-! ## Results -/

theorem Result.bind_eq_ok {α β : Type} {x : Result α} {f : α → Result β} {b : β} :
    x >>= f = .ok b ↔ ∃ a, x = .ok a ∧ f a = .ok b := by
  cases x with
  | error e => simp [bind, Except.bind]
  | ok a => simp [bind, Except.bind]

theorem Result.map_eq_ok {α β : Type} {x : Result α} {f : α → β} {b : β} :
    x.map f = .ok b ↔ ∃ a, x = .ok a ∧ f a = b := by
  cases x with
  | error e => simp [Except.map]
  | ok a => simp [Except.map]

/-- A guarded result is there only where the guard lets it through. -/
theorem Result.guarded_eq_ok {α : Type} {p : Prop} [Decidable p] {cause : Fault} {x : Result α}
    {a : α} : (if p then fail cause else x) = .ok a ↔ ¬p ∧ x = .ok a := by
  by_cases h : p
  · simp [h, fail]
  · simp [h]

theorem Result.mapM_cons_eq_ok {α β : Type} {f : α → Result β} {x : α} {xs : List α}
    {ys : List β} :
    (x :: xs).mapM f = .ok ys ↔ ∃ y rest, f x = .ok y ∧ xs.mapM f = .ok rest ∧ ys = y :: rest := by
  simp only [List.mapM_cons, bind_eq_ok, pure, Except.pure, Except.ok.injEq]
  constructor
  · rintro ⟨y, hy, rest, hrest, rfl⟩
    exact ⟨y, rest, hy, hrest, rfl⟩
  · rintro ⟨y, rest, hy, hrest, rfl⟩
    exact ⟨y, hy, rest, hrest, rfl⟩

theorem Result.mapM_nil_eq_ok {α β : Type} {f : α → Result β} {ys : List β} :
    ([] : List α).mapM f = .ok ys ↔ ys = [] := by
  simp [pure, Except.pure, eq_comm]

/-- A result that is a fault of a kind. -/
def Result.Raises {α : Type} (x : Result α) (kind : FaultKind) : Prop :=
  ∃ fault, x = fail fault ∧ fault.kind = kind

theorem Result.not_raises_ok {α : Type} {a : α} {kind : FaultKind} :
    ¬Raises (.ok a : Result α) kind := by
  rintro ⟨_, h, -⟩
  cases h

/-- A sequence raises what its first step raises, or what the second raises after it. -/
theorem Result.bind_raises_iff {α β : Type} {x : Result α} {f : α → Result β} {kind : FaultKind} :
    Raises (x >>= f) kind ↔ x.Raises kind ∨ ∃ a, x = .ok a ∧ (f a).Raises kind := by
  cases x with
  | error e => simp [Raises, fail, bind, Except.bind]
  | ok a => simp [Raises, fail, bind, Except.bind]

theorem Result.guarded_raises_iff {α : Type} {p : Prop} [Decidable p] {cause : Fault}
    {x : Result α} {kind : FaultKind} :
    Raises (if p then fail cause else x) kind ↔ p ∧ cause.kind = kind ∨ ¬p ∧ x.Raises kind := by
  by_cases h : p
  · simp [h, Raises, fail]
  · simp [h]

/-! ## Actions -/

namespace Action

variable {σ α β : Type}

theorem get_bind (f : σ → Action σ β) (s : σ) : ((get : Action σ σ) >>= f) s = f s s := rfl

theorem set_bind (t : σ) (f : PUnit → Action σ β) (s : σ) :
    ((set t : Action σ PUnit) >>= f) s = f ⟨⟩ t := rfl

theorem modify_bind (g : σ → σ) (f : PUnit → Action σ β) (s : σ) :
    ((modify g : Action σ PUnit) >>= f) s = f ⟨⟩ (g s) := rfl

theorem lift_bind (x : Result α) (f : α → Action σ β) (s : σ) :
    ((liftM x : Action σ α) >>= f) s =
      match x with
      | .ok a => f a s
      | .error e => .error e s := by
  cases x <;> rfl

theorem lift_bind_eq_ok {x : Result α} {f : α → Action σ β} {s t : σ} {b : β} :
    ((liftM x : Action σ α) >>= f) s = .ok b t ↔ ∃ a, x = .ok a ∧ f a s = .ok b t := by
  rw [lift_bind]
  cases x <;> simp

theorem bind_eq_ok {x : Action σ α} {f : α → Action σ β} {s t : σ} {b : β} :
    (x >>= f) s = .ok b t ↔ ∃ a u, x s = .ok a u ∧ f a u = .ok b t := by
  simp only [bind, EStateM.bind]
  cases h : x s with
  | error e u => simp
  | ok a u =>
      constructor
      · intro h'
        exact ⟨a, u, rfl, h'⟩
      · rintro ⟨a', u', h', hf⟩
        cases h'
        exact hf

theorem lift_eq_ok {x : Result α} {s t : σ} {a : α} :
    (liftM x : Action σ α) s = .ok a t ↔ x = .ok a ∧ t = s := by
  cases x with
  | error e =>
      constructor
      · intro h
        cases h
      · rintro ⟨h, -⟩
        cases h
  | ok b =>
      constructor
      · intro h
        cases h
        exact ⟨rfl, rfl⟩
      · rintro ⟨h, rfl⟩
        cases h
        rfl

theorem get_eq_ok {s t a : σ} : (get : Action σ σ) s = .ok a t ↔ a = s ∧ t = s := by
  change EStateM.Result.ok s s = .ok a t ↔ _
  rw [EStateM.Result.ok.injEq, eq_comm (a := s), eq_comm (a := s)]

theorem set_eq_ok {s t u : σ} {a : PUnit} : (set u : Action σ PUnit) s = .ok a t ↔ t = u := by
  change EStateM.Result.ok PUnit.unit u = .ok a t ↔ _
  simp only [EStateM.Result.ok.injEq, true_and, eq_comm]

theorem modify_eq_ok {f : σ → σ} {s t : σ} {a : PUnit} :
    (modify f : Action σ PUnit) s = .ok a t ↔ t = f s := by
  change EStateM.Result.ok PUnit.unit (f s) = .ok a t ↔ _
  simp only [EStateM.Result.ok.injEq, true_and, eq_comm]

theorem pure_eq_ok {s t : σ} {a b : α} : (pure a : Action σ α) s = .ok b t ↔ b = a ∧ t = s := by
  change EStateM.Result.ok a s = .ok b t ↔ _
  rw [EStateM.Result.ok.injEq, eq_comm (a := a), eq_comm (a := s)]

theorem bind_pure_eq_ok {x : Action σ α} {g : α → β} {s t : σ} {b : β} :
    (x >>= fun a => (pure (g a) : Action σ β)) s = .ok b t ↔ ∃ a, x s = .ok a t ∧ b = g a := by
  simp only [bind_eq_ok, pure_eq_ok]
  constructor
  · rintro ⟨a, u, h, rfl, rfl⟩
    exact ⟨a, h, rfl⟩
  · rintro ⟨a, h, rfl⟩
    exact ⟨a, t, h, rfl, rfl⟩

def succeeds (x : Action σ α) (s : σ) : Bool :=
  match x s with
  | .ok .. => true
  | .error .. => false

theorem succeeds_of_ok {x : Action σ α} {s t : σ} {a : α} (h : x s = .ok a t) :
    x.succeeds s = true := by
  rw [succeeds, h]

theorem succeeds_of_error {x : Action σ α} {s t : σ} {e : Failure} (h : x s = .error e t) :
    x.succeeds s = false := by
  rw [succeeds, h]

theorem exists_ok {x : Action σ α} {s : σ} (h : x.succeeds s = true) :
    ∃ a t, x s = .ok a t := by
  cases hresult : x s with
  | ok a t => exact ⟨a, t, rfl⟩
  | error e t => rw [succeeds_of_error hresult] at h; cases h

theorem exists_error {x : Action σ α} {s : σ} (h : x.succeeds s = false) :
    ∃ e t, x s = .error e t := by
  cases hresult : x s with
  | ok a t => rw [succeeds_of_ok hresult] at h; cases h
  | error e t => exact ⟨e, t, rfl⟩

/-- The state that an action leaves, whether it fails or not. -/
def left (x : Action σ α) (s : σ) : σ :=
  match x s with
  | .ok _ t => t
  | .error _ t => t

/-- What both parts of a sequence leave as it was is left as it was. -/
theorem left_bind_eq {γ : Type} {x : Action σ α} {f : α → Action σ β} {g : σ → γ} {s : σ}
    (hx : g (x.left s) = g s) (hf : ∀ a t, g ((f a).left t) = g t) :
    g ((x >>= f).left s) = g s := by
  unfold left at hx ⊢
  simp only [bind, EStateM.bind]
  cases h : x s with
  | error e t =>
      rw [h] at hx
      exact hx
  | ok a t =>
      rw [h] at hx
      exact (hf a t).trans hx

end Action

/-! ## Actions that fail before they write -/

/-- An action that leaves the state as it was where it fails. -/
def Action.KeepsOnError {σ α : Type} (x : Action σ α) : Prop :=
  ∀ s e t, x s = .error e t → t = s

namespace Action.KeepsOnError

variable {σ α β : Type}

theorem lift (x : Result α) : KeepsOnError (liftM x : Action σ α) := by
  intro s e t h
  cases x with
  | ok a => cases h
  | error cause =>
      cases h
      rfl

/-- What is read changes nothing. -/
theorem get_bind {f : σ → Action σ β} (hf : ∀ s, KeepsOnError (f s)) :
    KeepsOnError ((MonadState.get : Action σ σ) >>= f) := fun s e t h => hf s s e t h

/-- A check changes nothing, whether it passes or not. -/
theorem lift_bind {x : Result α} {f : α → Action σ β} (hf : ∀ a, KeepsOnError (f a)) :
    KeepsOnError ((liftM x : Action σ α) >>= f) := by
  intro s e t h
  rw [Action.lift_bind] at h
  cases x with
  | ok a => exact hf a s e t h
  | error cause =>
      cases h
      rfl

/-- What cannot fail may write, after a step that fails before it writes. -/
theorem bind {x : Action σ α} {f : α → Action σ β} (hx : KeepsOnError x)
    (hf : ∀ a s e t, f a s ≠ .error e t) : KeepsOnError (x >>= f) := by
  intro s e t h
  simp only [Bind.bind, EStateM.bind] at h
  cases hfirst : x s with
  | ok a s₁ =>
      rw [hfirst] at h
      exact absurd h (hf a s₁ e t)
  | error cause s₁ =>
      rw [hfirst] at h
      cases h
      exact hx s e t hfirst

theorem bind_pure {x : Action σ α} (hx : KeepsOnError x) (g : α → β) :
    KeepsOnError (x >>= fun a => (pure (g a) : Action σ β)) :=
  hx.bind fun _ _ _ _ h => nomatch h

end Action.KeepsOnError

/-! ## What operations keep -/

theorem Provisions.save_eq_ok {t t' : Provisions} {id : String} {p : Provision} :
    t.save id p = .ok t' ↔ t.get? id = none ∧ t' = t.put id p := by
  rw [Provisions.save, Table.contains]
  cases t.get? id with
  | none => simp [eq_comm]
  | some q => simp [fail]

namespace State

theorem keepPool_bind {β : Type} (pool : Pool) (f : Unit → Action State β) (s : State) :
    (keepPool pool >>= f) s = f () (s.savePool pool) := rfl

/-- A record may be kept where nothing fails after it. -/
theorem keepsOnError_keepPool {α : Type} (pool : Pool) (a : α) :
    Action.KeepsOnError (keepPool pool >>= fun _ => (pure a : Action State α)) :=
  fun _ _ _ h => nomatch h

theorem keepProvision_eq_ok {id : String} {p : Provision} {s t : State} {u : Unit} :
    keepProvision id p s = .ok u t ↔ s.provisions.get? id = none ∧
      t = { s with provisions := s.provisions.put id p } := by
  simp only [keepProvision, Action.get_bind, Action.lift_bind_eq_ok, Action.set_eq_ok,
    Provisions.save_eq_ok, and_assoc]
  constructor
  · rintro ⟨_, hfresh, rfl, rfl⟩
    exact ⟨hfresh, rfl⟩
  · rintro ⟨hfresh, rfl⟩
    exact ⟨_, hfresh, rfl, rfl⟩

theorem keepsOnError_keepProvision (id : String) (p : Provision) :
    (keepProvision id p).KeepsOnError :=
  .get_bind fun _ => .bind (.lift _) fun _ _ _ _ h => nomatch h

theorem takeProvision_bind {β : Type} (id : String) (f : Option Provision → Action State β)
    (s : State) : (takeProvision id >>= f) s =
      f (s.provisions.get? id) { s with provisions := s.provisions.erase id } := rfl

end State

theorem checkEnabled_eq_ok {enabled : Bool} {operation : String} {u : Unit} :
    checkEnabled enabled operation = .ok u ↔ enabled = true := by
  cases enabled <;> simp [checkEnabled, fail]

/-! ## Actions of a chain -/

namespace Chain

theorem withLedger_eq_ok {α : Type} {action : Action Ledger α} {c c' : Chain} {a : α} :
    withLedger action c = .ok a c' ↔ ∃ l, action c.state.ledger = .ok a l ∧
      c' = { c with state := { c.state with ledger := l } } := by
  unfold withLedger
  cases h : action c.state.ledger with
  | error e l => simp
  | ok b l =>
      constructor
      · intro h'
        cases h'
        exact ⟨l, rfl, rfl⟩
      · rintro ⟨l', h', rfl⟩
        cases h'
        rfl

theorem withState_eq_ok {α : Type} {action : Action State α} {c c' : Chain} {a : α} :
    withState action c = .ok a c' ↔ ∃ s, action c.state = .ok a s ∧ c' = { c with state := s } := by
  unfold withState
  cases h : action c.state with
  | error e s => simp
  | ok b s =>
      constructor
      · intro h'
        cases h'
        exact ⟨s, rfl, rfl⟩
      · rintro ⟨s', h', rfl⟩
        cases h'
        rfl

theorem after_eq_of_ok {α : Type} {action : Action Chain α} {c c' : Chain} {a : α}
    (h : action c = .ok a c') : after action c = c' := by
  simp only [after, h]

theorem exists_ok_after {α : Type} {action : Action Chain α} {c : Chain}
    (h : action.succeeds c = true) : ∃ a, action c = .ok a (after action c) := by
  obtain ⟨a, c', hok⟩ := Action.exists_ok h
  exact ⟨a, by rw [after_eq_of_ok hok, hok]⟩

theorem exists_error_after {α : Type} {action : Action Chain α} {c : Chain}
    (h : action.succeeds c = false) : ∃ e, action c = .error e (after action c) := by
  obtain ⟨e, c', herror⟩ := Action.exists_error h
  exact ⟨e, by rw [after, herror]⟩

/-- A sequence leaves what its second part leaves, or what its first part leaves on failing. -/
theorem after_bind {α β : Type} (x : Action Chain α) (f : α → Action Chain β) (c : Chain) :
    (∃ a c', x c = .ok a c' ∧ after (x >>= f) c = after (f a) c') ∨
      ((∃ e c', x c = .error e c') ∧ after (x >>= f) c = after x c) := by
  simp only [after, bind, EStateM.bind]
  cases h : x c with
  | ok a c' => exact .inl ⟨a, c', rfl, rfl⟩
  | error e c' => exact .inr ⟨⟨e, c', rfl⟩, rfl⟩

theorem atomically_eq_ok {α : Type} {action : Action Chain α} {c c' : Chain} {a : α} :
    atomically action c = .ok a c' ↔ action c = .ok a c' := by
  unfold atomically
  cases action c <;> simp

theorem atomically_eq_error {α : Type} {action : Action Chain α} {c c' : Chain} {e : Failure} :
    atomically action c = .error e c' ↔
      ∃ c₁, action c = .error e c₁ ∧ c' = c₁.rollback c.state := by
  unfold atomically
  cases action c with
  | ok a c₁ => simp
  | error f c₁ =>
      constructor
      · intro h
        cases h
        exact ⟨c₁, rfl, rfl⟩
      · rintro ⟨c₂, h, rfl⟩
        cases h
        rfl

/-- What an action leaves that is undone if it fails. -/
theorem after_atomically {α : Type} (action : Action Chain α) (c : Chain) :
    (∃ a c', action c = .ok a c' ∧ after (atomically action) c = c') ∨
      ((∃ e c', action c = .error e c') ∧
        after (atomically action) c = (after action c).rollback c.state) := by
  simp only [after, atomically]
  cases h : action c with
  | ok a c' => exact .inl ⟨a, c', rfl, rfl⟩
  | error e c' => exact .inr ⟨⟨e, c', rfl⟩, rfl⟩

end Chain

end MarketMaker

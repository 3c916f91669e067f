import MarketMaker.Proofs.Chain.Ending

/-! # Half-swaps are confirmed once

The provisions that wait are those of the queue, in its order. A half-swap that has been run has
used up its provision, and no later transaction has its name: to run it again changes nothing. -/

namespace MarketMaker.Chain

variable {c c' : Chain}

/-! ## The queue and the provisions -/

/-- The provisions that wait are those of the queue, and the queue is empty where half-swaps are run
at once. -/
structure Queued (c : Chain) : Prop where
  keys : c.state.provisions.keys = c.pending.map HalfSwap.provision
  auto : c.autoConfirm = true → c.pending = []

theorem queued_empty (config : Config) (autoConfirm : Bool) :
    (empty config autoConfirm).Queued := ⟨rfl, fun _ => rfl⟩

theorem Queued.get?_eq_none_iff (hq : c.Queued) {id : String} :
    c.state.provisions.get? id = none ↔ id ∉ c.pending.map HalfSwap.provision := by
  rw [Table.get?_eq_none_iff, hq.keys]

theorem map_erase_of_nodup {pending : List HalfSwap} {h : HalfSwap} (hh : h ∈ pending)
    (hn : (pending.map HalfSwap.provision).Nodup) :
    (pending.erase h).map HalfSwap.provision =
      (pending.map HalfSwap.provision).filter fun id => id ≠ h.provision := by
  induction pending with
  | nil => cases hh
  | cons x rest ih =>
      rw [List.map_cons, List.nodup_cons] at hn
      by_cases hx : x = h
      · subst hx
        have hother : ∀ id ∈ rest.map HalfSwap.provision, id ≠ x.provision := by
          intro id hid he
          exact hn.1 (he ▸ hid)
        simpa using (List.filter_eq_self.2 fun id hid => decide_eq_true (hother id hid)).symm
      · have hrest : h ∈ rest := (List.mem_cons.1 hh).resolve_left (Ne.symm hx)
        have hne : x.provision ≠ h.provision := by
          intro he
          exact hn.1 (he ▸ List.mem_map_of_mem hrest)
        simp [hx, hne, ih hrest hn.2]

theorem queued_after (hq : c.Queued) {e : Event} (hs : c.Serves e) :
    (after (perform e) c).Queued := by
  have hauto := (sameSettings_after e c).autoConfirm
  cases turn_after e c with
  | kept provisions pending count =>
      rcases pending with hsame | ⟨hat, h, herased⟩
      · exact ⟨by rw [provisions, hsame, hq.keys], fun ha => hsame.trans (hq.auto (hauto ▸ ha))⟩
      · have hnone : (after (perform e) c).pending = [] := by rw [herased, hq.auto hat]; rfl
        exact ⟨by rw [provisions, hq.keys, hq.auto hat, hnone], fun _ => hnone⟩
  | joined manual named fresh provisions pending count =>
      refine ⟨?_, fun ha => ?_⟩
      · rw [provisions, pending, Table.keys_put_of_none fresh, hq.keys, List.map_append,
          List.map_singleton]
      · rw [hauto, manual] at ha
        cases ha
  | left provisions pending count =>
      rename_i h
      by_cases hh : h ∈ c.pending
      · have hn : (c.pending.map HalfSwap.provision).Nodup := hq.keys ▸ c.state.provisions.nodup
        refine ⟨?_, fun ha => ?_⟩
        · rw [provisions, pending, Table.keys_erase, hq.keys, map_erase_of_nodup hh hn]
        · rw [hq.auto (hauto ▸ ha)] at hh
          cases hh
      · have hgone := hs.resolve_left hh
        rw [Table.erase_of_none hgone] at provisions
        rw [List.erase_of_not_mem hh] at pending
        exact ⟨by rw [provisions, pending, hq.keys], fun ha => pending.trans (hq.auto (hauto ▸ ha))⟩

theorem queued_run {events : List Event} (hq : c.Queued) (hs : c.ServedRun events) :
    (run events c).Queued := by
  induction events generalizing c with
  | nil => exact hq
  | cons e rest ih => exact ih (queued_after hq hs.1) hs.2

theorem servedRun_append {events later : List Event} :
    c.ServedRun (events ++ later) ↔ c.ServedRun events ∧ (run events c).ServedRun later := by
  induction events generalizing c with
  | nil => exact ⟨fun h => ⟨trivial, h⟩, And.right⟩
  | cons e rest ih => rw [List.cons_append, ServedRun, ServedRun, ih, run_cons, and_assoc]

/-- Where half-swaps are run at once, no event is left to serve. -/
theorem servedRun_of_auto (hq : c.Queued) (hauto : c.autoConfirm = true) (events : List Event) :
    c.ServedRun events := by
  induction events generalizing c with
  | nil => trivial
  | cons e rest ih =>
      have hserves : c.Serves e := by
        cases e with
        | runDeferred h =>
            right
            rw [hq.get?_eq_none_iff, hq.auto hauto]
            exact List.not_mem_nil
        | execute => trivial
        | fund => trivial
        | addPool => trivial
      refine ⟨hserves, ih (queued_after hq hserves) ?_⟩
      rw [(sameSettings_after e c).autoConfirm, hauto]

theorem Reachable.queued (h : c.Reachable) (hauto : c.autoConfirm = true) : c.Queued := by
  induction h with
  | empty config autoConfirm => exact queued_empty config autoConfirm
  | step reachable valid ih =>
      rename_i c e
      have hbefore : c.autoConfirm = true := (sameSettings_after e c).autoConfirm ▸ hauto
      have hq := ih hbefore
      exact queued_after hq (servedRun_of_auto hq hbefore [e]).1

theorem Reachable.sound (h : c.Reachable) (hauto : c.autoConfirm = true)
    (hcollector : c.state.config.feeCollector ≠ managerAddress) : c.Sound := by
  have hq := h.queued hauto
  have hempty := hq.auto hauto
  refine ⟨hcollector, h.regular.registry, ?_, fun _ => hempty⟩
  rw [hempty]
  refine .of_users fun id p hp => ?_
  have hnone : c.state.provisions.get? id = none := by
    rw [hq.get?_eq_none_iff, hempty]
    exact List.not_mem_nil
  rw [hnone] at hp
  cases hp

/-! ## Provisions that are used up -/

/-- The name of an earlier transaction under which no provision waits. -/
structure Spent (c : Chain) (id : String) : Prop where
  earlier : ∃ k ≤ c.transactions, id = "tx-" ++ toString k
  gone : c.state.provisions.get? id = none

/-- What is used up stays so: no later transaction has its name. -/
theorem spent_after {id : String} (h : c.Spent id) (e : Event) :
    (after (perform e) c).Spent id := by
  obtain ⟨⟨k, hk, hname⟩, hgone⟩ := h
  cases turn_after e c with
  | kept provisions pending count =>
      exact ⟨⟨k, Nat.le_trans hk count, hname⟩, by rw [provisions, hgone]⟩
  | joined manual named fresh provisions pending count =>
      refine ⟨⟨k, by omega, hname⟩, ?_⟩
      rw [provisions, Table.get?_put, named, hname, if_neg, ← hname, hgone]
      intro he
      have hsame := transactionName_inj he
      omega
  | left provisions pending count =>
      refine ⟨⟨k, by omega, hname⟩, ?_⟩
      rw [provisions, Table.get?_erase]
      split
      · rfl
      · exact hgone

theorem spent_run {id : String} (h : c.Spent id) (events : List Event) :
    (run events c).Spent id :=
  run_invariant (fun c => c.Spent id) (fun hc (_ : True) => spent_after hc _)
    (fun _ _ => trivial) h

theorem named_run (config : Config) (autoConfirm : Bool) (events : List Event) :
    NamedUpTo (run events (empty config autoConfirm)).state.provisions
      (run events (empty config autoConfirm)).transactions :=
  run_invariant (fun c => NamedUpTo c.state.provisions c.transactions)
    (fun hc (_ : True) => named_after hc _) (fun _ _ => trivial) (fun _ _ hp => nomatch hp)

/-- The run of a half-swap uses up its provision, whether it succeeds or not. -/
theorem spent_after_runDeferred (hn : NamedUpTo c.state.provisions c.transactions)
    (hq : c.Queued) {h : HalfSwap} (hh : h ∈ c.pending) :
    (after (perform (.runDeferred h)) c).Spent h.provision := by
  have hkey : h.provision ∈ c.state.provisions.keys := hq.keys ▸ List.mem_map_of_mem hh
  have hdropped := dropped_after_runDeferred h c
  rw [after_perform_runDeferred]
  cases hp : c.state.provisions.get? h.provision with
  | none => exact absurd hkey (Table.get?_eq_none_iff.1 hp)
  | some p =>
      refine ⟨?_, ?_⟩
      · rw [hdropped.terms.transactions]
        exact hn h.provision p hp
      · rw [hdropped.provisions, Table.get?_erase, if_pos rfl]

/-! ## Running a half-swap again -/

/-- A chain with the books, the ledger and the count of positions of another is the other. -/
theorem SameBooks.eq (h : c.SameBooks c') (hledger : c'.state.ledger = c.state.ledger)
    (hcount : c'.positions = c.positions) : c' = c := by
  obtain ⟨⟨config, registry, provisions, ledger⟩, autoConfirm, pending, transactions,
    positions⟩ := c
  obtain ⟨hconfig, hregistry, hprovisions, hauto, hpending, htransactions⟩ := h
  obtain ⟨⟨config', registry', provisions', ledger'⟩, autoConfirm', pending', transactions',
    positions'⟩ := c'
  simp_all

/-- A half-swap without a provision fails, and changes nothing. -/
theorem runDeferred_of_gone {h : HalfSwap} (hgone : c.state.provisions.get? h.provision = none)
    (hh : h ∉ c.pending) :
    runDeferred h c = .error (.fault (.noPendingProvision h.provision)) c := by
  have hqueue : { c with pending := c.pending.erase h } = c := by rw [List.erase_of_not_mem hh]
  obtain ⟨success, c₁, htry⟩ := exists_tryTrade h c
  have hbooks : c₁.state.provisions = c.state.provisions ∧ c.SameBooks (c₁.rollback c.state) := by
    cases attempted_of_tryTrade htry with
    | traded went traded =>
        have hb := traded.books
        exact ⟨hb.provisions, hb.config, rfl, hb.provisions, hb.autoConfirm, hb.pending,
          hb.transactions⟩
    | undone failed books ledger =>
        exact ⟨books.provisions, books.config, rfl, books.provisions, books.autoConfirm,
          books.pending, books.transactions⟩
  have hconfirm : confirm ⟨h.provision, success⟩ c₁ =
      .error (.fault (.noPendingProvision h.provision)) c₁ := by
    rw [confirm_eq, Confirmation.run_eq]
    simp only [hbooks.1, hgone]
  have hrun : runHalfSwap h c = .error (.fault (.noPendingProvision h.provision)) c₁ := by
    rw [runHalfSwap, Action.modify_bind, hqueue]
    simp only [bind, EStateM.bind, htry, hconfirm]
  have hcount : c₁.positions = c.positions := count_of_tryTrade htry
  have hsame : c₁.rollback c.state = c := hbooks.2.eq rfl hcount
  rw [runDeferred, atomically, hrun]
  simp only [hsame]

/-- Every half-swap is confirmed exactly once. Where half-swaps are run at once, no provision waits
after any event. Where they wait, the provisions are those of the queue, each once; and a half-swap
that has been run has no provision any more: to run it again fails and changes nothing. -/
theorem confirmed_once (config : Config) (events : List Event) :
    ((run events (empty config true)).state.provisions.keys = [] ∧
        ∀ h, runDeferred h (run events (empty config true)) =
          .error (.fault (.noPendingProvision h.provision)) (run events (empty config true))) ∧
      ((empty config false).ServedRun events →
        (run events (empty config false)).state.provisions.keys =
            (run events (empty config false)).pending.map HalfSwap.provision ∧
          ((run events (empty config false)).pending.map HalfSwap.provision).Nodup ∧
          ∀ before h later, events = before ++ .runDeferred h :: later →
            h ∈ (run before (empty config false)).pending →
              runDeferred h (run events (empty config false)) =
                .error (.fault (.noPendingProvision h.provision))
                  (run events (empty config false))) := by
  constructor
  · have hserved := servedRun_of_auto (queued_empty config true) rfl events
    have hq := queued_run (queued_empty config true) hserved
    have hauto : (run events (empty config true)).autoConfirm = true :=
      run_invariant (fun c => c.autoConfirm = true)
        (fun {c e} hc (_ : True) => (sameSettings_after e c).autoConfirm.trans hc)
        (fun _ _ => trivial) rfl
    have hpending := hq.auto hauto
    refine ⟨by rw [hq.keys, hpending]; rfl, fun h => runDeferred_of_gone ?_ ?_⟩
    · rw [hq.get?_eq_none_iff, hpending]
      exact List.not_mem_nil
    · rw [hpending]
      exact List.not_mem_nil
  · intro hserved
    have hq := queued_run (queued_empty config false) hserved
    refine ⟨hq.keys, hq.keys ▸ Table.nodup _, ?_⟩
    rintro before h later rfl hh
    obtain ⟨hbefore, -⟩ := servedRun_append.1 hserved
    have hqueued := queued_run (queued_empty config false) hbefore
    have hspent := spent_after_runDeferred (named_run config false before) hqueued hh
    have hgone := (spent_run hspent later).gone
    rw [run_append, run_cons]
    refine runDeferred_of_gone hgone fun hmem => ?_
    rw [run_append, run_cons] at hq
    exact hq.get?_eq_none_iff.1 hgone (List.mem_map_of_mem hmem)

/-- The deposit of `driftedRun` cannot be completed. Its half-swap is used up all the same. -/
theorem confirmed_once_driftedSwap :
    (empty {} false).ServedRun (driftedRun ++ [.runDeferred driftedSwap]) ∧
      driftedSwap ∈ (run driftedRun (empty {} false)).pending ∧
        runDeferred driftedSwap
            (run (driftedRun ++ [.runDeferred driftedSwap]) (empty {} false)) =
          .error (.fault (.noPendingProvision "tx-1"))
            (run (driftedRun ++ [.runDeferred driftedSwap]) (empty {} false)) := by
  have hserved : (empty {} false).ServedRun (driftedRun ++ [.runDeferred driftedSwap]) := by
    decide +kernel
  have hwaits : driftedSwap ∈ (run driftedRun (empty {} false)).pending := by decide +kernel
  have honce := (confirmed_once {} (driftedRun ++ [.runDeferred driftedSwap])).2 hserved
  exact ⟨hserved, hwaits, honce.2.2 driftedRun driftedSwap [] rfl hwaits⟩

end MarketMaker.Chain

import Mathlib.Data.List.Nodup
import MarketMaker.Chain.Basic
import MarketMaker.Proofs.Operation.SingleSided

/-! # The queue of half-swaps

Every half-swap that waits has a provision of its own: it joins the queue together with it, and
leaves the queue together with it. -/

namespace MarketMaker.Chain

/-- Every waiting half-swap has a provision of its own, which it matches. -/
structure Paired (provisions : Provisions) (pending : List HalfSwap) : Prop where
  waiting : ∀ h ∈ pending, ∃ p, provisions.get? h.provision = some p ∧ h.Matches p
  distinct : (pending.map HalfSwap.provision).Nodup

namespace Paired

variable {provisions : Provisions} {pending : List HalfSwap}

theorem nil (provisions : Provisions) : Paired provisions [] :=
  ⟨fun _ hh => (nomatch hh), List.nodup_nil⟩

theorem erase_pending (hq : Paired provisions pending) (h : HalfSwap) :
    Paired provisions (pending.erase h) where
  waiting x hx := hq.waiting x (List.mem_of_mem_erase hx)
  distinct := hq.distinct.sublist (List.erase_sublist.map _)

/-- A half-swap that waits has the provision of no other. -/
theorem provision_ne (hq : Paired provisions pending) {h x : HalfSwap} (hh : h ∈ pending)
    (hx : x ∈ pending.erase h) : h.provision ≠ x.provision := by
  intro he
  have hmem := List.mem_of_mem_erase hx
  have hsame : x = h := List.inj_on_of_nodup_map hq.distinct hmem hh he.symm
  rw [hsame] at hx
  exact (List.Nodup.of_map _ hq.distinct).not_mem_erase hx

/-- A provision can be taken up that no other waiting half-swap has. -/
theorem erase_of_ne (hq : Paired provisions pending) {h : HalfSwap}
    (hne : ∀ x ∈ pending.erase h, h.provision ≠ x.provision) :
    Paired (provisions.erase h.provision) (pending.erase h) where
  waiting := by
    intro x hx
    obtain ⟨p, hp, hm⟩ := hq.waiting x (List.mem_of_mem_erase hx)
    exact ⟨p, by rw [Table.get?_erase, if_neg (hne x hx), hp], hm⟩
  distinct := (hq.erase_pending h).distinct

/-- A half-swap leaves the queue together with its provision. -/
theorem erase (hq : Paired provisions pending) {h : HalfSwap} (hh : h ∈ pending) :
    Paired (provisions.erase h.provision) (pending.erase h) :=
  hq.erase_of_ne fun _ hx => hq.provision_ne hh hx

/-- A new half-swap joins the queue together with its provision. -/
theorem append (hq : Paired provisions pending) {h : HalfSwap} {p : Provision}
    (hfresh : provisions.get? h.provision = none) (hm : h.Matches p) :
    Paired (provisions.put h.provision p) (pending ++ [h]) where
  waiting := by
    intro x hx
    rcases List.mem_append.1 hx with hx | hx
    · obtain ⟨y, hy, hmy⟩ := hq.waiting x hx
      have hne : h.provision ≠ x.provision := by
        intro he
        rw [he, hy] at hfresh
        cases hfresh
      exact ⟨y, by rw [Table.get?_put, if_neg hne, hy], hmy⟩
    · rw [List.mem_singleton.1 hx]
      exact ⟨p, by rw [Table.get?_put, if_pos rfl], hm⟩
  distinct := by
    rw [List.map_append, List.map_singleton, List.nodup_append]
    refine ⟨hq.distinct, List.nodup_singleton _, ?_⟩
    intro id hid id' hid' he
    obtain ⟨x, hx, rfl⟩ := List.mem_map.1 hid
    obtain ⟨y, hy, -⟩ := hq.waiting x hx
    rw [← List.mem_singleton.1 hid', ← he, hy] at hfresh
    cases hfresh

end Paired

end MarketMaker.Chain

import Mathlib.Logic.Relation
import Mathlib.Order.WellFounded
import Mathlib.Tactic.Common

/-! Steps that use something up come to rest, whichever of them are taken. -/
namespace Ledger
variable {σ : Type*}

def Resting (r : σ → σ → Prop) (s : σ) : Prop :=
  ∀ t, ¬r s t

/-- Every step from a state of `p` leads to one, and lowers the cost. -/
structure Spends (r : σ → σ → Prop) (p : σ → Prop) (cost : σ → ℕ) : Prop where
  keep : ∀ s t, p s → r s t → p t
  lt : ∀ s t, p s → r s t → cost t < cost s

namespace Spends
variable {r r' : σ → σ → Prop} {p : σ → Prop} {cost : σ → ℕ} {s : σ}

theorem mono (h : Spends r p cost) (hr : ∀ s t, r' s t → r s t) : Spends r' p cost where
  keep s t hs ht := h.keep s t hs (hr s t ht)
  lt s t hs ht := h.lt s t hs (hr s t ht)

theorem acc (h : Spends r p cost) (hs : p s) : Acc (fun t s => r s t) s := by
  induction hk : cost s using Nat.strong_induction_on generalizing s with
  | _ k ih =>
    refine ⟨_, fun t hstep => ?_⟩
    exact ih _ (hk ▸ h.lt s t hs hstep) (h.keep s t hs hstep) rfl

theorem exists_resting (h : Spends r p cost) (hs : p s) :
    ∃ t, Relation.ReflTransGen r s t ∧ Resting r t := by
  induction hk : cost s using Nat.strong_induction_on generalizing s with
  | _ k ih =>
    by_cases hrest : Resting r s
    · exact ⟨s, .refl, hrest⟩
    · obtain ⟨u, hu⟩ : ∃ u, r s u := by simpa [Resting] using hrest
      obtain ⟨t, hrun, ht⟩ := ih _ (hk ▸ h.lt s u hs hu) (h.keep s u hs hu) rfl
      exact ⟨t, .head hu hrun, ht⟩

/-- The cost is a bound for the number of steps. -/
theorem length_le (h : Spends r p cost) (hs : p s) {n : ℕ} {run : ℕ → σ} (hstart : run 0 = s)
    (hrun : ∀ i < n, r (run i) (run (i + 1))) : n ≤ cost s := by
  have hcost : ∀ i ≤ n, p (run i) ∧ i + cost (run i) ≤ cost s := by
    intro i
    induction i with
    | zero =>
      rw [hstart, Nat.zero_add]
      exact fun _ => ⟨hs, le_rfl⟩
    | succ i ih =>
      intro hi
      obtain ⟨hkept, hle⟩ := ih (by omega)
      have hlt := h.lt _ _ hkept (hrun i (by omega))
      exact ⟨h.keep _ _ hkept (hrun i (by omega)), by omega⟩
  have hle := (hcost n le_rfl).2
  omega

end Spends

end Ledger

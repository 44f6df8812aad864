import Mathlib.Data.List.Basic

/-! Labelled transition systems: what is seen of their runs, and forward simulation. -/
namespace Ledger
variable {σ τ ε : Type*}

/-- Steps labelled with what is seen of them, if anything. -/
structure LTS (σ ε : Type*) where
  init : σ → Prop
  step : σ → Option ε → σ → Prop

namespace LTS

/-- A run and what is seen of it. -/
inductive Run (A : LTS σ ε) (s : σ) : List ε → σ → Prop
  | nil : Run A s [] s
  | snoc {trace : List ε} {t u : σ} {o : Option ε} (h : Run A s trace t) (hstep : A.step t o u) :
    Run A s (trace ++ o.toList) u

/-- What can be seen of the runs from the start. -/
def Trace (A : LTS σ ε) (trace : List ε) : Prop :=
  ∃ s t, A.init s ∧ A.Run s trace t

variable {A : LTS σ ε} {C : LTS τ ε}

theorem Run.trans {s t u : σ} {xs ys : List ε} (h : A.Run s xs t) (h' : A.Run t ys u) :
    A.Run s (xs ++ ys) u := by
  induction h' with
  | nil => rwa [List.append_nil]
  | snoc _ hstep ih =>
    rw [← List.append_assoc]
    exact ih.snoc hstep

theorem Run.silent {s t u : σ} {xs : List ε} (h : A.Run s xs t) (hstep : A.step t none u) :
    A.Run s xs u := by
  simpa using h.snoc hstep

theorem Run.of_step {s t : σ} {o : Option ε} (h : A.step s o t) : A.Run s o.toList t :=
  Run.snoc .nil h

theorem Run.split {s u : σ} {xs ys : List ε} (h : A.Run s (xs ++ ys) u) :
    ∃ t, A.Run s xs t ∧ A.Run t ys u := by
  generalize htrace : xs ++ ys = trace at h
  induction h generalizing ys with
  | nil =>
    obtain ⟨rfl, rfl⟩ := List.append_eq_nil_iff.mp htrace
    exact ⟨s, .nil, .nil⟩
  | @snoc trace t u o h hstep ih =>
    cases o with
    | none =>
      rw [Option.toList_none, List.append_nil] at htrace
      obtain ⟨v, hv, hv'⟩ := ih htrace
      exact ⟨v, hv, hv'.silent hstep⟩
    | some e =>
      rcases List.eq_nil_or_concat' ys with rfl | ⟨init, last, rfl⟩
      · rw [List.append_nil] at htrace
        exact ⟨u, htrace ▸ h.snoc hstep, .nil⟩
      · rw [← List.append_assoc] at htrace
        obtain ⟨hinit, hlast⟩ := List.append_inj' htrace rfl
        obtain ⟨v, hv, hv'⟩ := ih hinit
        exact ⟨v, hv, hlast ▸ hv'.snoc hstep⟩

theorem Run.concat {s u : σ} {xs : List ε} {e : ε} (h : A.Run s (xs ++ [e]) u) :
    ∃ t t', A.Run s xs t ∧ A.step t (some e) t' ∧ A.Run t' [] u := by
  generalize htrace : xs ++ [e] = trace at h
  induction h with
  | nil => cases (List.append_eq_nil_iff.mp htrace).2
  | @snoc trace t u o h hstep ih =>
    cases o with
    | none =>
      rw [Option.toList_none, List.append_nil] at htrace
      obtain ⟨v, v', hv, hvv', hv'⟩ := ih htrace
      exact ⟨v, v', hv, hvv', hv'.silent hstep⟩
    | some e' =>
      obtain ⟨rfl, he⟩ := List.append_inj' htrace rfl
      cases he
      exact ⟨t, u, h, hstep, .nil⟩

theorem Run.split_cons {s u : σ} {xs ys : List ε} {e : ε} (h : A.Run s (xs ++ e :: ys) u) :
    ∃ t t', A.Run s xs t ∧ A.step t (some e) t' ∧ A.Run t' ys u := by
  rw [List.append_cons] at h
  obtain ⟨v, hv, hys⟩ := h.split
  obtain ⟨t, t', hxs, hstep, hnil⟩ := hv.concat
  exact ⟨t, t', hxs, hstep, hnil.trans hys⟩

/-- A relation that holds at the start and that every step of the one keeps by a run of the other,
of which the same is seen. -/
structure Simulates (C : LTS τ ε) (A : LTS σ ε) (R : τ → σ → Prop) : Prop where
  init : ∀ s, C.init s → ∃ a, A.init a ∧ R s a
  step : ∀ s a o t, R s a → C.step s o t → ∃ b, A.Run a o.toList b ∧ R t b

theorem Simulates.run {R : τ → σ → Prop} (h : Simulates C A R) {s t : τ} {a : σ}
    {trace : List ε} (ha : R s a) (hrun : C.Run s trace t) : ∃ b, A.Run a trace b ∧ R t b := by
  induction hrun with
  | nil => exact ⟨a, .nil, ha⟩
  | snoc _ hstep ih =>
    obtain ⟨b, hab, hb⟩ := ih
    obtain ⟨c, hbc, hc⟩ := h.step _ b _ _ hb hstep
    exact ⟨c, hab.trans hbc, hc⟩

/-- What is seen of the one can be seen of the other. -/
theorem Simulates.trace {R : τ → σ → Prop} (h : Simulates C A R) {trace : List ε}
    (htrace : C.Trace trace) : A.Trace trace := by
  obtain ⟨s, t, hs, hrun⟩ := htrace
  obtain ⟨a, ha, hsa⟩ := h.init s hs
  obtain ⟨b, hab, -⟩ := h.run hsa hrun
  exact ⟨a, b, ha, hab⟩

end LTS

end Ledger

import Mathlib.Data.List.Basic
import Mathlib.Tactic

/-! Updates of a state that may fail, and may run later than they are asked for: one that runs at
once is guarded by who asks for it, one that runs later is not. -/
namespace Ledger.Deferred
variable {σ υ : Type*}

/-- The updates that wait run when the state is rendered. -/
structure Rendered (σ υ : Type*) where
  state : σ
  pending : List υ
  escaped : Bool

inductive Event (υ : Type*)
  | later (u : υ)
  | now (u : υ)
  | render

def Event.update? : Event υ → Option υ
  | later u => some u
  | now u => some u
  | render => none

def updates (events : List (Event υ)) : List υ :=
  events.filterMap Event.update?

variable (update : σ → υ → Option σ)

/-- An update runs at once only where none waits; its failure is caught, that of one that waits is
not. -/
def step (r : Rendered σ υ) : Event υ → Rendered σ υ
  | .later u => { r with pending := r.pending ++ [u] }
  | .now u =>
    match r.pending with
    | [] => { r with state := (update r.state u).getD r.state }
    | _ :: _ => { r with pending := r.pending ++ [u] }
  | .render =>
    match r.pending.foldlM update r.state with
    | some state => { r with state, pending := [] }
    | none => { r with escaped := true }

def run (s : σ) (events : List (Event υ)) : Rendered σ υ :=
  events.foldl (step update) ⟨s, [], false⟩

variable (ideal : σ → υ → σ) {s : σ}

/-- No failure escapes, and the state is what it should be after the updates that have run. -/
def Sound (s : σ) (events : List (Event υ)) (r : Rendered σ υ) : Prop :=
  r.escaped = false ∧ ∃ ran, updates events = ran ++ r.pending ∧ r.state = ran.foldl ideal s

/-- Each update succeeds with what it should do, where those before it have done so. -/
def Succeeds (s : σ) (us : List υ) : Prop :=
  ∀ before u after, us = before ++ u :: after →
    update (before.foldl ideal s) u = some (ideal (before.foldl ideal s) u)

variable {update ideal}

theorem Succeeds.of_prefix {us us' : List υ} (h : Succeeds update ideal s us) (hus : us' <+: us) :
    Succeeds update ideal s us' := by
  obtain ⟨rest, rfl⟩ := hus
  rintro before u after rfl
  exact h before u (after ++ rest) (by simp)

theorem Succeeds.of_append {us us' : List υ} (h : Succeeds update ideal s (us ++ us')) :
    Succeeds update ideal (us.foldl ideal s) us' := by
  rintro before u after rfl
  have hu := h (us ++ before) u after (by simp)
  rwa [List.foldl_append] at hu

theorem Succeeds.last {us : List υ} {u : υ} (h : Succeeds update ideal s (us ++ [u])) :
    update (us.foldl ideal s) u = some (ideal (us.foldl ideal s) u) :=
  h us u [] rfl

theorem Succeeds.foldlM {us : List υ} (h : Succeeds update ideal s us) :
    us.foldlM update s = some (us.foldl ideal s) := by
  induction us using List.reverseRecOn with
  | nil => rfl
  | append_singleton us u ih =>
    rw [List.foldlM_append, ih (h.of_prefix (List.prefix_append us [u])), List.foldl_concat]
    simp [h.last]

theorem updates_concat (events : List (Event υ)) (e : Event υ) :
    updates (events ++ [e]) = updates events ++ e.update?.toList := by
  rw [updates, List.filterMap_append]
  cases e <;> rfl

theorem run_concat (events : List (Event υ)) (e : Event υ) :
    run update s (events ++ [e]) = step update (run update s events) e := by
  rw [run, List.foldl_concat, ← run]

theorem Sound.step {events : List (Event υ)} {r : Rendered σ υ} (h : Sound ideal s events r)
    {e : Event υ} (hus : Succeeds update ideal s (updates (events ++ [e]))) :
    Sound ideal s (events ++ [e]) (step update r e) := by
  obtain ⟨hescaped, ran, hupdates, hstate⟩ := h
  rw [updates_concat, hupdates] at hus
  unfold Sound
  rw [updates_concat, hupdates]
  cases e with
  | later u => exact ⟨hescaped, ran, List.append_assoc _ _ _, hstate⟩
  | now u =>
    unfold Deferred.step
    cases hpending : r.pending with
    | nil =>
      rw [hpending, List.append_nil] at hus
      refine ⟨hescaped, ran ++ [u], by simp [Event.update?], ?_⟩
      dsimp only
      rw [hstate, hus.last, List.foldl_concat]
      rfl
    | cons v pending =>
      exact ⟨hescaped, ran, by simp [Event.update?], hstate⟩
  | render =>
    have hrun : r.pending.foldlM update r.state = some (r.pending.foldl ideal r.state) := by
      rw [hstate]
      exact (hus.of_prefix (List.prefix_append _ _)).of_append.foldlM
    unfold Deferred.step
    rw [hrun]
    exact ⟨hescaped, ran ++ r.pending, by simp [Event.update?], by rw [List.foldl_append, hstate]⟩

theorem sound_run {events : List (Event υ)} (h : Succeeds update ideal s (updates events)) :
    Sound ideal s events (run update s events) := by
  induction events using List.reverseRecOn with
  | nil => exact ⟨rfl, [], rfl, rfl⟩
  | append_singleton events e ih =>
    have hprefix : updates events <+: updates (events ++ [e]) := by
      rw [updates_concat]
      exact List.prefix_append _ _
    rw [run_concat]
    exact (ih (h.of_prefix hprefix)).step h

theorem updates_later (us : List υ) : updates (us.map Event.later) = us := by
  rw [updates, List.filterMap_map]
  exact List.filterMap_some

theorem run_later (us : List υ) : run update s (us.map Event.later) = ⟨s, us, false⟩ := by
  induction us using List.reverseRecOn with
  | nil => rfl
  | append_singleton us u ih => rw [List.map_append, List.map_singleton, run_concat, ih, step]

theorem foldlM_of_sound {us : List υ} (h : Sound ideal s (us.map Event.later ++ [.render])
    (run update s (us.map Event.later ++ [.render]))) :
    us.foldlM update s = some (us.foldl ideal s) := by
  obtain ⟨hescaped, ran, hupdates, hstate⟩ := h
  rw [run_concat, run_later] at hescaped hupdates hstate
  rw [updates_concat, updates_later] at hupdates
  unfold step at hescaped hupdates hstate
  dsimp only at hescaped hupdates hstate
  cases hrun : us.foldlM update s with
  | none =>
    rw [hrun] at hescaped
    cases hescaped
  | some state =>
    rw [hrun] at hupdates hstate
    have hran : us = ran := by simpa [Event.update?] using hupdates
    rw [hran]
    exact congrArg some hstate

/-- A run is sound however its updates are scheduled exactly if they succeed. -/
theorem sound_iff (us : List υ) :
    (∀ events, updates events <+: us → Sound ideal s events (run update s events)) ↔
      Succeeds update ideal s us := by
  constructor
  · rintro h before u after rfl
    have hrun (us : List υ) (hus : us <+: before ++ u :: after) :
        us.foldlM update s = some (us.foldl ideal s) := by
      refine foldlM_of_sound (h _ ?_)
      rw [updates_concat, updates_later]
      simpa [Event.update?] using hus
    have hbefore := hrun before (List.prefix_append _ _)
    have hboth := hrun (before ++ [u]) ⟨after, by simp⟩
    rw [List.foldlM_append, hbefore, List.foldl_concat] at hboth
    simpa using hboth
  · intro h events hevents
    exact sound_run (h.of_prefix hevents)

end Ledger.Deferred

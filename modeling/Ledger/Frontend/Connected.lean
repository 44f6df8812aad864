import Ledger.Frontend.BlockStream

/-! `connected` of `useBlockStream`: what the page says of its connection. -/
namespace Ledger.Frontend.BlockStream
open Function (update)
variable {s : Hook}

/-- The page where the effect runs again only when every socket is closed. A build for production
runs it once. -/
def settledHook : LTS Hook (Signal ℕ) where
  init s := s = .initial
  step s o t := hook.step s o t ∧
    (s.running = none → o = some .start → ∀ id < s.made, (s.sockets id).readyState = .closed)

/-- The flag says whether the last thing seen is a connection that opened. -/
structure Hook.Truthful (s : Hook) (signals : List (Signal ℕ)) : Prop where
  open_of_connected : s.connected = true → ∃ id < s.made, (s.sockets id).readyState ≠ .closed
  settled : ∀ e, s.running = some e →
    ∀ id < s.made, (s.sockets id).effect ≠ e → (s.sockets id).readyState = .closed
  connected : s.running ≠ none → (s.connected = true ↔ phaseAfter signals = .up)

namespace Hook
variable {signals : List (Signal ℕ)}

theorem Truthful.mount (h : s.Truthful signals)
    (hclosed : ∀ id < s.made, (s.sockets id).readyState = .closed) :
    s.mount.Truthful (signals ++ [.start]) := by
  have hconnected : s.connected = false := by
    by_contra hne
    obtain ⟨id, hid, hopen⟩ := h.open_of_connected (by simpa using hne)
    exact hopen (hclosed id hid)
  have hmount : s.mount = { s with
      sockets := update s.sockets s.made ⟨.connecting, s.runs⟩
      made := s.made + 1
      effects := update s.effects s.runs ⟨false, initialBackoffMs, none⟩
      runs := s.runs + 1
      running := some s.runs
      current := some s.made } := by
    simp [Hook.mount, openSocket]
  rw [hmount]
  constructor
  · simp [hconnected]
  · intro e he id hid hne
    obtain rfl := Option.some.inj he
    by_cases heq : id = s.made
    · simp [heq] at hne
    · simpa [heq] using hclosed id (by dsimp only at hid; omega)
  · intro _
    simp [hconnected, phaseAfter_concat, Signal.phase]

theorem Truthful.opened (h : s.Truthful signals) {id : ℕ} (hid : id < s.made)
    (hc : (s.sockets id).readyState = .connecting) :
    ((s.become id .opened).onopen id).Truthful (signals ++ [.opened]) := by
  constructor
  · exact fun _ => ⟨id, hid, by simp⟩
  · intro e he other hother hne
    have hclosed := h.settled e he other hother (by simpa using hne)
    have heq : other ≠ id := fun heq => by
      rw [heq, hc] at hclosed
      cases hclosed
    rwa [onopen_sockets, become_sockets_of_ne s heq]
  · intro _
    simp [onopen, phaseAfter_concat, Signal.phase]

theorem Truthful.close (h : s.Truthful signals) (id : ℕ) : (s.close id).Truthful signals := by
  have hclosed (other : ℕ) : ((s.close id).sockets other).readyState = .closed ↔
      (s.sockets other).readyState = .closed := by
    by_cases heq : other = id
    · cases hr : (s.sockets id).readyState <;> simp [heq, Hook.close, hr]
    · rw [close_sockets_of_ne heq]
  constructor
  · intro hconnected
    obtain ⟨other, hother, hne⟩ := h.open_of_connected (by simpa using hconnected)
    exact ⟨other, by simpa using hother, fun hc => hne ((hclosed other).mp hc)⟩
  · intro e he other hother hne
    exact (hclosed other).mpr (h.settled e (by simpa using he) other (by simpa using hother)
      (by simpa using hne))
  · simpa using h.connected

theorem Truthful.onclose (h : s.Truthful signals) (id : ℕ) {e : Option (Signal ℕ)}
    (hup : s.running ≠ none → phaseAfter (signals ++ e.toList) ≠ .up) :
    ((s.become id .closed).onclose id).Truthful (signals ++ e.toList) := by
  have hfields : ((s.become id .closed).onclose id).connected = false ∧
      ((s.become id .closed).onclose id).running = s.running ∧
      ((s.become id .closed).onclose id).made = s.made ∧
      ((s.become id .closed).onclose id).sockets = (s.become id .closed).sockets := by
    unfold Hook.onclose
    dsimp only
    split_ifs <;> simp
  obtain ⟨hconnected, hrunning, hmade, hsockets⟩ := hfields
  constructor
  · rw [hconnected]
    exact fun hc => by cases hc
  · rw [hrunning, hmade, hsockets]
    intro e he other hother hne
    by_cases heq : other = id
    · simp [heq]
    · rw [become_sockets_of_ne s heq]
      exact h.settled e he other hother (by simpa using hne)
  · rw [hconnected, hrunning]
    intro hrun
    exact iff_of_false Bool.false_ne_true (hup hrun)

theorem Truthful.redial (h : s.Truthful signals) {effect t : ℕ} (hrunning : s.running = some effect)
    (hopen : (s.effects effect).closed = false) (hphase : phaseAfter signals = .waiting) :
    ({ s with timers := update s.timers t none }.openSocket effect).Truthful
      (signals ++ [Signal.redial]) := by
  have hconnected : s.connected = false := by
    have hiff := h.connected (by simp [hrunning])
    simpa [hphase] using hiff
  rw [openSocket_of_open (s := { s with timers := update s.timers t none }) hopen]
  constructor
  · simp [hconnected]
  · intro e he id hid hne
    obtain rfl := Option.some.inj (hrunning.symm.trans he)
    by_cases heq : id = s.made
    · simp [heq] at hne
    · have hid' : id < s.made := by
        dsimp only at hid
        omega
      simp only [Function.update_of_ne heq] at hne ⊢
      exact h.settled effect hrunning id hid' hne
  · intro _
    simp [hconnected, phaseAfter_concat, Signal.phase]

theorem Truthful.cleanup (h : s.Truthful signals) (effect : ℕ) :
    (s.cleanup effect).Truthful (signals ++ [.stop]) := by
  rw [cleanup_eq]
  constructor
  · intro hconnected
    obtain ⟨id, hid, hne⟩ := h.open_of_connected hconnected
    refine ⟨id, hid, ?_⟩
    dsimp only
    unfold closeCurrent
    cases s.current with
    | none => exact hne
    | some current =>
      by_cases heq : id = current
      · subst heq
        cases hr : (s.sockets id).readyState <;> simp_all [Hook.close]
      · rwa [close_sockets_of_ne heq]
  · simp
  · simp

end Hook

theorem run_of_settled {signals : List (Signal ℕ)} (h : settledHook.Run .initial signals s) :
    hook.Run .initial signals s := by
  induction h with
  | nil => exact .nil
  | snoc _ hstep ih => exact ih.snoc hstep.1

theorem truthful_of_run {signals : List (Signal ℕ)} (h : settledHook.Run .initial signals s) :
    s.Truthful signals := by
  induction h with
  | nil => exact ⟨by simp [Hook.initial], by simp [Hook.initial], by simp [Hook.initial]⟩
  | @snoc signals s t o hrun hstep ih =>
    obtain ⟨d, hd, htracks⟩ := hook_simulates.run .initial (run_of_settled hrun)
    have hphase : d.phase = phaseAfter signals := (Dialer.after_of_run hd).phase
    obtain ⟨hstep, hsettled⟩ := hstep
    cases hstep with
    | mount hrunning => exact ih.mount (hsettled hrunning rfl)
    | cleanup => exact ih.cleanup _
    | opened hid hc => exact ih.opened hid hc
    | message => simpa using ih
    | error => simpa using ih.close _
    | lost hid hne hc =>
      refine ih.onclose _ fun _ => ?_
      simp [phaseAfter_concat, Signal.phase]
    | @closed id hid hne hc =>
      -- a socket that is not of the run has been closed
      refine ih.onclose _ fun hrunning => ?_
      obtain ⟨e, he⟩ := Option.ne_none_iff_exists'.mp hrunning
      refine absurd (ih.settled e he id hid fun heq => ?_) hne
      rw [heq, (htracks.closed e (by have := (htracks.running e he).1; omega)).mpr he] at hc
      cases hc
    | redial ht hc =>
      obtain ⟨-, hwaiting, hrunning, -⟩ := htracks.timer _ _ ht
      exact ih.redial hrunning hc (hphase ▸ hwaiting)
    | idle ht hc =>
      have hrunning := (htracks.timer _ _ ht).2.2.1
      have hlast := (htracks.running _ hrunning).1
      rw [(htracks.closed _ (by omega)).mpr hrunning] at hc
      cases hc

/-- As long as the effect is not run again over a socket that is closing, the page says that it is
connected exactly while its connection is open. -/
theorem connected_iff_up {signals : List (Signal ℕ)} (h : settledHook.Run .initial signals s)
    (hrunning : s.running ≠ none) : s.connected = true ↔ phaseAfter signals = .up :=
  (truthful_of_run h).connected hrunning

/-- The connection is lost, and the next one opens. -/
theorem connected_iff_up_sample : ∃ s t, t.connected = false ∧ s.connected = true ∧
    settledHook.Run .initial [.start, .opened, .lost 500] t ∧
    settledHook.Run .initial [.start, .opened, .lost 500, .redial, .opened] s := by
  have hmount : settledHook.step .initial (some .start) Hook.initial.mount :=
    ⟨.mount rfl, fun _ _ id hid => absurd hid (Nat.not_lt_zero id)⟩
  have hopened : settledHook.step Hook.initial.mount (some .opened)
      ((Hook.initial.mount.become 0 .opened).onopen 0) :=
    ⟨.opened (by decide) rfl, fun _ h => by cases h⟩
  have hlost : settledHook.step ((Hook.initial.mount.become 0 .opened).onopen 0) (some (.lost 500))
      .dropped :=
    ⟨Hook.Step.lost (i := 0) (by decide) (by decide) rfl, fun _ h => by cases h⟩
  let redialed := { Hook.dropped with timers := update Hook.dropped.timers 0 none }.openSocket 0
  have hredial : settledHook.step .dropped (some .redial) redialed :=
    ⟨Hook.Step.redial (s := .dropped) (t := 0) rfl rfl, fun _ h => by cases h⟩
  have hopened' : settledHook.step redialed (some .opened) ((redialed.become 1 .opened).onopen 1) :=
    ⟨Hook.Step.opened (i := 1) (by decide) rfl, fun _ h => by cases h⟩
  have hdown := ((LTS.Run.nil.snoc hmount).snoc hopened).snoc hlost
  have hup := (hdown.snoc hredial).snoc hopened'
  have hfalse := (connected_iff_up hdown (by decide)).not.mpr (by decide)
  exact ⟨_, _, Bool.eq_false_iff.mpr hfalse, (connected_iff_up hup (by decide)).mpr rfl, hdown, hup⟩

/-- The close of a socket of an earlier run of the effect is taken for that of the present one. -/
theorem stale_close_hides_connection : ∃ signals s, hook.Run .initial signals s ∧
    s.running ≠ none ∧ phaseAfter signals = .up ∧ s.connected = false := by
  have hmount : hook.step .initial (some .start) Hook.initial.mount := .mount rfl
  have hopened := Hook.Step.opened (s := Hook.initial.mount) (i := 0) (by decide) rfl
  have hcleanup := Hook.Step.cleanup (s := (Hook.initial.mount.become 0 .opened).onopen 0)
    (e := 0) rfl
  have hagain := Hook.Step.mount (s := ((Hook.initial.mount.become 0 .opened).onopen 0).cleanup 0)
    rfl
  have hopened' := Hook.Step.opened (i := 1) (by decide) rfl
    (s := (((Hook.initial.mount.become 0 .opened).onopen 0).cleanup 0).mount)
  have hclosed := Hook.Step.closed (i := 0) (by decide) (by decide) rfl
    (s := (((((Hook.initial.mount.become 0 .opened).onopen 0).cleanup 0).mount).become 1
      .opened).onopen 1)
  have hrun := (((((LTS.Run.nil.snoc hmount).snoc hopened).snoc hcleanup).snoc hagain).snoc
    hopened').snoc hclosed
  exact ⟨_, _, hrun, by decide, rfl, rfl⟩

end Ledger.Frontend.BlockStream

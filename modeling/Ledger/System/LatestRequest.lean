import Ledger.System.Simulation
import Mathlib.Logic.Function.Basic
import Mathlib.Tactic.Common

/-! A component that asks for what belongs to its key. A change of the key aborts the request that
is under way, answers come in any order, and the callbacks of a task run before the next task. -/
namespace Ledger
open Function (update)
variable {κ δ ε σ : Type*}

/-- What happens to the state of a component: with no key, on a request, on an answer and on a
failure. -/
structure Effect (κ δ ε σ : Type*) where
  idle : σ → σ
  request : σ → σ
  answer : κ → δ → σ → σ
  failure : κ → ε → σ → σ

/-- A request is settled when its promise is; its callback is then queued. -/
inductive Progress (δ ε : Type*)
  | pending
  | queued (outcome : Except ε δ)
  | done (outcome : Except ε δ)

structure Request (κ δ ε : Type*) where
  key : κ
  aborted : Bool
  progress : Progress δ ε

/-- `key` is that of the effect that ran last, `current` the request it made. Requests are numbered
in the order in which they are made. -/
structure Component (κ δ ε σ : Type*) where
  key : Option κ
  requests : ℕ → Option (Request κ δ ε)
  made : ℕ
  current : Option ℕ
  state : σ

namespace Component

def new (state : σ) : Component κ δ ε σ :=
  ⟨none, fun _ => none, 0, none, state⟩

variable (s : Component κ δ ε σ)

def Quiet : Prop :=
  ∀ i r o, s.requests i = some r → r.progress ≠ .queued o

def set (i : ℕ) (r : Request κ δ ε) : Component κ δ ε σ :=
  { s with requests := update s.requests i (some r) }

def cleanup : Component κ δ ε σ :=
  match s.current with
  | none => s
  | some i =>
    { s with
      requests := update s.requests i ((s.requests i).map fun r => { r with aborted := true })
      current := none }

def run (e : Effect κ δ ε σ) : Option κ → Component κ δ ε σ
  | none => { s with key := none, state := e.idle s.state }
  | some k =>
    { s with
      key := some k
      requests := update s.requests s.made (some ⟨k, false, .pending⟩)
      made := s.made + 1
      current := some s.made
      state := e.request s.state }

def callback (e : Effect κ δ ε σ) (i : ℕ) (r : Request κ δ ε) (o : Except ε δ) :
    Component κ δ ε σ :=
  let s := s.set i { r with progress := .done o }
  match o with
  | .ok d => { s with state := e.answer r.key d s.state }
  | .error err => if r.aborted then s else { s with state := e.failure r.key err s.state }

end Component

/-- A fetch that has been aborted fails; else what it gives is up to `Served`. -/
inductive Component.Step (e : Effect κ δ ε σ) (Served : κ → Except ε δ → Prop)
    (s : Component κ δ ε σ) : Option (Option κ) → Component κ δ ε σ → Prop
  | change (k : Option κ) (hq : s.Quiet) : Step e Served s (some k) (s.cleanup.run e k)
  | settle {i : ℕ} {r : Request κ δ ε} (o : Except ε δ) (hq : s.Quiet)
      (hr : s.requests i = some r) (hp : r.progress = .pending)
      (ho : Served r.key o) (ha : r.aborted = false) :
    Step e Served s none (s.set i { r with progress := .queued o })
  | reject {i : ℕ} {r : Request κ δ ε} (err : ε)
      (hr : s.requests i = some r) (hp : r.progress = .pending) (ha : r.aborted = true) :
    Step e Served s none (s.set i { r with progress := .queued (.error err) })
  | callback {i : ℕ} {r : Request κ δ ε} {o : Except ε δ}
      (hr : s.requests i = some r) (hp : r.progress = .queued o) :
    Step e Served s none (s.callback e i r o)

def component (e : Effect κ δ ε σ) (Served : κ → Except ε δ → Prop) (state : σ) :
    LTS (Component κ δ ε σ) (Option κ) where
  init s := s = .new state
  step := Component.Step e Served

section Shown
variable {e : Effect κ δ ε σ} {Served : κ → Except ε δ → Prop} {initial : σ}

/-- What a request has come to is what the state shows. -/
def Progress.Shown (e : Effect κ δ ε σ) (Served : κ → Except ε δ → Prop) (k : κ) (state : σ) :
    Progress δ ε → Prop
  | .pending => ∃ st, state = e.request st
  | .queued o => Served k o ∧ ∃ st, state = e.request st
  | .done (.ok d) => Served k (.ok d) ∧ ∃ st, state = e.answer k d st
  | .done (.error err) => Served k (.error err) ∧ ∃ st, state = e.failure k err st

/-- The state shows the request of the key, and no other request can change it. -/
structure Component.Sound (e : Effect κ δ ε σ) (Served : κ → Except ε δ → Prop) (initial : σ)
    (s : Component κ δ ε σ) : Prop where
  bound : ∀ i r, s.requests i = some r → i < s.made
  current : ∀ k, s.key = some k → ∃ i r, s.current = some i ∧ s.requests i = some r ∧ r.key = k ∧
    r.aborted = false ∧ r.progress.Shown e Served k s.state
  idle : s.key = none →
    s.current = none ∧ (s.state = initial ∨ ∃ st, s.state = e.idle st)
  other : ∀ i r, s.requests i = some r → s.current ≠ some i → r.aborted = true ∧
    ∀ d, r.progress ≠ .queued (.ok d)

namespace Component
variable {s : Component κ δ ε σ}

theorem Sound.new : (new initial : Component κ δ ε σ).Sound e Served initial := by
  constructor <;> simp [Component.new]

theorem Sound.cleanup (h : s.Sound e Served initial) (hq : s.Quiet) :
    s.cleanup.made = s.made ∧ s.cleanup.state = s.state ∧ s.cleanup.current = none ∧
      ∀ i r, s.cleanup.requests i = some r → i < s.made ∧ r.aborted = true ∧
        ∀ d, r.progress ≠ .queued (.ok d) := by
  unfold Component.cleanup
  cases hc : s.current with
  | none =>
    refine ⟨rfl, rfl, hc, fun i r hr => ⟨h.bound i r hr, h.other i r hr ?_⟩⟩
    rw [hc]
    exact fun hnone => by cases hnone
  | some current =>
    refine ⟨rfl, rfl, rfl, fun i r hr => ?_⟩
    by_cases heq : i = current
    · subst heq
      simp only [Function.update_self, Option.map_eq_some_iff] at hr
      obtain ⟨r', hr', rfl⟩ := hr
      exact ⟨h.bound i r' hr', rfl, fun d => hq i r' _ hr'⟩
    · simp only [Function.update_of_ne heq] at hr
      have hne : s.current ≠ some i := by simpa [hc] using Ne.symm heq
      exact ⟨h.bound i r hr, h.other i r hr hne⟩

theorem Sound.change (h : s.Sound e Served initial) (hq : s.Quiet) (k : Option κ) :
    (s.cleanup.run e k).Sound e Served initial := by
  obtain ⟨hmade, -, hcurrent, hrequests⟩ := h.cleanup hq
  cases k with
  | none =>
    constructor
    · intro i r hr
      exact hmade ▸ (hrequests i r hr).1
    · exact fun k hk => by cases hk
    · exact fun _ => ⟨hcurrent, Or.inr ⟨_, rfl⟩⟩
    · exact fun i r hr _ => (hrequests i r hr).2
  | some k =>
    constructor
    · intro i r hr
      by_cases heq : i = s.cleanup.made
      · simp [run, heq]
      · simp only [run, Function.update_of_ne heq] at hr
        have := (hrequests i r hr).1
        simp only [run]
        omega
    · intro k' hk
      obtain rfl := Option.some.inj hk
      exact ⟨s.cleanup.made, ⟨k, false, .pending⟩, rfl, Function.update_self .., rfl, rfl, _, rfl⟩
    · exact fun hk => by cases hk
    · intro i r hr hne
      have heq : i ≠ s.cleanup.made := fun heq => hne (by simp [run, heq])
      simp only [run, Function.update_of_ne heq] at hr
      exact (hrequests i r hr).2

theorem Sound.set (h : s.Sound e Served initial) {i : ℕ} {r : Request κ δ ε}
    (hr : s.requests i = some r) {progress : Progress δ ε} (state : σ)
    (hcurrent : s.current = some i → progress.Shown e Served r.key state)
    (hother : s.current ≠ some i → state = s.state ∧ ∀ d, progress ≠ .queued (.ok d)) :
    { s.set i { r with progress } with state }.Sound e Served initial := by
  constructor
  · intro j r' hr'
    by_cases heq : j = i
    · exact heq ▸ h.bound i r hr
    · simp only [Component.set, Function.update_of_ne heq] at hr'
      exact h.bound j r' hr'
  · intro k hk
    obtain ⟨j, r', hj, hr', hkey, ha, hshown⟩ := h.current k hk
    by_cases heq : j = i
    · subst heq
      obtain rfl := Option.some.inj (hr.symm.trans hr')
      exact ⟨j, { r with progress }, hj, Function.update_self .., hkey, ha, hkey ▸ hcurrent hj⟩
    · refine ⟨j, r', hj, (Function.update_of_ne heq ..).trans hr', hkey, ha, ?_⟩
      rw [(hother fun hi => heq (Option.some.inj (hj.symm.trans hi))).1]
      exact hshown
  · intro hk
    obtain ⟨hnone, hstate⟩ := h.idle hk
    refine ⟨hnone, ?_⟩
    rwa [(hother (by rw [hnone]; exact fun hi => by cases hi)).1]
  · intro j r' hr' hne
    by_cases heq : j = i
    · subst heq
      simp only [Component.set, Function.update_self, Option.some.injEq] at hr'
      subst hr'
      exact ⟨(h.other j r hr hne).1, (hother hne).2⟩
    · simp only [Component.set, Function.update_of_ne heq] at hr'
      exact h.other j r' hr' hne

theorem Sound.of_current (h : s.Sound e Served initial) {i : ℕ} {r : Request κ δ ε}
    (hr : s.requests i = some r) (hi : s.current = some i) :
    s.key = some r.key ∧ r.aborted = false ∧ r.progress.Shown e Served r.key s.state := by
  cases hk : s.key with
  | none =>
    rw [(h.idle hk).1] at hi
    cases hi
  | some k =>
    obtain ⟨j, r', hj, hr', rfl, ha, hshown⟩ := h.current k hk
    obtain rfl := Option.some.inj (hj.symm.trans hi)
    obtain rfl := Option.some.inj (hr.symm.trans hr')
    exact ⟨rfl, ha, hshown⟩

theorem Sound.step {t : Component κ δ ε σ} {o : Option (Option κ)} (h : s.Sound e Served initial)
    (hstep : s.Step e Served o t) : t.Sound e Served initial := by
  cases hstep with
  | change k hq => exact h.change hq k
  | @settle i r o hq hr hp ho ha =>
    refine h.set hr s.state (fun hi => ?_) fun hne => ?_
    · obtain ⟨-, -, hshown⟩ := h.of_current hr hi
      rw [hp] at hshown
      exact ⟨ho, hshown⟩
    · rw [(h.other i r hr hne).1] at ha
      cases ha
  | @reject i r err hr hp ha =>
    refine h.set hr s.state (fun hi => ?_) fun _ => ⟨rfl, fun d hd => by cases hd⟩
    rw [(h.of_current hr hi).2.1] at ha
    cases ha
  | @callback i r o hr hp =>
    unfold Component.callback
    cases o with
    | ok d =>
      refine h.set hr _ (fun hi => ?_) fun hne => absurd hp ((h.other i r hr hne).2 d)
      obtain ⟨-, -, hshown⟩ := h.of_current hr hi
      rw [hp] at hshown
      exact ⟨hshown.1, _, rfl⟩
    | error err =>
      dsimp only
      split_ifs with ha
      · refine h.set hr s.state (fun hi => ?_) fun _ => ⟨rfl, fun d hd => by cases hd⟩
        rw [(h.of_current hr hi).2.1] at ha
        cases ha
      · refine h.set hr _ (fun hi => ?_) fun hne => absurd (h.other i r hr hne).1 ha
        obtain ⟨-, -, hshown⟩ := h.of_current hr hi
        rw [hp] at hshown
        exact ⟨hshown.1, _, rfl⟩

/-- In every run the state shows what the request of the present key has come to. -/
theorem sound_of_run {keys : List (Option κ)}
    (h : (component e Served initial).Run (.new initial) keys s) : s.Sound e Served initial := by
  induction h with
  | nil => exact .new
  | snoc _ hstep ih => exact ih.step hstep

theorem key_of_run {keys : List (Option κ)}
    (h : (component e Served initial).Run (.new initial) keys s) : s.key = keys.getLast?.join := by
  induction h with
  | nil => rfl
  | @snoc keys s t o _ hstep ih =>
    cases hstep with
    | change k =>
      rw [Option.toList_some, List.getLast?_concat]
      cases k <;> rfl
    | settle => simpa [Component.set] using ih
    | reject => simpa [Component.set] using ih
    | @callback i r o =>
      have hkey : (s.callback e i r o).key = s.key := by
        unfold Component.callback
        cases o with
        | ok d => rfl
        | error err =>
          dsimp only
          split_ifs <;> rfl
      simpa [hkey] using ih

/-- An answer is seen only while its key is the last one. -/
theorem invariant_of_run {P : List (Option κ) → σ → Prop} {keys : List (Option κ)}
    (h : (component e Served initial).Run (.new initial) keys s) (hnew : P [] initial)
    (hkey : ∀ keys k st, P keys st → P (keys ++ [k]) st)
    (hidle : ∀ keys st, P keys st → P keys (e.idle st))
    (hrequest : ∀ keys st, P keys st → P keys (e.request st))
    (hanswer : ∀ keys k d st, some k ∈ keys → Served k (.ok d) → P keys (e.answer k d st))
    (hfailure : ∀ keys k err st, P keys st → P keys (e.failure k err st)) : P keys s.state := by
  induction h with
  | nil => exact hnew
  | @snoc keys s t o h hstep ih =>
    have hsound := sound_of_run h
    cases hstep with
    | change k hq =>
      have hstate := (hsound.cleanup hq).2.1
      have hkept := hkey keys k _ ih
      cases k with
      | none =>
        dsimp only [run, Option.toList_some]
        rw [hstate]
        exact hidle _ _ hkept
      | some k =>
        dsimp only [run, Option.toList_some]
        rw [hstate]
        exact hrequest _ _ hkept
    | settle => simpa [Component.set] using ih
    | reject => simpa [Component.set] using ih
    | @callback i r o hr hp =>
      rw [Option.toList_none, List.append_nil]
      unfold Component.callback
      cases o with
      | error err =>
        dsimp only
        split_ifs
        · exact ih
        · exact hfailure _ _ _ _ ih
      | ok d =>
        by_cases hi : s.current = some i
        · obtain ⟨hcurrent, -, hshown⟩ := hsound.of_current hr hi
          rw [hp] at hshown
          rw [key_of_run h] at hcurrent
          have hmem : some r.key ∈ keys :=
            List.mem_of_getLast? (Option.join_eq_some_iff.mp hcurrent)
          exact hanswer _ _ _ _ hmem hshown.1
        · exact absurd hp ((hsound.other i r hr hi).2 d)

theorem Quiet.ask (hq : s.Quiet) (e : Effect κ δ ε σ) (k : κ) :
    (s.cleanup.run e (some k)).Quiet := by
  intro i r o hr
  by_cases heq : i = s.cleanup.made
  · subst heq
    have hpending : (s.cleanup.run e (some k)).requests s.cleanup.made = some ⟨k, false, .pending⟩ :=
      Function.update_self ..
    rw [← Option.some.inj (hpending.symm.trans hr)]
    exact nofun
  · replace hr : s.cleanup.requests i = some r := (Function.update_of_ne heq ..).symm.trans hr
    unfold cleanup at hr
    cases hc : s.current with
    | none =>
      rw [hc] at hr
      exact hq i r o hr
    | some current =>
      rw [hc] at hr
      by_cases hi : i = current
      · subst hi
        simp only [Function.update_self, Option.map_eq_some_iff] at hr
        obtain ⟨r', hr', rfl⟩ := hr
        exact hq i r' o hr'
      · simp only [Function.update_of_ne hi] at hr
        exact hq i r o hr

/-- A request that is made at rest, and its answer. -/
theorem exists_run_asked {keys : List (Option κ)} (h : (component e Served initial).Run
    (.new initial) keys s) (hq : s.Quiet) {k : κ} {d : δ} (hd : Served k (.ok d)) :
    ∃ t, (component e Served initial).Run (.new initial) (keys ++ [some k]) t ∧
      t.state = e.answer k d (e.request s.state) ∧
      ∀ i r, s.cleanup.requests i = some r → i ≠ s.cleanup.made → t.requests i = some r := by
  let asked : Component κ δ ε σ := s.cleanup.run e (some k)
  have hpending : asked.requests s.cleanup.made = some ⟨k, false, .pending⟩ :=
    Function.update_self ..
  have hasked : (component e Served initial).Run (.new initial) (keys ++ [some k]) asked :=
    h.snoc (Step.change (some k) hq)
  have hsettled := hasked.silent (Step.settle (.ok d) (hq.ask e k) hpending rfl hd rfl)
  have hanswered := hsettled.silent (Step.callback (Function.update_self ..) rfl)
  refine ⟨_, hanswered, ?_, fun i r hr hi => ?_⟩
  · change e.answer k d (e.request s.cleanup.state) = _
    rw [show s.cleanup.state = s.state by unfold cleanup; split <;> rfl]
  · change update (update (update s.cleanup.requests _ _) _ _) _ _ i = _
    rw [Function.update_of_ne hi, Function.update_of_ne hi, Function.update_of_ne hi, hr]

theorem exists_run_answered (e : Effect κ δ ε σ) {k : κ} {d : δ} (h : Served k (.ok d))
    (initial : σ) :
    ∃ s, (component e Served initial).Run (.new initial) [some k] s ∧
      s.state = e.answer k d (e.request initial) := by
  obtain ⟨s, hrun, hstate, -⟩ := exists_run_asked (e := e) .nil nofun h
  exact ⟨s, hrun, hstate⟩

/-- The key changes while a request is under way, and that one fails behind the answer to the
next. -/
theorem exists_run_superseded (e : Effect κ δ ε σ) (k : κ) {k' : κ} {d : δ}
    (h : Served k' (.ok d)) (err : ε) (initial : σ) :
    ∃ s, (component e Served initial).Run (.new initial) [some k, some k'] s ∧
      s.requests 0 = some ⟨k, true, .done (.error err)⟩ ∧
      s.state = e.answer k' d (e.request (e.request initial)) := by
  have hnew : (new initial : Component κ δ ε σ).Quiet := nofun
  have hfirst : (component e Served initial).Run (.new initial) [some k]
      ((new initial).cleanup.run e (some k)) :=
    .snoc (o := some (some k)) .nil (Step.change (some k) hnew)
  obtain ⟨s, hrun, hstate, hothers⟩ := exists_run_asked hfirst (hnew.ask e k) h
  change s.state = e.answer k' d (e.request (e.request initial)) at hstate
  have haborted : s.requests 0 = some ⟨k, true, .pending⟩ := hothers 0 _ rfl Nat.zero_ne_one
  have hfailed := hrun.silent (Step.reject err haborted rfl rfl)
  have hdone := hfailed.silent (Step.callback (Function.update_self ..) rfl)
  exact ⟨_, hdone, by simp [callback, set], by simpa [callback, set] using hstate⟩

end Component

end Shown

end Ledger

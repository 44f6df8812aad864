import Ledger.System.Reconnect
import Mathlib.Algebra.Order.Ring.Nat
import Mathlib.Logic.Function.Basic
import Mathlib.Tactic.Common

/-! The connections of `useBlockStream`: sockets and timers over any number of runs of its effect.
What a message does to the state of the page is elsewhere. -/
namespace Ledger.Frontend.BlockStream
open Function (update)

def initialBackoffMs : ℕ :=
  500

def maxBackoffMs : ℕ :=
  15000

/-- `readyState`. -/
inductive ReadyState
  | connecting
  | opened
  | closing
  | closed
  deriving DecidableEq

/-- A `WebSocket`, with the run of the effect that its handlers are from. -/
structure Socket where
  readyState : ReadyState
  effect : ℕ

/-- A timeout that calls `open`. -/
structure Timer where
  effect : ℕ
  delay : ℕ

/-- The variables of a run of the effect. -/
structure Closure where
  closed : Bool
  backoff : ℕ
  retry : Option ℕ

/-- Sockets, timers and runs of the effect are numbered in the order in which they come. A timer is
there until it fires or is cleared. `running` is the run of the effect that has not been cleaned
up. -/
structure Hook where
  sockets : ℕ → Socket
  made : ℕ
  timers : ℕ → Option Timer
  issued : ℕ
  effects : ℕ → Closure
  runs : ℕ
  running : Option ℕ
  current : Option ℕ
  connected : Bool

namespace Hook

def initial : Hook where
  sockets _ := ⟨.closed, 0⟩
  made := 0
  timers _ := none
  issued := 0
  effects _ := ⟨true, initialBackoffMs, none⟩
  runs := 0
  running := none
  current := none
  connected := false

variable (s : Hook)

/-- The browser's part of an event. -/
def become (id : ℕ) (readyState : ReadyState) : Hook :=
  { s with sockets := update s.sockets id { s.sockets id with readyState } }

def close (id : ℕ) : Hook :=
  match (s.sockets id).readyState with
  | .connecting => s.become id .closing
  | .opened => s.become id .closing
  | _ => s

def openSocket (effect : ℕ) : Hook :=
  if (s.effects effect).closed then s
  else { s with
    sockets := update s.sockets s.made ⟨.connecting, effect⟩
    made := s.made + 1
    current := some s.made }

def onopen (id : ℕ) : Hook :=
  let effect := (s.sockets id).effect
  { s with
    effects := update s.effects effect { s.effects effect with backoff := initialBackoffMs }
    connected := true }

def onclose (id : ℕ) : Hook :=
  let effect := (s.sockets id).effect
  let closure := s.effects effect
  let s := { s with connected := false }
  if closure.closed then s
  else { s with
    timers := update s.timers s.issued (some ⟨effect, closure.backoff⟩)
    issued := s.issued + 1
    effects := update s.effects effect
      ⟨closure.closed, min (closure.backoff * 2) maxBackoffMs, some s.issued⟩ }

def mount : Hook :=
  let s' := { s with
    effects := update s.effects s.runs ⟨false, initialBackoffMs, none⟩
    runs := s.runs + 1
    running := some s.runs }
  s'.openSocket s.runs

def clearTimeout (timer : Option ℕ) : Hook :=
  match timer with
  | none => s
  | some timer => { s with timers := update s.timers timer none }

/-- `socket.current?.close()`. -/
def closeCurrent : Hook :=
  match s.current with
  | none => s
  | some id => s.close id

def cleanup (effect : ℕ) : Hook :=
  let s := { s with
    effects := update s.effects effect { s.effects effect with closed := true }
    running := none }
  { (s.clearTimeout (s.effects effect).retry).closeCurrent with current := none }

@[simp] theorem become_sockets_self (id : ℕ) (r : ReadyState) :
    (s.become id r).sockets id = ⟨r, (s.sockets id).effect⟩ := by
  simp [become]

theorem become_sockets_of_ne {id other : ℕ} (h : other ≠ id) (r : ReadyState) :
    (s.become id r).sockets other = s.sockets other := by
  simp [become, h]

@[simp] theorem become_effect (id other : ℕ) (r : ReadyState) :
    ((s.become id r).sockets other).effect = (s.sockets other).effect := by
  by_cases h : other = id <;> simp [become, h]

@[simp] theorem become_made (id : ℕ) (r : ReadyState) : (s.become id r).made = s.made := rfl
@[simp] theorem become_timers (id : ℕ) (r : ReadyState) : (s.become id r).timers = s.timers := rfl
@[simp] theorem become_issued (id : ℕ) (r : ReadyState) : (s.become id r).issued = s.issued := rfl
@[simp] theorem become_effects (id : ℕ) (r : ReadyState) :
    (s.become id r).effects = s.effects := rfl
@[simp] theorem become_runs (id : ℕ) (r : ReadyState) : (s.become id r).runs = s.runs := rfl
@[simp] theorem become_running (id : ℕ) (r : ReadyState) :
    (s.become id r).running = s.running := rfl
@[simp] theorem become_current (id : ℕ) (r : ReadyState) :
    (s.become id r).current = s.current := rfl

@[simp] theorem onopen_sockets (id : ℕ) : (s.onopen id).sockets = s.sockets := rfl
@[simp] theorem onopen_made (id : ℕ) : (s.onopen id).made = s.made := rfl
@[simp] theorem onopen_timers (id : ℕ) : (s.onopen id).timers = s.timers := rfl
@[simp] theorem onopen_issued (id : ℕ) : (s.onopen id).issued = s.issued := rfl
@[simp] theorem onopen_runs (id : ℕ) : (s.onopen id).runs = s.runs := rfl
@[simp] theorem onopen_running (id : ℕ) : (s.onopen id).running = s.running := rfl
@[simp] theorem onopen_current (id : ℕ) : (s.onopen id).current = s.current := rfl

@[simp] theorem onopen_closed (id e : ℕ) :
    ((s.onopen id).effects e).closed = (s.effects e).closed := by
  by_cases h : e = (s.sockets id).effect <;> simp [onopen, h]

@[simp] theorem onopen_backoff (id : ℕ) :
    ((s.onopen id).effects (s.sockets id).effect).backoff = initialBackoffMs := by
  simp [onopen]

end Hook

/-- The events of a page that has an address for the API. What is seen of them is the calls of the
hook: `new WebSocket`, `setTimeout` and what it undoes. -/
inductive Hook.Step (s : Hook) : Option (Signal ℕ) → Hook → Prop
  | mount (h : s.running = none) : Step s (some .start) s.mount
  | cleanup {e : ℕ} (h : s.running = some e) : Step s (some .stop) (s.cleanup e)
  | opened {i : ℕ} (hi : i < s.made) (h : (s.sockets i).readyState = .connecting) :
    Step s (some .opened) ((s.become i .opened).onopen i)
  | message {i : ℕ} (hi : i < s.made) (h : (s.sockets i).readyState = .opened) : Step s none s
  | error {i : ℕ} (hi : i < s.made) (h : (s.sockets i).readyState ≠ .closed) :
    Step s none (s.close i)
  | lost {i : ℕ} (hi : i < s.made) (h : (s.sockets i).readyState ≠ .closed)
      (hc : (s.effects (s.sockets i).effect).closed = false) :
    Step s (some (.lost (s.effects (s.sockets i).effect).backoff))
      ((s.become i .closed).onclose i)
  | closed {i : ℕ} (hi : i < s.made) (h : (s.sockets i).readyState ≠ .closed)
      (hc : (s.effects (s.sockets i).effect).closed = true) :
    Step s none ((s.become i .closed).onclose i)
  | redial {t : ℕ} {timer : Timer} (h : s.timers t = some timer)
      (hc : (s.effects timer.effect).closed = false) :
    Step s (some .redial) ({ s with timers := update s.timers t none }.openSocket timer.effect)
  | idle {t : ℕ} {timer : Timer} (h : s.timers t = some timer)
      (hc : (s.effects timer.effect).closed = true) :
    Step s none ({ s with timers := update s.timers t none }.openSocket timer.effect)

def hook : LTS Hook (Signal ℕ) where
  init s := s = .initial
  step := Hook.Step

def policy : Backoff ℕ where
  initial := initialBackoffMs
  limit := maxBackoffMs
  initial_nonneg := Nat.zero_le _
  initial_le := by decide

/-- The hook is where a client is: only the run of the effect that has not been cleaned up has a
socket that can open or a timer, and it has one of them. -/
structure Hook.Tracks (s : Hook) (d : Dialer ℕ) : Prop where
  /-- The closures of the runs that have been cleaned up are closed. -/
  closed : ∀ e < s.runs, (s.effects e).closed = false ↔ s.running = some e
  running : ∀ e, s.running = some e → e + 1 = s.runs ∧ (s.effects e).backoff = d.backoff
  off : d.phase = .off ↔ s.running = none
  current : ∀ id, s.current = some id →
    id < s.made ∧ s.running = some (s.sockets id).effect
  /-- A socket of the run is the current one, unless it is closed. -/
  own : ∀ id < s.made, (s.sockets id).effect < s.runs ∧
    (s.running = some (s.sockets id).effect → (s.sockets id).readyState ≠ .closed →
      s.current = some id ∧ d.phase ≠ .waiting)
  other : ∀ id < s.made, s.running ≠ some (s.sockets id).effect →
    (s.sockets id).readyState = .closing ∨ (s.sockets id).readyState = .closed
  connecting : ∀ id < s.made, (s.sockets id).readyState = .connecting → d.phase = .dialing
  opened : ∀ id < s.made, (s.sockets id).readyState = .opened → d.phase = .up
  busy : d.phase = .dialing ∨ d.phase = .up →
    ∃ id, s.current = some id ∧ (s.sockets id).readyState ≠ .closed
  timer : ∀ t timer, s.timers t = some timer → t < s.issued ∧ d.phase = .waiting ∧
    s.running = some timer.effect ∧ (s.effects timer.effect).retry = some t
  armed : d.phase = .waiting → ∃ t timer, s.timers t = some timer

variable {s : Hook} {d : Dialer ℕ}

namespace Hook

theorem Tracks.initial : Hook.initial.Tracks ⟨.off, initialBackoffMs⟩ := by
  constructor <;> simp [Hook.initial]

theorem openSocket_of_open {effect : ℕ} (h : (s.effects effect).closed = false) :
    s.openSocket effect = { s with
      sockets := update s.sockets s.made ⟨.connecting, effect⟩
      made := s.made + 1
      current := some s.made } := by
  rw [openSocket, h]
  rfl

/-- A run of the effect that has no socket that is not closed, and no timer. -/
structure Still (s : Hook) (effect : ℕ) : Prop where
  closed : ∀ e < s.runs, (s.effects e).closed = false ↔ e = effect
  running : s.running = some effect
  last : effect + 1 = s.runs
  sockets : ∀ id < s.made, (s.sockets id).effect < s.runs ∧
    ((s.sockets id).readyState = .closing ∨ (s.sockets id).readyState = .closed)
  own : ∀ id < s.made, (s.sockets id).effect = effect → (s.sockets id).readyState = .closed
  timers : ∀ t, s.timers t = none

theorem Still.dial {effect : ℕ} (h : s.Still effect) :
    (s.openSocket effect).Tracks ⟨.dialing, (s.effects effect).backoff⟩ := by
  have heffect := h.last
  have hopen : (s.effects effect).closed = false := (h.closed effect (by omega)).mpr rfl
  have hold {id : ℕ} (hid : id < s.made + 1) : id = s.made ∨ id < s.made ∧ id ≠ s.made := by
    omega
  rw [openSocket_of_open hopen]
  constructor
  · intro e he
    rw [h.closed e he, h.running, Option.some_inj, eq_comm]
  · intro e he
    obtain rfl := Option.some.inj (h.running.symm.trans he)
    exact ⟨heffect, rfl⟩
  · simp [h.running]
  · rintro id hid
    obtain rfl := Option.some.inj hid
    simp [h.running]
  · intro id hid
    rcases hold hid with rfl | ⟨hid, hne⟩
    · simp
      omega
    · simp only [Function.update_of_ne hne]
      refine ⟨(h.sockets id hid).1, fun hrun hnot => absurd (h.own id hid ?_) hnot⟩
      exact (Option.some.inj (h.running.symm.trans hrun)).symm
  · intro id hid hrun
    rcases hold hid with rfl | ⟨hid, hne⟩
    · simp [h.running] at hrun
    · simp only [Function.update_of_ne hne]
      exact (h.sockets id hid).2
  · exact fun id hid _ => rfl
  · intro id hid hopened
    rcases hold hid with rfl | ⟨hid, hne⟩
    · simp at hopened
    · simp only [Function.update_of_ne hne] at hopened
      have hstill := (h.sockets id hid).2
      rw [hopened] at hstill
      simp at hstill
  · exact fun _ => ⟨s.made, rfl, by simp⟩
  · intro t timer ht
    rw [h.timers t] at ht
    cases ht
  · exact fun hwaiting => by cases hwaiting

theorem Tracks.mount (h : s.Tracks d) (hrunning : s.running = none) :
    s.mount.Tracks ⟨.dialing, initialBackoffMs⟩ := by
  have hstill : Still { s with
      effects := update s.effects s.runs ⟨false, initialBackoffMs, none⟩
      runs := s.runs + 1
      running := some s.runs } s.runs := by
    constructor
    · intro e he
      by_cases heq : e = s.runs
      · simp [heq]
      · have hclosed := h.closed e (by dsimp only at he; omega)
        simpa [heq, hrunning] using hclosed
    · rfl
    · rfl
    · intro id hid
      exact ⟨Nat.lt_succ_of_lt (h.own id hid).1, h.other id hid (by simp [hrunning])⟩
    · intro id hid heq
      exact absurd heq (h.own id hid).1.ne
    · intro t
      cases ht : s.timers t with
      | none => rfl
      | some timer =>
        have hrun := (h.timer t timer ht).2.2.1
        rw [hrunning] at hrun
        cases hrun
  have htracks := hstill.dial
  simp only [Function.update_self] at htracks
  exact htracks

theorem Tracks.redial (h : s.Tracks d) {t : ℕ} {timer : Timer} (ht : s.timers t = some timer) :
    ({ s with timers := update s.timers t none }.openSocket timer.effect).Tracks
      ⟨.dialing, d.backoff⟩ := by
  obtain ⟨-, hphase, hrunning, hretry⟩ := h.timer t timer ht
  obtain ⟨heffect, hbackoff⟩ := h.running _ hrunning
  have hown : ∀ id < s.made, (s.sockets id).effect = timer.effect →
      (s.sockets id).readyState = .closed := by
    intro id hid heq
    by_contra hne
    exact ((h.own id hid).2 (heq ▸ hrunning) hne).2 hphase
  have hstill : Still { s with timers := update s.timers t none } timer.effect := by
    constructor
    · intro e he
      rw [h.closed e he, hrunning, Option.some_inj, eq_comm]
    · exact hrunning
    · exact heffect
    · intro id hid
      refine ⟨(h.own id hid).1, ?_⟩
      by_cases heq : (s.sockets id).effect = timer.effect
      · exact Or.inr (hown id hid heq)
      · exact h.other id hid (by rw [hrunning]; simpa using Ne.symm heq)
    · exact hown
    · intro t'
      by_cases heq : t' = t
      · simp [heq]
      · cases ht' : s.timers t' with
        | none => simp [heq, ht']
        | some timer' =>
          -- a run has one `retry`
          obtain ⟨-, -, hrunning', hretry'⟩ := h.timer t' timer' ht'
          have hsame : timer'.effect = timer.effect :=
            Option.some.inj (hrunning'.symm.trans hrunning)
          rw [hsame, hretry] at hretry'
          exact absurd (Option.some.inj hretry').symm heq
  rw [← hbackoff]
  exact hstill.dial

theorem Tracks.running_of_live (h : s.Tracks d) {id : ℕ} (hid : id < s.made)
    (hlive : (s.sockets id).readyState = .connecting ∨ (s.sockets id).readyState = .opened) :
    s.running = some (s.sockets id).effect := by
  by_contra hrun
  rcases h.other id hid hrun with hclosing | hclosed
  · rw [hclosing] at hlive
    simp at hlive
  · rw [hclosed] at hlive
    simp at hlive

/-- The current socket is the only one of the run that is not closed. -/
theorem Tracks.eq_current (h : s.Tracks d) {id other : ℕ} (hid : id < s.made)
    (hrun : s.running = some (s.sockets id).effect) (hne : (s.sockets id).readyState ≠ .closed)
    (hother : s.current = some other) : other = id :=
  Option.some.inj (hother.symm.trans ((h.own id hid).2 hrun hne).1)

theorem Tracks.opened_step (h : s.Tracks d) {id : ℕ} (hid : id < s.made)
    (hc : (s.sockets id).readyState = .connecting) :
    ((s.become id .opened).onopen id).Tracks ⟨.up, initialBackoffMs⟩ := by
  have hphase := h.connecting id hid hc
  have hrun := h.running_of_live hid (Or.inl hc)
  have hcurrent := ((h.own id hid).2 hrun (by rw [hc]; decide)).1
  constructor
  · simpa using h.closed
  · intro e he
    obtain rfl := Option.some.inj (hrun.symm.trans he)
    refine ⟨(h.running _ hrun).1, ?_⟩
    rw [← become_effect s id id .opened, onopen_backoff]
  · exact iff_of_false (by simp) (by simp [hrun])
  · simpa using h.current
  · intro other hother
    refine ⟨by simpa using (h.own other hother).1, fun hrun' hne => ⟨?_, by simp⟩⟩
    by_cases heq : other = id
    · simp [heq, hcurrent]
    · rw [onopen_sockets, become_sockets_of_ne s heq] at hne
      exact ((h.own other hother).2 (by simpa using hrun') hne).1
  · intro other hother hnot
    have heq : other ≠ id := fun heq => hnot (by simpa [heq] using hrun)
    rw [onopen_sockets, become_sockets_of_ne s heq]
    exact h.other other hother (by simpa using hnot)
  · intro other hother hconnecting
    by_cases heq : other = id
    · simp [heq] at hconnecting
    · rw [onopen_sockets, become_sockets_of_ne s heq] at hconnecting
      have hrun' := h.running_of_live hother (Or.inl hconnecting)
      exact absurd (h.eq_current hother hrun' (by rw [hconnecting]; decide) hcurrent).symm heq
  · exact fun _ _ _ => rfl
  · exact fun _ => ⟨id, hcurrent, by simp⟩
  · intro t timer ht
    have hwaiting := (h.timer t timer ht).2.1
    rw [hphase] at hwaiting
    cases hwaiting
  · exact fun hwaiting => by cases hwaiting

theorem Tracks.become (h : s.Tracks d) {id : ℕ} {r : ReadyState}
    (hr : r = .closing ∧ (s.sockets id).readyState ≠ .closed ∨
      r = .closed ∧ s.current ≠ some id) :
    (s.become id r).Tracks d := by
  have hend : r = .closing ∨ r = .closed := hr.imp And.left And.left
  constructor
  · exact h.closed
  · exact h.running
  · exact h.off
  · simpa using h.current
  · intro other hother
    refine ⟨by simpa using (h.own other hother).1, fun hrun hne => ?_⟩
    apply (h.own other hother).2 (by simpa using hrun)
    by_cases heq : other = id
    · subst heq
      rcases hr with ⟨-, hopen⟩ | ⟨rfl, -⟩
      · exact hopen
      · simp at hne
    · rwa [become_sockets_of_ne s heq] at hne
  · intro other hother hnot
    by_cases heq : other = id
    · simpa [heq] using hend
    · rw [become_sockets_of_ne s heq]
      exact h.other other hother (by simpa using hnot)
  · intro other hother hconnecting
    by_cases heq : other = id
    · rw [heq, become_sockets_self] at hconnecting
      rcases hend with rfl | rfl <;> cases hconnecting
    · rw [become_sockets_of_ne s heq] at hconnecting
      exact h.connecting other hother hconnecting
  · intro other hother hopened
    by_cases heq : other = id
    · rw [heq, become_sockets_self] at hopened
      rcases hend with rfl | rfl <;> cases hopened
    · rw [become_sockets_of_ne s heq] at hopened
      exact h.opened other hother hopened
  · intro hbusy
    obtain ⟨other, hother, hne⟩ := h.busy hbusy
    refine ⟨other, hother, ?_⟩
    by_cases heq : other = id
    · rcases hr with ⟨rfl, -⟩ | ⟨-, hcurrent⟩
      · simp [heq]
      · exact absurd (heq ▸ hother) hcurrent
    · rwa [become_sockets_of_ne s heq]
  · exact h.timer
  · exact h.armed

theorem Tracks.close (h : s.Tracks d) (id : ℕ) : (s.close id).Tracks d := by
  unfold Hook.close
  split
  · next hc => exact h.become (Or.inl ⟨rfl, by rw [hc]; decide⟩)
  · next hc => exact h.become (Or.inl ⟨rfl, by rw [hc]; decide⟩)
  · exact h

theorem Tracks.connected (h : s.Tracks d) (connected : Bool) : { s with connected }.Tracks d :=
  ⟨h.closed, h.running, h.off, h.current, h.own, h.other, h.connecting, h.opened, h.busy, h.timer,
    h.armed⟩

theorem Tracks.closed_step (h : s.Tracks d) {id : ℕ} (hid : id < s.made)
    (hc : (s.effects (s.sockets id).effect).closed = true) :
    ((s.become id .closed).onclose id).Tracks d := by
  have hcurrent : s.current ≠ some id := by
    intro hcurrent
    have hrun := (h.current id hcurrent).2
    rw [(h.closed _ (h.own id hid).1).mpr hrun] at hc
    cases hc
  have hclose : (s.become id .closed).onclose id =
      { s.become id .closed with connected := false } := by
    simp [onclose, hc]
  rw [hclose]
  exact (h.become (Or.inr ⟨rfl, hcurrent⟩)).connected false

theorem Tracks.lost_step (h : s.Tracks d) {id : ℕ} (hid : id < s.made)
    (hne : (s.sockets id).readyState ≠ .closed)
    (hc : (s.effects (s.sockets id).effect).closed = false) :
    (d.phase = .dialing ∨ d.phase = .up) ∧
      (s.effects (s.sockets id).effect).backoff = d.backoff ∧
      ((s.become id .closed).onclose id).Tracks ⟨.waiting, policy.next d.backoff⟩ := by
  have hrun := (h.closed _ (h.own id hid).1).mp hc
  obtain ⟨hlast, hbackoff⟩ := h.running _ hrun
  obtain ⟨hcurrent, hwaiting⟩ := (h.own id hid).2 hrun hne
  have hphase : d.phase = .dialing ∨ d.phase = .up := by
    cases hd : d.phase with
    | off =>
      rw [h.off.mp hd] at hrun
      cases hrun
    | dialing => exact Or.inl rfl
    | up => exact Or.inr rfl
    | waiting => exact absurd hd hwaiting
  have htimers (t : ℕ) : s.timers t = none := by
    cases ht : s.timers t with
    | none => rfl
    | some timer => exact absurd (h.timer t timer ht).2.1 hwaiting
  have hclose : (s.become id .closed).onclose id = { s.become id .closed with
      connected := false
      timers := update s.timers s.issued (some ⟨(s.sockets id).effect, d.backoff⟩)
      issued := s.issued + 1
      effects := update s.effects (s.sockets id).effect
        ⟨false, policy.next d.backoff, some s.issued⟩ } := by
    simp [onclose, hc, hbackoff, policy, Backoff.next]
  refine ⟨hphase, hbackoff, ?_⟩
  rw [hclose]
  constructor
  · intro e he
    have hclosed := h.closed e he
    by_cases heq : e = (s.sockets id).effect
    · simp [heq, hrun]
    · simpa [heq] using hclosed
  · intro e he
    obtain rfl := Option.some.inj (hrun.symm.trans he)
    exact ⟨hlast, by simp⟩
  · exact iff_of_false (by simp) (by simp [hrun])
  · simpa using h.current
  · intro other hother
    refine ⟨by simpa using (h.own other hother).1, fun hrun' hne' => absurd ?_ hne'⟩
    by_cases heq : other = id
    · simp [heq]
    · simp only [become_sockets_of_ne s heq] at hne' ⊢
      by_contra hopen
      exact heq (h.eq_current hother (by simpa using hrun') hopen hcurrent).symm
  · intro other hother hnot
    have heq : other ≠ id := fun heq => hnot (by simpa [heq] using hrun)
    simp only [become_sockets_of_ne s heq]
    exact h.other other hother (by simpa using hnot)
  · intro other hother hconnecting
    by_cases heq : other = id
    · simp [heq] at hconnecting
    · simp only [become_sockets_of_ne s heq] at hconnecting
      have hrun' := h.running_of_live hother (Or.inl hconnecting)
      exact absurd (h.eq_current hother hrun' (by rw [hconnecting]; decide) hcurrent).symm heq
  · intro other hother hopened
    by_cases heq : other = id
    · simp [heq] at hopened
    · simp only [become_sockets_of_ne s heq] at hopened
      have hrun' := h.running_of_live hother (Or.inr hopened)
      exact absurd (h.eq_current hother hrun' (by rw [hopened]; decide) hcurrent).symm heq
  · simp
  · intro t timer ht
    by_cases heq : t = s.issued
    · simp only [heq, Function.update_self, Option.some.injEq] at ht
      subst ht
      simp [heq, hrun]
    · simp [heq, htimers t] at ht
  · exact fun _ => ⟨s.issued, _, Function.update_self ..⟩

@[simp] theorem close_made (id : ℕ) : (s.close id).made = s.made := by
  unfold close
  split <;> rfl

@[simp] theorem close_runs (id : ℕ) : (s.close id).runs = s.runs := by
  unfold close
  split <;> rfl

@[simp] theorem close_effects (id : ℕ) : (s.close id).effects = s.effects := by
  unfold close
  split <;> rfl

@[simp] theorem close_timers (id : ℕ) : (s.close id).timers = s.timers := by
  unfold close
  split <;> rfl

@[simp] theorem close_running (id : ℕ) : (s.close id).running = s.running := by
  unfold close
  split <;> rfl

@[simp] theorem close_connected (id : ℕ) : (s.close id).connected = s.connected := by
  unfold close
  split <;> rfl

@[simp] theorem close_effect (id other : ℕ) :
    ((s.close id).sockets other).effect = (s.sockets other).effect := by
  unfold close
  split <;> simp

theorem close_sockets_of_ne {id other : ℕ} (h : other ≠ id) :
    (s.close id).sockets other = s.sockets other := by
  unfold close
  split
  · exact become_sockets_of_ne s h _
  · exact become_sockets_of_ne s h _
  · rfl

theorem close_readyState (id : ℕ) : ((s.close id).sockets id).readyState = .closing ∨
    ((s.close id).sockets id).readyState = .closed := by
  unfold close
  cases h : (s.sockets id).readyState <;> simp [h]

theorem cleanup_eq (effect : ℕ) : s.cleanup effect = { s with
    sockets := s.closeCurrent.sockets
    timers := (s.clearTimeout (s.effects effect).retry).timers
    effects := update s.effects effect { s.effects effect with closed := true }
    running := none
    current := none } := by
  have hretry : (update s.effects effect { s.effects effect with closed := true } effect).retry =
      (s.effects effect).retry := by simp
  unfold cleanup closeCurrent
  dsimp only
  rw [hretry]
  cases (s.effects effect).retry with
  | none =>
    cases s.current with
    | none => simp [clearTimeout]
    | some id => cases hr : (s.sockets id).readyState <;> simp [clearTimeout, close, hr, become]
  | some timer =>
    cases s.current with
    | none => simp [clearTimeout]
    | some id => cases hr : (s.sockets id).readyState <;> simp [clearTimeout, close, hr, become]

theorem Tracks.clearTimeout (h : s.Tracks d) {effect : ℕ} (hrun : s.running = some effect) (t : ℕ) :
    (s.clearTimeout (s.effects effect).retry).timers t = none := by
  have hown : ∀ timer, s.timers t = some timer → (s.effects effect).retry = some t := by
    intro timer ht
    obtain ⟨-, -, hrun', hretry⟩ := h.timer t timer ht
    rwa [← Option.some.inj (hrun.symm.trans hrun')] at hretry
  unfold Hook.clearTimeout
  cases hretry : (s.effects effect).retry with
  | none =>
    cases ht : s.timers t with
    | none => rfl
    | some timer =>
      rw [hown timer ht] at hretry
      cases hretry
  | some retry =>
    by_cases heq : t = retry
    · simp [heq]
    · cases ht : s.timers t with
      | none => simp [heq, ht]
      | some timer =>
        rw [hown timer ht] at hretry
        exact absurd (Option.some.inj hretry) heq

theorem Tracks.closeCurrent (h : s.Tracks d) {id : ℕ} (hid : id < s.made) :
    (s.closeCurrent.sockets id).effect = (s.sockets id).effect ∧
      ((s.closeCurrent.sockets id).readyState = .closing ∨
        (s.closeCurrent.sockets id).readyState = .closed) := by
  have hother (hne : s.current ≠ some id) : (s.sockets id).readyState = .closing ∨
      (s.sockets id).readyState = .closed := by
    by_cases hrun : s.running = some (s.sockets id).effect
    · right
      by_contra hopen
      exact hne ((h.own id hid).2 hrun hopen).1
    · exact h.other id hid hrun
  unfold Hook.closeCurrent
  cases hc : s.current with
  | none => exact ⟨rfl, hother (by rw [hc]; exact Option.some_ne_none _ ∘ Eq.symm)⟩
  | some current =>
    refine ⟨close_effect .., ?_⟩
    by_cases heq : id = current
    · rw [heq]
      exact close_readyState current
    · rw [close_sockets_of_ne heq]
      exact hother (by rw [hc]; exact fun h => heq (Option.some.inj h).symm)

theorem Tracks.cleanup (h : s.Tracks d) {effect : ℕ} (hrun : s.running = some effect) :
    (s.cleanup effect).Tracks ⟨.off, d.backoff⟩ := by
  rw [cleanup_eq]
  constructor
  · intro e he
    have hclosed := h.closed e he
    by_cases heq : e = effect
    · simp [heq]
    · simpa [heq, hrun, Ne.symm heq] using hclosed
  · simp
  · simp
  · simp
  · intro id hid
    rw [(h.closeCurrent hid).1]
    exact ⟨(h.own id hid).1, by simp⟩
  · exact fun id hid _ => (h.closeCurrent hid).2
  · intro id hid hconnecting
    have hend := (h.closeCurrent hid).2
    rw [hconnecting] at hend
    simp at hend
  · intro id hid hopened
    have hend := (h.closeCurrent hid).2
    rw [hopened] at hend
    simp at hend
  · simp
  · intro t timer ht
    rw [h.clearTimeout hrun] at ht
    cases ht
  · simp

end Hook

theorem hook_simulates : hook.Simulates (dialer policy) Hook.Tracks where
  init s hs := ⟨⟨.off, initialBackoffMs⟩, rfl, by rw [hs]; exact .initial⟩
  step s d o t h hstep := by
    cases hstep with
    | mount hrun => exact ⟨_, .of_step (.start (h.off.mpr hrun)), h.mount hrun⟩
    | cleanup hrun =>
      have hphase : d.phase ≠ .off := fun hoff => by
        rw [h.off.mp hoff] at hrun
        cases hrun
      exact ⟨_, .of_step (.stop hphase), h.cleanup hrun⟩
    | opened hid hc => exact ⟨_, .of_step (.opened (h.connecting _ hid hc)), h.opened_step hid hc⟩
    | message => exact ⟨d, .nil, h⟩
    | error => exact ⟨d, .nil, h.close _⟩
    | lost hid hne hc =>
      obtain ⟨hphase, hbackoff, htracks⟩ := h.lost_step hid hne hc
      rw [hbackoff]
      exact ⟨_, .of_step (.lost hphase), htracks⟩
    | closed hid hne hc => exact ⟨d, .nil, h.closed_step hid hc⟩
    | redial ht hc => exact ⟨_, .of_step (.redial (h.timer _ _ ht).2.1), h.redial ht⟩
    | idle ht hc =>
      have hrun := (h.timer _ _ ht).2.2.1
      rw [(h.closed _ (by have := (h.running _ hrun).1; omega)).mpr hrun] at hc
      cases hc

/-- A run of the effect has one socket that is not closed or one timer, and behind it there is no
timer and nothing that can still open. -/
structure Hook.OneConnection (s : Hook) : Prop where
  socket : ∀ id < s.made, ∀ other < s.made,
    (s.sockets id).readyState = .connecting ∨ (s.sockets id).readyState = .opened →
    (s.sockets other).readyState = .connecting ∨ (s.sockets other).readyState = .opened → id = other
  timer : ∀ t t', (s.timers t).isSome → (s.timers t').isSome → t = t'
  live : ∀ id < s.made,
    (s.sockets id).readyState = .connecting ∨ (s.sockets id).readyState = .opened →
    s.running = some (s.sockets id).effect ∧ ∀ t, s.timers t = none
  working : s.running.isSome ↔
    (∃ id < s.made, s.running = some (s.sockets id).effect ∧ (s.sockets id).readyState ≠ .closed) ∨
      ∃ t, (s.timers t).isSome

theorem Hook.Tracks.oneConnection (h : s.Tracks d) :
    s.OneConnection := by
  have hcurrent {id : ℕ} (hid : id < s.made)
      (hlive : (s.sockets id).readyState = .connecting ∨ (s.sockets id).readyState = .opened) :
      s.current = some id ∧ d.phase ≠ .waiting := by
    refine (h.own id hid).2 (h.running_of_live hid hlive) ?_
    rintro hclosed
    simp [hclosed] at hlive
  constructor
  · intro id hid other hother hlive hlive'
    exact Option.some.inj ((hcurrent hid hlive).1.symm.trans (hcurrent hother hlive').1)
  · intro t t' ht ht'
    obtain ⟨timer, ht⟩ := Option.isSome_iff_exists.mp ht
    obtain ⟨timer', ht'⟩ := Option.isSome_iff_exists.mp ht'
    obtain ⟨-, -, hrun, hretry⟩ := h.timer t timer ht
    obtain ⟨-, -, hrun', hretry'⟩ := h.timer t' timer' ht'
    rw [← Option.some.inj (hrun.symm.trans hrun'), hretry] at hretry'
    exact Option.some.inj hretry'
  · intro id hid hlive
    refine ⟨h.running_of_live hid hlive, fun t => ?_⟩
    cases ht : s.timers t with
    | none => rfl
    | some timer => exact absurd (h.timer t timer ht).2.1 (hcurrent hid hlive).2
  · constructor
    · intro hrun
      have hoff : d.phase ≠ .off := fun hoff => by
        rw [h.off.mp hoff] at hrun
        cases hrun
      by_cases hwaiting : d.phase = .waiting
      · obtain ⟨t, timer, ht⟩ := h.armed hwaiting
        exact Or.inr ⟨t, by rw [ht]; rfl⟩
      · have hbusy : d.phase = .dialing ∨ d.phase = .up := by
          cases hd : d.phase <;> simp_all
        obtain ⟨id, hid, hne⟩ := h.busy hbusy
        exact Or.inl ⟨id, (h.current id hid).1, (h.current id hid).2, hne⟩
    · rintro (⟨id, -, hrun, -⟩ | ⟨t, ht⟩)
      · rw [hrun]
        rfl
      · obtain ⟨timer, ht⟩ := Option.isSome_iff_exists.mp ht
        rw [(h.timer t timer ht).2.2.1]
        rfl

def Hook.dropped : Hook :=
  (((initial.mount.become 0 .opened).onopen 0).become 0 .closed).onclose 0

theorem hook_drops :
    ∃ s, hook.Run .initial [.start, .opened, .lost 500, .redial, .lost 1000] s := by
  have hmount : hook.step .initial (some .start) Hook.initial.mount := .mount rfl
  have hopened := Hook.Step.opened (s := Hook.initial.mount) (i := 0) (by decide) rfl
  have hlost := Hook.Step.lost (s := (Hook.initial.mount.become 0 .opened).onopen 0) (i := 0)
    (by decide) (by decide) rfl
  have hredial := Hook.Step.redial (s := .dropped) (t := 0) rfl rfl
  have hfailed := Hook.Step.lost (i := 1) (by decide) (by decide) rfl
    (s := { Hook.dropped with timers := update Hook.dropped.timers 0 none }.openSocket 0)
  exact ⟨_, ((((LTS.Run.nil.snoc hmount).snoc hopened).snoc hlost).snoc hredial).snoc hfailed⟩

end Ledger.Frontend.BlockStream

import Mathlib.Logic.Function.Basic
import Mathlib.Logic.Relation
import Mathlib.Tactic.Common

/-! Shutdown: `ServerHandle::stop` from any thread, against one `serve` and the vendored
`httplib::Server`. A step is a region under the handle's mutex or one access to an atomic. -/
namespace Ledger.Shutdown

/-- Where a call of `ServerHandle::stop` stands. -/
inductive Stop
  | idle
  /-- At the `lock_guard`. -/
  | waiting
  | locked
  /-- In `Server::stop`, before it reads `is_running_`. -/
  | calling
  /-- Before `svr_sock_.exchange(INVALID_SOCKET)`. -/
  | exchanging
  /-- Before the socket taken is closed; `valid` if it is not `INVALID_SOCKET`. -/
  | closing (valid : Bool)
  /-- Before `is_decommisioned = false`. -/
  | resetting
  | unlocking
  | returned
  deriving DecidableEq

inductive Serve
  | notStarted
  /-- Before `attach`. -/
  | starting
  /-- In `Server::listen`, before the bind. -/
  | attached
  /-- In `listen_internal`, before `is_running_ = true`. -/
  | bound
  /-- At the condition of the accept loop. -/
  | looping
  | accepting
  /-- `accept` gave an error that ends the loop. -/
  | acceptFailed
  /-- Before the loop's own `close_socket`. -/
  | closingSocket
  | leaving (ret : Bool)
  /-- Before `is_running_ = false`. -/
  | exiting
  | detaching
  | returned
  deriving DecidableEq

def Stop.inside : Stop → Bool
  | .idle | .waiting | .returned => false
  | _ => true

def Stop.pending : Stop → Bool
  | .idle | .returned => false
  | _ => true

def Stop.early : Stop → Bool
  | .idle | .waiting | .locked | .calling => true
  | _ => false

def Serve.attaches : Serve → Bool
  | .notStarted | .starting | .returned => false
  | _ => true

def Serve.opening : Serve → Bool
  | .attached | .bound => true
  | _ => false

def Serve.running : Serve → Bool
  | .looping | .accepting | .acceptFailed | .closingSocket | .leaving _ | .exiting => true
  | _ => false

def Serve.inAcceptLoop : Serve → Bool
  | .looping | .accepting | .acceptFailed | .closingSocket => true
  | _ => false

/-- The handle (`mtx`, `srv`, `stopped`), the server (`svrSock` when `svr_sock_` is not
`INVALID_SOCKET`, `isRunning`, `isDecommisioned`), whether the listening socket is open, and
where each thread stands. `attach` and `detach` hold the mutex in one step; `mtx` names the
call of `stop` that holds it in between. -/
structure State where
  mtx : Option ℕ
  srv : Bool
  stopped : Bool
  svrSock : Bool
  isRunning : Bool
  isDecommisioned : Bool
  socketOpen : Bool
  serve : Serve
  stops : ℕ → Stop

def State.initial : State where
  mtx := none
  srv := false
  stopped := false
  svrSock := false
  isRunning := false
  isDecommisioned := false
  socketOpen := false
  serve := .notStarted
  stops _ := .idle

def State.setStop (s : State) (i : ℕ) (p : Stop) : State :=
  { s with stops := Function.update s.stops i p }

/-- The steps of the `i`-th call of `stop`. The assertion that `svr_sock_` is valid is compiled
out, as in a release build; with it a second call can end the process. -/
inductive StopStep (i : ℕ) : State → State → Prop
  | call (s : State) (h : s.stops i = .idle) : StopStep i s (s.setStop i .waiting)
  | lock (s : State) (h : s.stops i = .waiting) (hm : s.mtx = none) :
    StopStep i s ({ s with mtx := some i, stopped := true }.setStop i .locked)
  | attached (s : State) (h : s.stops i = .locked) (hs : s.srv = true) :
    StopStep i s (s.setStop i .calling)
  | detached (s : State) (h : s.stops i = .locked) (hs : s.srv = false) :
    StopStep i s (s.setStop i .unlocking)
  | running (s : State) (h : s.stops i = .calling) (hr : s.isRunning = true) :
    StopStep i s (s.setStop i .exchanging)
  | notRunning (s : State) (h : s.stops i = .calling) (hr : s.isRunning = false) :
    StopStep i s (s.setStop i .resetting)
  | exchange (s : State) (h : s.stops i = .exchanging) :
    StopStep i s ({ s with svrSock := false }.setStop i (.closing s.svrSock))
  | closeSocket (s : State) (valid : Bool) (h : s.stops i = .closing valid) :
    StopStep i s ({ s with socketOpen := s.socketOpen && !valid }.setStop i .resetting)
  | reset (s : State) (h : s.stops i = .resetting) :
    StopStep i s ({ s with isDecommisioned := false }.setStop i .unlocking)
  | unlock (s : State) (h : s.stops i = .unlocking) :
    StopStep i s ({ s with mtx := none }.setStop i .returned)

inductive ServeStep : State → State → Prop
  | start (s : State) (h : s.serve = .notStarted) : ServeStep s { s with serve := .starting }
  | attach (s : State) (h : s.serve = .starting) (hm : s.mtx = none) (hs : s.stopped = false) :
    ServeStep s { s with srv := true, serve := .attached }
  | attachStopped (s : State) (h : s.serve = .starting) (hm : s.mtx = none)
      (hs : s.stopped = true) :
    ServeStep s { s with serve := .returned }
  | bind (s : State) (h : s.serve = .attached) (hd : s.isDecommisioned = false) :
    ServeStep s { s with svrSock := true, socketOpen := true, serve := .bound }
  /-- No socket, or one whose port cannot be read back. -/
  | bindFailed (s : State) (sock : Bool) (h : s.serve = .attached)
      (hd : s.isDecommisioned = false) :
    ServeStep s { s with
      svrSock := sock, socketOpen := sock, isDecommisioned := true, serve := .detaching }
  | bindRefused (s : State) (h : s.serve = .attached) (hd : s.isDecommisioned = true) :
    ServeStep s { s with serve := .detaching }
  | run (s : State) (h : s.serve = .bound) (hd : s.isDecommisioned = false) :
    ServeStep s { s with isRunning := true, serve := .looping }
  | runRefused (s : State) (h : s.serve = .bound) (hd : s.isDecommisioned = true) :
    ServeStep s { s with serve := .detaching }
  | loop (s : State) (h : s.serve = .looping) (hv : s.svrSock = true) :
    ServeStep s { s with serve := .accepting }
  | loopEnd (s : State) (h : s.serve = .looping) (hv : s.svrSock = false) :
    ServeStep s { s with serve := .leaving true }
  /-- A connection, or an error that is tried again. -/
  | accepted (s : State) (h : s.serve = .accepting) : ServeStep s { s with serve := .looping }
  | acceptError (s : State) (h : s.serve = .accepting) :
    ServeStep s { s with serve := .acceptFailed }
  | failed (s : State) (h : s.serve = .acceptFailed) (hv : s.svrSock = true) :
    ServeStep s { s with serve := .closingSocket }
  /-- "The server socket was closed by user." -/
  | closedByUser (s : State) (h : s.serve = .acceptFailed) (hv : s.svrSock = false) :
    ServeStep s { s with serve := .leaving true }
  | closeSocket (s : State) (h : s.serve = .closingSocket) :
    ServeStep s { s with socketOpen := s.socketOpen && !s.svrSock, serve := .leaving false }
  | leave (s : State) (ret : Bool) (h : s.serve = .leaving ret) :
    ServeStep s { s with isDecommisioned := !ret, serve := .exiting }
  | exit (s : State) (h : s.serve = .exiting) :
    ServeStep s { s with isRunning := false, serve := .detaching }
  | detach (s : State) (h : s.serve = .detaching) (hm : s.mtx = none) :
    ServeStep s { s with srv := false, serve := .returned }

def Step (s t : State) : Prop := ServeStep s t ∨ ∃ i, StopStep i s t

/-- A step of any thread, but no `stop` reads `is_running_` while the server is attached and has
not set it. -/
def ReadyStep (s t : State) : Prop :=
  ServeStep s t ∨ ∃ i, StopStep i s t ∧ (s.stops i = .calling → s.serve.opening = false)

/-- A stop request is lost: some `stop` has returned, none is pending, and `serve` is in its
accept loop, or gets there by itself, with the listening socket open. -/
def Lost (s : State) : Prop :=
  (∃ i, s.stops i = .returned) ∧ (∀ i, (s.stops i).pending = false) ∧
    ∃ t, Relation.ReflTransGen ServeStep s t ∧ t.serve.inAcceptLoop = true ∧ t.socketOpen = true

theorem setStop_self (s : State) (i : ℕ) (p : Stop) : (s.setStop i p).stops i = p :=
  Function.update_self ..

theorem setStop_of_ne (s : State) {i j : ℕ} (hj : j ≠ i) (p : Stop) :
    (s.setStop i p).stops j = s.stops j :=
  Function.update_of_ne hj ..

theorem StopStep.stops_of_ne {s t : State} {i j : ℕ} (h : StopStep i s t) (hj : j ≠ i) :
    t.stops j = s.stops j := by
  cases h <;> exact setStop_of_ne _ hj _

theorem StopStep.serve_eq {s t : State} {i : ℕ} (h : StopStep i s t) : t.serve = s.serve := by
  cases h <;> rfl

theorem StopStep.socketOpen_of {s t : State} {i : ℕ} (h : StopStep i s t)
    (ho : t.socketOpen = true) : s.socketOpen = true := by
  cases h with
  | closeSocket valid h0 => exact (Bool.and_eq_true_iff.mp ho).1
  | _ => exact ho

/-- The mutex and the fields it guards agree with where the threads stand. -/
structure Guarded (s : State) : Prop where
  holder : ∀ i, (s.stops i).inside = true ↔ s.mtx = some i
  stopped : ∀ i, (s.stops i).inside = true ∨ s.stops i = .returned → s.stopped = true
  srv : s.srv = s.serve.attaches
  running : s.isRunning = s.serve.running

theorem guarded_initial : Guarded State.initial where
  holder i := by simp [State.initial, Stop.inside]
  stopped i h := by simp [State.initial, Stop.inside] at h
  srv := rfl
  running := rfl

theorem Guarded.setStop {s : State} (hs : Guarded s) {i : ℕ} {p : Stop}
    (hp : p.inside = (s.stops i).inside) (hr : p ≠ .returned) : Guarded (s.setStop i p) where
  holder j := by
    by_cases hj : j = i
    · subst hj
      rw [setStop_self, hp]
      exact hs.holder j
    · rw [setStop_of_ne s hj]
      exact hs.holder j
  stopped j h := by
    by_cases hj : j = i
    · subst hj
      rw [setStop_self, hp] at h
      exact hs.stopped j (h.imp_right fun h => absurd h hr)
    · rw [setStop_of_ne s hj] at h
      exact hs.stopped j h
  srv := hs.srv
  running := hs.running

theorem Guarded.lock {s : State} (hs : Guarded s) {i : ℕ} (hm : s.mtx = none) :
    Guarded ({ s with mtx := some i, stopped := true }.setStop i .locked) where
  holder j := by
    by_cases hj : j = i
    · subst hj
      rw [setStop_self]
      exact iff_of_true rfl rfl
    · have hout : ¬(s.stops j).inside = true := fun h => by
        rw [hs.holder j, hm] at h
        cases h
      rw [setStop_of_ne _ hj]
      exact iff_of_false hout fun h => hj (Option.some.inj h).symm
  stopped _ _ := rfl
  srv := hs.srv
  running := hs.running

theorem Guarded.unlock {s : State} (hs : Guarded s) {i : ℕ} (h : s.stops i = .unlocking) :
    Guarded ({ s with mtx := none }.setStop i .returned) where
  holder j := by
    have hi : s.mtx = some i := (hs.holder i).mp (by rw [h]; rfl)
    by_cases hj : j = i
    · subst hj
      rw [setStop_self]
      exact iff_of_false (by simp [Stop.inside]) (by simp [State.setStop])
    · have hout : ¬(s.stops j).inside = true := fun h => by
        rw [hs.holder j, hi] at h
        exact hj (Option.some.inj h).symm
      rw [setStop_of_ne _ hj]
      exact iff_of_false hout (by simp [State.setStop])
  stopped _ _ := hs.stopped i (Or.inl (by rw [h]; rfl))
  srv := hs.srv
  running := hs.running

theorem Guarded.stopStep {s t : State} {i : ℕ} (hs : Guarded s) (h : StopStep i s t) :
    Guarded t := by
  cases h with
  | call h0 | attached h0 | detached h0 | running h0 | notRunning h0 =>
    exact hs.setStop (congrArg Stop.inside h0).symm (by simp)
  | lock h0 hm => exact hs.lock hm
  | unlock h0 => exact hs.unlock h0
  | exchange h0 =>
    have hsock : Guarded { s with svrSock := false } := ⟨hs.holder, hs.stopped, hs.srv, hs.running⟩
    exact hsock.setStop (congrArg Stop.inside h0).symm (by simp)
  | closeSocket valid h0 =>
    have hsock : Guarded { s with socketOpen := s.socketOpen && !valid } :=
      ⟨hs.holder, hs.stopped, hs.srv, hs.running⟩
    exact hsock.setStop (congrArg Stop.inside h0).symm (by simp)
  | reset h0 =>
    have hflag : Guarded { s with isDecommisioned := false } :=
      ⟨hs.holder, hs.stopped, hs.srv, hs.running⟩
    exact hflag.setStop (congrArg Stop.inside h0).symm (by simp)

theorem Guarded.serveStep {s t : State} (hs : Guarded s) (h : ServeStep s t) : Guarded t := by
  have hsrv := hs.srv
  have hrun := hs.running
  constructor
  · cases h <;> exact hs.holder
  · cases h <;> exact hs.stopped
  · cases h <;> simp_all [Serve.attaches]
  · cases h <;> simp_all [Serve.running]

theorem Guarded.eq_of_inside {s : State} (hs : Guarded s) {i j : ℕ}
    (hi : (s.stops i).inside = true) (hj : (s.stops j).inside = true) : i = j :=
  Option.some.inj (((hs.holder i).mp hi).symm.trans ((hs.holder j).mp hj))

/-- A socket left open by the stops that have got past it is one that a stop is about to close. -/
structure Inv (s : State) : Prop extends Guarded s where
  opening : s.serve.opening = true → ∀ i, (s.stops i).early = true
  bound : s.serve = .bound → s.svrSock = true
  listening : s.serve.running = true → s.socketOpen = true → ∀ i,
    (s.stops i).early = true ∨ s.stops i = .exchanging ∨ s.stops i = .closing true
  taken : s.serve.running = true → s.socketOpen = true → s.svrSock = false →
    ∃ i, s.stops i = .closing true

theorem inv_initial : Inv State.initial where
  toGuarded := guarded_initial
  opening h := by simp [State.initial, Serve.opening] at h
  bound h := by simp [State.initial] at h
  listening h := by simp [State.initial, Serve.running] at h
  taken h := by simp [State.initial, Serve.running] at h

theorem Serve.attaches_of_opening {p : Serve} (h : p.opening = true) : p.attaches = true := by
  cases p <;> simp_all [Serve.opening, Serve.attaches]

theorem Serve.attaches_of_running {p : Serve} (h : p.running = true) : p.attaches = true := by
  cases p <;> simp_all [Serve.running, Serve.attaches]

/-- The stop that takes the socket finds it valid while the loop still listens on it. -/
theorem Inv.svrSock_of_exchanging {s : State} (hs : Inv s) {i : ℕ}
    (hi : s.stops i = .exchanging) (hr : s.serve.running = true) (ho : s.socketOpen = true) :
    s.svrSock = true := by
  by_contra hv
  obtain ⟨k, hk⟩ := hs.taken hr ho (by simpa using hv)
  have hik : i = k := hs.eq_of_inside (by rw [hi]; rfl) (by rw [hk]; rfl)
  rw [hik, hk] at hi
  exact Stop.noConfusion hi

/-- Before `is_running_` is set no stop gets past its look at it. -/
theorem Inv.opening_stopStep {s t : State} {i : ℕ} (hs : Inv s) (h : StopStep i s t)
    (hready : s.stops i = .calling → s.serve.opening = false) (ho : t.serve.opening = true) :
    ∀ j, (t.stops j).early = true := by
  intro j
  rw [h.serve_eq] at ho
  have hi := hs.opening ho i
  have hsrv : s.srv = true := by
    rw [hs.srv]
    exact Serve.attaches_of_opening ho
  by_cases hj : j = i
  · subst hj
    cases h with
    | call | lock | attached =>
      rw [setStop_self]
      rfl
    | detached h0 hd => rw [hd] at hsrv; cases hsrv
    | running h0 | notRunning h0 => rw [hready h0] at ho; cases ho
    | exchange h0 | closeSocket _ h0 | reset h0 | unlock h0 =>
      rw [h0] at hi
      cases hi
  · rw [h.stops_of_ne hj]
    exact hs.opening ho j

/-- While the loop listens, a stop gets past its look at `is_running_` only to take the socket and
to close it. -/
theorem Inv.listening_stopStep {s t : State} {i : ℕ} (hs : Inv s) (h : StopStep i s t)
    (hr : t.serve.running = true) (ho : t.socketOpen = true) :
    ∀ j, (t.stops j).early = true ∨ t.stops j = .exchanging ∨ t.stops j = .closing true := by
  intro j
  rw [h.serve_eq] at hr
  have hopen := h.socketOpen_of ho
  have hi := hs.listening hr hopen i
  have hsrv : s.srv = true := by
    rw [hs.srv]
    exact Serve.attaches_of_running hr
  have hrun : s.isRunning = true := by
    rw [hs.running]
    exact hr
  by_cases hj : j = i
  · subst hj
    cases h with
    | call | lock | attached => exact Or.inl (by rw [setStop_self]; rfl)
    | detached h0 hd => rw [hd] at hsrv; cases hsrv
    | running h0 => exact Or.inr (Or.inl (setStop_self ..))
    | notRunning h0 hn => rw [hn] at hrun; cases hrun
    | exchange h0 =>
      refine Or.inr (Or.inr ?_)
      rw [setStop_self, hs.svrSock_of_exchanging h0 hr hopen]
    | closeSocket valid h0 =>
      obtain rfl : valid = true := by simpa [h0, Stop.early] using hi
      have hclosed := (Bool.and_eq_true_iff.mp ho).2
      cases hclosed
    | reset h0 | unlock h0 => simp [h0, Stop.early] at hi
  · rw [h.stops_of_ne hj]
    exact hs.listening hr hopen j

theorem Inv.taken_stopStep {s t : State} {i : ℕ} (hs : Inv s) (h : StopStep i s t)
    (hr : t.serve.running = true) (ho : t.socketOpen = true) (hv : t.svrSock = false) :
    ∃ k, t.stops k = .closing true := by
  rw [h.serve_eq] at hr
  have hopen := h.socketOpen_of ho
  by_cases hsv : s.svrSock = true
  · cases h with
    | exchange h0 => exact ⟨i, by rw [setStop_self, hsv]⟩
    | _ => cases hsv.symm.trans hv
  · obtain ⟨k, hk⟩ := hs.taken hr hopen (by simpa using hsv)
    by_cases hki : k = i
    · -- the only step from there closes the socket
      subst hki
      cases h with
      | closeSocket valid h0 =>
        obtain rfl : valid = true := Stop.closing.inj (h0.symm.trans hk)
        cases (Bool.and_eq_true_iff.mp ho).2
      | call h0 | lock h0 | attached h0 | detached h0 | running h0 | notRunning h0 | exchange h0
      | reset h0 | unlock h0 => cases h0.symm.trans hk
    · exact ⟨k, (h.stops_of_ne hki).trans hk⟩

theorem Inv.stopStep {s t : State} {i : ℕ} (hs : Inv s) (h : StopStep i s t)
    (hready : s.stops i = .calling → s.serve.opening = false) : Inv t where
  toGuarded := hs.toGuarded.stopStep h
  opening := hs.opening_stopStep h hready
  bound hb := by
    cases h with
    | exchange h0 =>
      have hearly := hs.opening (by rw [show s.serve = .bound from hb]; rfl) i
      rw [h0] at hearly
      cases hearly
    | _ => exact hs.bound hb
  listening := hs.listening_stopStep h
  taken := hs.taken_stopStep h

theorem Inv.serveStep {s t : State} (hs : Inv s) (h : ServeStep s t) : Inv t where
  toGuarded := hs.toGuarded.serveStep h
  opening ho := by
    cases h with
    | attach h0 hm hf =>
      intro i
      have hst := hs.stopped i
      cases hi : s.stops i <;> simp_all [Stop.inside, Stop.early]
    | bind h0 => exact hs.opening (by rw [h0]; rfl)
    | _ => simp [Serve.opening] at ho
  bound hb := by
    cases h with
    | bind => rfl
    | _ => simp at hb
  listening hr ho := by
    cases h with
    | run h0 => exact fun i => .inl (hs.opening (by rw [h0]; rfl) i)
    | closeSocket h0 => exact hs.listening (by rw [h0]; rfl) (by simp_all)
    | loop h0 | loopEnd h0 | accepted h0 | acceptError h0 | failed h0 | closedByUser h0
    | leave _ h0 =>
      exact hs.listening (by rw [h0]; rfl) ho
    | _ => simp [Serve.running] at hr
  taken hr ho hv := by
    cases h with
    | run h0 => simp_all [hs.bound h0]
    | closeSocket h0 => exact hs.taken (by rw [h0]; rfl) (by simp_all) hv
    | loop h0 | loopEnd h0 | accepted h0 | acceptError h0 | failed h0 | closedByUser h0
    | leave _ h0 =>
      exact hs.taken (by rw [h0]; rfl) ho hv
    | _ => simp [Serve.running] at hr

theorem inv_of_run {s : State} (h : Relation.ReflTransGen ReadyStep State.initial s) : Inv s := by
  induction h with
  | refl => exact inv_initial
  | tail _ hstep ih =>
    rcases hstep with h | ⟨i, h, hready⟩
    · exact ih.serveStep h
    · exact ih.stopStep h hready

theorem Serve.running_of_inAcceptLoop {p : Serve} (h : p.inAcceptLoop = true) :
    p.running = true := by
  cases p <;> simp_all [Serve.inAcceptLoop, Serve.running]

theorem serveSteps_stops {s t : State} (h : Relation.ReflTransGen ServeStep s t) :
    t.stops = s.stops := by
  induction h with
  | refl => rfl
  | tail _ hstep ih => rw [← ih]; cases hstep <;> rfl

theorem Inv.serveSteps {s t : State} (hs : Inv s) (h : Relation.ReflTransGen ServeStep s t) :
    Inv t := by
  induction h with
  | refl => exact hs
  | tail _ hstep ih => exact ih.serveStep hstep

/-- Once a stop has returned, `serve` does not listen any more, now or later. -/
theorem Inv.not_lost {s : State} (hs : Inv s) : ¬ Lost s := by
  rintro ⟨⟨i, hi⟩, -, t, hst, hloop, hopen⟩
  have hti : t.stops i = .returned := by rw [serveSteps_stops hst, hi]
  have := (hs.serveSteps hst).listening (Serve.running_of_inAcceptLoop hloop) hopen i
  simp [hti, Stop.early] at this

/-- No stop request is lost in a run in which no `stop` reads `is_running_` between `attach` and
the point where `listen_internal` sets it. -/
theorem stop_request_kept {s : State} (h : Relation.ReflTransGen ReadyStep State.initial s) :
    ¬ Lost s :=
  (inv_of_run h).not_lost

theorem stop_request_kept_sample : ∃ s, Relation.ReflTransGen ReadyStep State.initial s ∧
    s.stops 0 = .returned ∧ s.serve = .looping ∧ s.isRunning = true ∧ ¬ Lost s := by
  have stop {s t : State} (h : Relation.ReflTransGen ReadyStep State.initial s)
      (hrun : s.serve.opening = false) (hstep : StopStep 0 s t) :
      Relation.ReflTransGen ReadyStep State.initial t :=
    h.tail (.inr ⟨0, hstep, fun _ => hrun⟩)
  have h1 : Relation.ReflTransGen ReadyStep State.initial _ :=
    (((Relation.ReflTransGen.refl.tail (.inl (.start _ rfl))).tail
      (.inl (.attach _ rfl rfl rfl))).tail (.inl (.bind _ rfl rfl))).tail
      (.inl (.run _ rfl rfl))
  have h2 := stop (stop (stop (stop h1 rfl (.call _ rfl)) rfl (.lock _ rfl rfl)) rfl
    (.attached _ rfl rfl)) rfl (.running _ rfl rfl)
  have h3 := stop (stop (stop (stop h2 rfl (.exchange _ rfl)) rfl (.closeSocket _ _ rfl)) rfl
    (.reset _ rfl)) rfl (.unlock _ rfl)
  exact ⟨_, h3, rfl, rfl, rfl, stop_request_kept h3⟩

/-- A stop that reads `is_running_` after `attach` and before the bind changes nothing: `serve`
binds and accepts connections. -/
theorem stop_during_startup_lost :
    ∃ s, Relation.ReflTransGen Step State.initial s ∧ Lost s := by
  have h1 : Relation.ReflTransGen Step State.initial _ :=
    (Relation.ReflTransGen.refl.tail (.inl (.start _ rfl))).tail (.inl (.attach _ rfl rfl rfl))
  have h2 := ((h1.tail (.inr ⟨0, .call _ rfl⟩)).tail (.inr ⟨0, .lock _ rfl rfl⟩)).tail
    (.inr ⟨0, .attached _ rfl rfl⟩)
  have h3 := ((h2.tail (.inr ⟨0, .notRunning _ rfl rfl⟩)).tail (.inr ⟨0, .reset _ rfl⟩)).tail
    (.inr ⟨0, .unlock _ rfl⟩)
  refine ⟨_, h3, ⟨0, rfl⟩, fun i => ?_, _, ((Relation.ReflTransGen.refl.tail
    (.bind _ rfl rfl)).tail (.run _ rfl rfl)).tail (.loop _ rfl rfl), rfl, rfl⟩
  by_cases hi : i = 0
  · subst hi
    rfl
  · simp [State.setStop, Function.update_of_ne hi, State.initial, Stop.pending]

end Ledger.Shutdown

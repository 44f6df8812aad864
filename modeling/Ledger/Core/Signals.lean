import Ledger.Core.Shutdown
import Ledger.System.Rest

/-! The end of the process by a signal: the thread of `SignalWaiter`, which sits in `sigwait` and
then calls `ServerHandle::stop`, against `serve` and the destructor on the main thread. Both signals
are blocked in every thread and do not queue. -/
namespace Ledger.Signals
open Shutdown (StopStep ServeStep)

/-- Where the thread of `SignalWaiter` stands. -/
inductive Waiter
  /-- In `sigwait`. -/
  | waiting
  /-- Before it reads `winding_down_`. -/
  | woken
  /-- In `on_signal_`. -/
  | calling
  | returned
  deriving DecidableEq

/-- Where the main thread stands, from the constructor to the end of the destructor. -/
inductive Main
  /-- In the body of `run`. -/
  | running
  /-- `winding_down_` is set. -/
  | flagged
  /-- At `thread_.join()`. -/
  | joining
  | destroyed
  deriving DecidableEq

/-- `term` and `intr` are the signals pending for the process, `directed` the one that is pending
for the thread alone; `sent` if the process has been sent any. -/
structure State where
  term : Bool
  intr : Bool
  directed : Bool
  windingDown : Bool
  waiter : Waiter
  main : Main
  server : Shutdown.State
  sent : Bool

def State.initial : State where
  term := false
  intr := false
  directed := false
  windingDown := false
  waiter := .waiting
  main := .running
  server := .initial
  sent := false

/-- What the process does by itself. The call of `stop` is number 0. -/
inductive Internal : State → State → Prop
  | wakeDirected (s : State) (h : s.waiter = .waiting) (hp : s.directed = true) :
    Internal s { s with directed := false, waiter := .woken }
  | wakeTerm (s : State) (h : s.waiter = .waiting) (hp : s.term = true) :
    Internal s { s with term := false, waiter := .woken }
  | wakeIntr (s : State) (h : s.waiter = .waiting) (hp : s.intr = true) :
    Internal s { s with intr := false, waiter := .woken }
  | windDown (s : State) (h : s.waiter = .woken) (hw : s.windingDown = true) :
    Internal s { s with waiter := .returned }
  | call (s : State) (h : s.waiter = .woken) (hw : s.windingDown = false) :
    Internal s { s with waiter := .calling }
  | stop (s : State) (server : Shutdown.State) (h : s.waiter = .calling)
      (hstep : StopStep 0 s.server server) :
    Internal s { s with server := server }
  | called (s : State) (h : s.waiter = .calling) (hr : s.server.stops 0 = .returned) :
    Internal s { s with waiter := .returned }
  | serve (s : State) (server : Shutdown.State) (h : s.main = .running)
      (ha : s.server.serve ≠ .accepting) (hstep : ServeStep s.server server) :
    Internal s { s with server := server }
  /-- The socket was shut down under the `accept`. -/
  | acceptWoken (s : State) (h : s.main = .running) (ha : s.server.serve = .accepting)
      (ho : s.server.socketOpen = false) :
    Internal s { s with server := { s.server with serve := .acceptFailed } }
  /-- `run` is left: behind `serve`, or before it by an exception or a failed start. -/
  | leave (s : State) (h : s.main = .running)
      (hs : s.server.serve = .notStarted ∨ s.server.serve = .returned) :
    Internal s { s with windingDown := true, main := .flagged }
  | kill (s : State) (h : s.main = .flagged) :
    Internal s { s with directed := true, main := .joining }
  | join (s : State) (h : s.main = .joining) (hw : s.waiter = .returned) :
    Internal s { s with main := .destroyed }

/-- A signal from outside, or a connection that wakes the `accept`. -/
inductive Arrives : State → State → Prop
  | sigterm (s : State) : Arrives s { s with term := true, sent := true }
  | sigint (s : State) : Arrives s { s with intr := true, sent := true }
  | accepted (s : State) (h : s.main = .running) (ha : s.server.serve = .accepting)
      (ho : s.server.socketOpen = true) :
    Arrives s { s with server := { s.server with serve := .looping } }

/-- An error of `accept` that ends the loop, the socket being open. -/
inductive Breaks : State → State → Prop
  | acceptError (s : State) (h : s.main = .running) (ha : s.server.serve = .accepting) :
    Breaks s { s with server := { s.server with serve := .acceptFailed } }

def Step (s t : State) : Prop := Internal s t ∨ Arrives s t ∨ Breaks s t

/-- `stop` does not read `is_running_` in the step while the server is attached and has not set
it. -/
def Ready (s t : State) : Prop :=
  s.server.stops 0 = .calling → t.server.stops 0 ≠ .calling → s.server.serve.opening = false

def ReadyInternal (s t : State) : Prop := Internal s t ∧ Ready s t

def ReadyStep (s t : State) : Prop := Step s t ∧ Ready s t

/-- The server waits for connections, and no signal ends that. -/
structure Deaf (s : State) : Prop where
  main : s.main = .running
  waiter : s.waiter = .returned
  serve : s.server.serve = .looping ∨ s.server.serve = .accepting
  svrSock : s.server.svrSock = true
  socketOpen : s.server.socketOpen = true

variable {s t : State}

theorem Internal.server (h : Internal s t) : t.server = s.server ∨ ServeStep s.server t.server ∨
    (s.waiter = .calling ∧ t.waiter = .calling ∧ StopStep 0 s.server t.server) := by
  cases h with
  | stop server h hstep => exact Or.inr (Or.inr ⟨h, h, hstep⟩)
  | serve server h ha hstep => exact Or.inr (Or.inl hstep)
  | acceptWoken h ha ho => exact Or.inr (Or.inl (.acceptError _ ha))
  | _ => exact Or.inl rfl

theorem Step.server (h : Step s t) : t.server = s.server ∨ ServeStep s.server t.server ∨
    (s.waiter = .calling ∧ t.waiter = .calling ∧ StopStep 0 s.server t.server) := by
  rcases h with h | h | h
  · exact h.server
  · cases h with
    | accepted h ha ho => exact Or.inr (Or.inl (.accepted _ ha))
    | _ => exact Or.inl rfl
  · cases h with
    | acceptError h ha => exact Or.inr (Or.inl (.acceptError _ ha))

theorem StopStep.moves {s t : Shutdown.State} (h : StopStep 0 s t) : t.stops 0 ≠ s.stops 0 := by
  cases h <;> simp_all [Shutdown.setStop_self]

theorem ReadyStep.server (h : ReadyStep s t) :
    t.server = s.server ∨ Shutdown.ReadyStep s.server t.server := by
  rcases h.1.server with heq | hserve | ⟨-, -, hstop⟩
  · exact Or.inl heq
  · exact Or.inr (Or.inl hserve)
  · refine Or.inr (Or.inr ⟨0, hstop, fun hc => h.2 hc fun ht => ?_⟩)
    exact StopStep.moves hstop (ht.trans hc.symm)

abbrev Reachable (s : State) : Prop := Relation.ReflTransGen Step State.initial s

abbrev ReadyReachable (s : State) : Prop := Relation.ReflTransGen ReadyStep State.initial s

theorem ReadyReachable.reachable (h : ReadyReachable s) : Reachable s :=
  Relation.ReflTransGen.mono (fun _ _ h => h.1) _ _ h

theorem ReadyReachable.server (h : ReadyReachable s) : Shutdown.Inv s.server := by
  refine Shutdown.inv_of_run ?_
  induction h with
  | refl => exact .refl
  | tail _ hstep ih =>
    rcases hstep.server with heq | hready
    · rwa [heq]
    · exact ih.tail hready

theorem Step.stops_zero (h : Step s t) : t.server.stops 0 = s.server.stops 0 ∨
    (s.waiter = .calling ∧ t.waiter = .calling) := by
  rcases h.server with heq | hserve | ⟨hs, ht, -⟩
  · exact Or.inl (by rw [heq])
  · exact Or.inl (congrFun (Shutdown.serveSteps_stops (.single hserve)) 0)
  · exact Or.inr ⟨hs, ht⟩

theorem Step.serve (h : Step s t) : t.server.serve = s.server.serve ∨
    (s.main = .running ∧ t.main = .running) := by
  rcases h with h | h | h
  · cases h with
    | stop server h hstep => exact Or.inl hstep.serve_eq
    | serve server h ha hstep => exact Or.inr ⟨h, h⟩
    | acceptWoken h ha ho => exact Or.inr ⟨h, h⟩
    | _ => exact Or.inl rfl
  · cases h with
    | accepted h ha ho => exact Or.inr ⟨h, h⟩
    | _ => exact Or.inl rfl
  · cases h with
    | acceptError h ha => exact Or.inr ⟨h, h⟩

/-- What the waiter and the main thread know of each other. -/
structure Inv (s : State) : Prop where
  guarded : Shutdown.Guarded s.server
  alone : ∀ i, i ≠ 0 → s.server.stops i = .idle
  uncalled : s.waiter = .waiting ∨ s.waiter = .woken → s.server.stops 0 = .idle
  ended : s.waiter = .returned → s.server.stops 0 = .returned ∨
    (s.server.stops 0 = .idle ∧ s.windingDown = true)
  windingDown : s.windingDown = true ↔ s.main ≠ .running
  left : s.main ≠ .running → s.server.serve = .notStarted ∨ s.server.serve = .returned
  pending : s.sent = true → s.waiter = .waiting → s.term = true ∨ s.intr = true
  directed : s.directed = true → s.windingDown = true
  woken : s.main = .joining → s.waiter = .waiting → s.directed = true
  destroyed : s.main = .destroyed → s.waiter = .returned
  unsent : s.sent = false → s.term = false ∧ s.intr = false ∧ s.waiter ≠ .calling ∧
    s.server.stops 0 = .idle ∧ (s.waiter = .woken → s.windingDown = true)

theorem inv_initial : Inv State.initial where
  guarded := Shutdown.guarded_initial
  alone _ _ := rfl
  uncalled _ := rfl
  ended h := by cases h
  windingDown := by simp [State.initial]
  left h := absurd rfl h
  pending h := by cases h
  directed h := by cases h
  woken h := by cases h
  destroyed h := by cases h
  unsent _ := by simp [State.initial, Shutdown.State.initial]

theorem Inv.guarded_step (hs : Inv s) (h : Step s t) : Shutdown.Guarded t.server := by
  rcases h.server with heq | hserve | ⟨-, -, hstop⟩
  · rw [heq]
    exact hs.guarded
  · exact hs.guarded.serveStep hserve
  · exact hs.guarded.stopStep hstop

theorem Inv.alone_step (hs : Inv s) (h : Step s t) (i : ℕ) (hi : i ≠ 0) :
    t.server.stops i = .idle := by
  rcases h.server with heq | hserve | ⟨-, -, hstop⟩
  · rw [heq]
    exact hs.alone i hi
  · rw [Shutdown.serveSteps_stops (.single hserve)]
    exact hs.alone i hi
  · rw [hstop.stops_of_ne hi]
    exact hs.alone i hi

theorem Inv.left_step (hs : Inv s) (h : Step s t) (hmain : t.main ≠ .running) :
    t.server.serve = .notStarted ∨ t.server.serve = .returned := by
  rcases h.serve with heq | ⟨-, ht⟩
  · rw [heq]
    rcases h with h | h | h
    · cases h with
      | leave h hs => exact hs
      | kill h => exact hs.left (by simp [h])
      | join h hw => exact hs.left (by simp [h])
      | _ => exact hs.left hmain
    · cases h <;> exact hs.left hmain
    · cases h with
      | acceptError h ha => exact absurd h hmain
  · exact absurd ht hmain

theorem Inv.internal (hs : Inv s) (h : Internal s t) : Inv t where
  guarded := hs.guarded_step (Or.inl h)
  alone := hs.alone_step (Or.inl h)
  left := hs.left_step (Or.inl h)
  uncalled hw := by
    rcases (show Step s t from Or.inl h).stops_zero with heq | ⟨-, ht⟩
    · rw [heq]
      refine hs.uncalled ?_
      cases h <;> simp_all
    · simp [ht] at hw
  ended hw := by
    cases h with
    | windDown h hwinding => exact Or.inr ⟨hs.uncalled (Or.inr h), hwinding⟩
    | called h hr => exact Or.inl hr
    | leave => exact (hs.ended hw).imp_right fun hidle => ⟨hidle.1, rfl⟩
    | stop server h => cases h.symm.trans hw
    | serve server h ha hstep =>
      rw [Shutdown.serveSteps_stops (.single hstep)]
      exact hs.ended hw
    | acceptWoken | kill | join => exact hs.ended hw
    | _ => cases hw
  windingDown := by
    have hwinding := hs.windingDown
    cases h <;> simp_all
  pending hsent hw := by
    have hpending := hs.pending (by cases h <;> exact hsent)
    cases h <;> simp_all
  directed hd := by
    have hdirected := hs.directed
    have hwinding := hs.windingDown
    cases h <;> simp_all
  woken hj hw := by
    have hwoken := hs.woken
    cases h <;> simp_all
  destroyed hd := by
    have hdestroyed := hs.destroyed
    cases h <;> simp_all
  unsent hsent := by
    obtain ⟨hterm, hintr, hcalling, hidle, hwoken⟩ := hs.unsent (by cases h <;> exact hsent)
    have hzero : t.server.stops 0 = .idle := by
      rcases (show Step s t from Or.inl h).stops_zero with heq | ⟨hcall, -⟩
      · rw [heq, hidle]
      · exact absurd hcall hcalling
    have hdirected := hs.directed
    cases h <;> simp_all

theorem Inv.arrives (hs : Inv s) (h : Arrives s t) : Inv t where
  guarded := hs.guarded_step (Or.inr (Or.inl h))
  alone := hs.alone_step (Or.inr (Or.inl h))
  left := hs.left_step (Or.inr (Or.inl h))
  uncalled := by cases h <;> exact hs.uncalled
  ended := by cases h <;> exact hs.ended
  windingDown := by cases h <;> exact hs.windingDown
  pending hsent hw := by
    cases h with
    | sigterm => exact Or.inl rfl
    | sigint => exact Or.inr rfl
    | accepted => exact hs.pending hsent hw
  directed := by cases h <;> exact hs.directed
  woken := by cases h <;> exact hs.woken
  destroyed := by cases h <;> exact hs.destroyed
  unsent hsent := by
    cases h with
    | accepted => exact hs.unsent hsent
    | _ => cases hsent

theorem Inv.breaks (hs : Inv s) (h : Breaks s t) : Inv t where
  guarded := hs.guarded_step (Or.inr (Or.inr h))
  alone := hs.alone_step (Or.inr (Or.inr h))
  left := hs.left_step (Or.inr (Or.inr h))
  uncalled := by cases h; exact hs.uncalled
  ended := by cases h; exact hs.ended
  windingDown := by cases h; exact hs.windingDown
  pending := by cases h; exact hs.pending
  directed := by cases h; exact hs.directed
  woken := by cases h; exact hs.woken
  destroyed := by cases h; exact hs.destroyed
  unsent := by cases h; exact hs.unsent

theorem Reachable.inv (h : Reachable s) : Inv s := by
  induction h with
  | refl => exact inv_initial
  | tail _ hstep ih =>
    rcases hstep with h | h | h
    · exact ih.internal h
    · exact ih.arrives h
    · exact ih.breaks h

def stopRank : Shutdown.Stop → ℕ
  | .idle => 8
  | .waiting => 7
  | .locked => 6
  | .calling => 5
  | .exchanging => 4
  | .closing _ => 3
  | .resetting => 2
  | .unlocking => 1
  | .returned => 0

def serveRank : Shutdown.Serve → ℕ
  | .notStarted => 11
  | .starting => 10
  | .attached => 9
  | .bound => 8
  | .looping => 7
  | .accepting => 6
  | .acceptFailed => 5
  | .closingSocket => 4
  | .leaving _ => 3
  | .exiting => 2
  | .detaching => 1
  | .returned => 0

def Waiter.rank : Waiter → ℕ
  | .waiting => 3
  | .woken => 2
  | .calling => 1
  | .returned => 0

def Main.rank : Main → ℕ
  | .running => 3
  | .flagged => 2
  | .joining => 1
  | .destroyed => 0

def State.cost (s : State) : ℕ :=
  s.waiter.rank + s.main.rank + stopRank (s.server.stops 0) + serveRank s.server.serve

theorem stopRank_lt {s t : Shutdown.State} (h : StopStep 0 s t) :
    stopRank (t.stops 0) < stopRank (s.stops 0) := by
  cases h <;> simp_all [Shutdown.setStop_self, stopRank]

theorem serveRank_lt {s t : Shutdown.State} (h : ServeStep s t) (ha : s.serve ≠ .accepting) :
    serveRank t.serve < serveRank s.serve := by
  cases h <;> simp_all [serveRank]

theorem Internal.cost_lt (h : Internal s t) : t.cost < s.cost := by
  cases h with
  | stop server h hstep =>
    have hlt := stopRank_lt hstep
    simp only [State.cost, hstep.serve_eq]
    omega
  | serve server h ha hstep =>
    have hlt := serveRank_lt hstep ha
    simp only [State.cost, Shutdown.serveSteps_stops (.single hstep)]
    omega
  | _ => simp_all [State.cost, Waiter.rank, Main.rank, serveRank]

theorem internal_spends : Spends Internal (fun _ => True) State.cost where
  keep _ _ _ _ := trivial
  lt _ _ _ h := h.cost_lt

theorem readyInternal_spends : Spends ReadyInternal (fun _ => True) State.cost :=
  internal_spends.mono fun _ _ h => h.1

/-- A step that is not one of `stop` is ready. -/
theorem ready_of_stops_eq (h : t.server.stops 0 = s.server.stops 0) : Ready s t :=
  fun hs ht => absurd (h.trans hs) ht

theorem Inv.mtx (hs : Inv s) (h : (s.server.stops 0).inside = false) : s.server.mtx = none := by
  cases hm : s.server.mtx with
  | none => rfl
  | some i =>
    have hi := (hs.guarded.holder i).mpr hm
    by_cases h0 : i = 0
    · subst h0
      cases h.symm.trans hi
    · rw [hs.alone i h0] at hi
      cases hi

theorem exists_serveStep {s : Shutdown.State}
    (hmtx : s.serve = .starting ∨ s.serve = .detaching → s.mtx = none) (hs : s.serve ≠ .returned)
    (ha : s.serve ≠ .accepting) : ∃ t, ServeStep s t := by
  cases h : s.serve with
  | notStarted => exact ⟨_, .start s h⟩
  | starting =>
    cases hst : s.stopped with
    | false => exact ⟨_, .attach s h (hmtx (Or.inl h)) hst⟩
    | true => exact ⟨_, .attachStopped s h (hmtx (Or.inl h)) hst⟩
  | attached =>
    cases hd : s.isDecommisioned with
    | false => exact ⟨_, .bind s h hd⟩
    | true => exact ⟨_, .bindRefused s h hd⟩
  | bound =>
    cases hd : s.isDecommisioned with
    | false => exact ⟨_, .run s h hd⟩
    | true => exact ⟨_, .runRefused s h hd⟩
  | looping =>
    cases hv : s.svrSock with
    | false => exact ⟨_, .loopEnd s h hv⟩
    | true => exact ⟨_, .loop s h hv⟩
  | accepting => exact absurd h ha
  | acceptFailed =>
    cases hv : s.svrSock with
    | false => exact ⟨_, .closedByUser s h hv⟩
    | true => exact ⟨_, .failed s h hv⟩
  | closingSocket => exact ⟨_, .closeSocket s h⟩
  | leaving ret => exact ⟨_, .leave s ret h⟩
  | exiting => exact ⟨_, .exit s h⟩
  | detaching => exact ⟨_, .detach s h (hmtx (Or.inr h))⟩
  | returned => exact absurd h hs

theorem exists_stopStep {s : Shutdown.State} (hmtx : s.stops 0 = .waiting → s.mtx = none)
    (hs : s.stops 0 ≠ .returned) : ∃ t, StopStep 0 s t := by
  cases h : s.stops 0 with
  | idle => exact ⟨_, .call s h⟩
  | waiting => exact ⟨_, .lock s h (hmtx h)⟩
  | locked =>
    cases hsrv : s.srv with
    | false => exact ⟨_, .detached s h hsrv⟩
    | true => exact ⟨_, .attached s h hsrv⟩
  | calling =>
    cases hr : s.isRunning with
    | false => exact ⟨_, .notRunning s h hr⟩
    | true => exact ⟨_, .running s h hr⟩
  | exchanging => exact ⟨_, .exchange s h⟩
  | closing valid => exact ⟨_, .closeSocket s valid h⟩
  | resetting => exact ⟨_, .reset s h⟩
  | unlocking => exact ⟨_, .unlock s h⟩
  | returned => exact absurd h hs

theorem Inv.waiter_rest (hs : Inv s) (hrest : Resting ReadyInternal s) :
    s.waiter = .returned ∨ (s.waiter = .waiting ∧ s.directed = false ∧ s.sent = false) := by
  cases hw : s.waiter with
  | returned => exact Or.inl rfl
  | waiting =>
    have hdirected : s.directed ≠ true := fun hp =>
      hrest _ ⟨.wakeDirected s hw hp, ready_of_stops_eq rfl⟩
    have hterm : s.term ≠ true := fun hp => hrest _ ⟨.wakeTerm s hw hp, ready_of_stops_eq rfl⟩
    have hintr : s.intr ≠ true := fun hp => hrest _ ⟨.wakeIntr s hw hp, ready_of_stops_eq rfl⟩
    refine Or.inr ⟨rfl, by simpa using hdirected, ?_⟩
    cases hsent : s.sent with
    | false => rfl
    | true => exact ((hs.pending hsent hw).elim hterm hintr).elim
  | woken =>
    cases hd : s.windingDown with
    | false => exact (hrest _ ⟨.call s hw hd, ready_of_stops_eq rfl⟩).elim
    | true => exact (hrest _ ⟨.windDown s hw hd, ready_of_stops_eq rfl⟩).elim
  | calling =>
    exfalso
    by_cases hret : s.server.stops 0 = .returned
    · exact hrest _ ⟨.called s hw hret, ready_of_stops_eq rfl⟩
    · by_cases hopening : s.server.serve.opening = true
      · -- `stop` may have to wait, but then `serve` does not
        have hne : ∀ p : Shutdown.Serve, p.opening = false → s.server.serve ≠ p := fun p hp h => by
          rw [h, hp] at hopening
          cases hopening
        have hmain : s.main = .running := by
          by_contra hmain
          exact (hs.left hmain).elim (hne _ rfl) (hne _ rfl)
        obtain ⟨server, hstep⟩ := exists_serveStep (s := s.server)
          (fun h => (h.elim (hne _ rfl) (hne _ rfl)).elim) (hne _ rfl) (hne _ rfl)
        refine hrest _ ⟨.serve s server hmain (hne _ rfl) hstep, ?_⟩
        exact ready_of_stops_eq (congrFun (Shutdown.serveSteps_stops (.single hstep)) 0)
      · obtain ⟨server, hstep⟩ := exists_stopStep (s := s.server)
          (fun h => hs.mtx (by rw [h]; rfl)) hret
        exact hrest _ ⟨.stop s server hw hstep, fun _ _ => by simpa using hopening⟩

theorem Inv.body_rest (hs : Inv s) (hrest : Resting ReadyInternal s) (hmain : s.main = .running)
    (hout : (s.server.stops 0).inside = false) :
    s.server.serve = .accepting ∧ s.server.socketOpen = true := by
  have hreturned : s.server.serve ≠ .returned := fun h =>
    hrest _ ⟨.leave s hmain (Or.inr h), ready_of_stops_eq rfl⟩
  by_cases ha : s.server.serve = .accepting
  · refine ⟨ha, ?_⟩
    cases ho : s.server.socketOpen with
    | true => rfl
    | false => exact (hrest _ ⟨.acceptWoken s hmain ha ho, ready_of_stops_eq rfl⟩).elim
  · obtain ⟨server, hstep⟩ := exists_serveStep (fun _ => hs.mtx hout) hreturned ha
    refine (hrest _ ⟨.serve s server hmain ha hstep, ?_⟩).elim
    exact ready_of_stops_eq (congrFun (Shutdown.serveSteps_stops (.single hstep)) 0)

theorem Inv.destroyed_rest (hs : Inv s) (hrest : Resting ReadyInternal s)
    (hmain : s.main ≠ .running) : s.main = .destroyed := by
  cases hm : s.main with
  | running => exact absurd hm hmain
  | flagged => exact (hrest _ ⟨.kill s hm, ready_of_stops_eq rfl⟩).elim
  | joining =>
    rcases hs.waiter_rest hrest with hw | ⟨hw, hdirected, -⟩
    · exact (hrest _ ⟨.join s hm hw, ready_of_stops_eq rfl⟩).elim
    · cases (hs.woken hm hw).symm.trans hdirected
  | destroyed => rfl

/-- Where the process comes to rest: past the destructor, or in an `accept` without any signal. -/
theorem Inv.rest (hs : Inv s) (hserver : Shutdown.Inv s.server)
    (hrest : Resting ReadyInternal s) :
    s.main = .destroyed ∨
      (s.sent = false ∧ s.server.serve = .accepting ∧ s.server.socketOpen = true) := by
  by_cases hmain : s.main = .running
  · rcases hs.waiter_rest hrest with hw | ⟨hw, -, hsent⟩
    · -- the only call of `stop` has returned, and it has closed the socket
      have hstop : s.server.stops 0 = .returned := by
        rcases hs.ended hw with h | ⟨-, hwinding⟩
        · exact h
        · exact absurd hmain (hs.windingDown.mp hwinding)
      obtain ⟨ha, ho⟩ := hs.body_rest hrest hmain (by rw [hstop]; rfl)
      have hlistening := hserver.listening (by rw [ha]; rfl) ho 0
      simp [hstop, Shutdown.Stop.early] at hlistening
    · exact Or.inr ⟨hsent, hs.body_rest hrest hmain (by rw [hs.uncalled (Or.inl hw)]; rfl)⟩
  · exact Or.inl (hs.destroyed_rest hrest hmain)

theorem readyInternal_run (h : ReadyReachable s) (hrun : Relation.ReflTransGen ReadyInternal s t) :
    ReadyReachable t :=
  h.trans (Relation.ReflTransGen.mono (fun _ _ h => ⟨Or.inl h.1, h.2⟩) _ _ hrun)

theorem Internal.sent_eq (h : Internal s t) : t.sent = s.sent := by
  cases h <;> rfl

theorem internal_sent (h : Relation.ReflTransGen ReadyInternal s t) : t.sent = s.sent := by
  induction h with
  | refl => rfl
  | tail _ hstep ih => rw [hstep.1.sent_eq, ih]

theorem State.cost_le (s : State) : s.cost ≤ 25 := by
  have hwaiter : s.waiter.rank ≤ 3 := by cases s.waiter <;> simp [Waiter.rank]
  have hmain : s.main.rank ≤ 3 := by cases s.main <;> simp [Main.rank]
  have hstop : stopRank (s.server.stops 0) ≤ 8 := by cases s.server.stops 0 <;> simp [stopRank]
  have hserve : serveRank s.server.serve ≤ 11 := by cases s.server.serve <;> simp [serveRank]
  unfold State.cost
  omega

theorem Internal.main_ne (h : Internal s t) (hs : s.main ≠ .running) : t.main ≠ .running := by
  cases h with
  | leave | kill | join => simp
  | _ => exact hs

/-- The destructor of `SignalWaiter` ends in every run, whether or not a signal has come and however
far the waiter has got with it. -/
theorem destructor_ends (h : Reachable s) (hmain : s.main ≠ .running) :
    (∀ n (run : ℕ → State), run 0 = s → (∀ i < n, Internal (run i) (run (i + 1))) → n ≤ 25) ∧
    ∀ t, Relation.ReflTransGen Internal s t → Resting Internal t →
      t.main = .destroyed ∧ t.waiter = .returned := by
  refine ⟨fun n run hstart hrun => ?_, fun t hrun hrest => ?_⟩
  · exact (internal_spends.length_le trivial hstart hrun).trans s.cost_le
  · have ht : Reachable t := h.trans (Relation.ReflTransGen.mono (fun _ _ => Or.inl) _ _ hrun)
    have hleft : t.main ≠ .running := by
      clear hrest ht
      induction hrun with
      | refl => exact hmain
      | tail _ hstep ih => exact hstep.main_ne ih
    have hd := ht.inv.destroyed_rest (fun u hu => hrest u hu.1) hleft
    exact ⟨hd, ht.inv.destroyed hd⟩

theorem destructor_ends_sample : ∃ s t, Reachable s ∧ s.main = .flagged ∧ s.sent = false ∧
    Relation.ReflTransGen Internal s t ∧ t.main = .destroyed ∧ t.waiter = .returned := by
  have hleft : Reachable _ := .single (Or.inl (.leave State.initial rfl (Or.inl rfl)))
  obtain ⟨t, hrun, hrest⟩ := internal_spends.exists_resting
    (s := { State.initial with windingDown := true, main := .flagged }) trivial
  exact ⟨_, t, hleft, rfl, rfl, hrun, (destructor_ends hleft (by simp)).2 t hrun hrest⟩

theorem Deaf.internal (hs : Deaf s) (h : Internal s t) : Deaf t := by
  obtain ⟨hmain, hwaiter, hserve, hsock, hopen⟩ := hs
  cases h with
  | serve server h ha hstep =>
    have hlooping : s.server.serve = .looping := hserve.resolve_right ha
    cases hstep with
    | loop => exact ⟨hmain, hwaiter, Or.inr rfl, hsock, hopen⟩
    | loopEnd _ hv => cases hsock.symm.trans hv
    | accepted h | acceptError h => exact absurd h ha
    | _ => rename s.server.serve = _ => h'; cases hlooping.symm.trans h'
  | acceptWoken h ha ho => cases hopen.symm.trans ho
  | leave h hs => rcases hs with h' | h' <;> rw [h'] at hserve <;> simp at hserve
  | kill h | join h => cases hmain.symm.trans h
  | wakeDirected h | wakeTerm h | wakeIntr h | windDown h | call h | stop _ h | called h =>
    cases hwaiter.symm.trans h

theorem Deaf.arrives (hs : Deaf s) (h : Arrives s t) : Deaf t := by
  obtain ⟨hmain, hwaiter, hserve, hsock, hopen⟩ := hs
  cases h with
  | accepted => exact ⟨hmain, hwaiter, Or.inl rfl, hsock, hopen⟩
  | _ => exact ⟨hmain, hwaiter, hserve, hsock, hopen⟩

/-- A signal that comes between `attach` and the point where `listen_internal` sets `is_running_`
can be the last one the process takes: from then on it serves, whatever signals and connections
arrive, until an error of `accept`. -/
theorem startup_signal_deafens : ∃ s, Reachable s ∧ s.sent = true ∧
    ∀ t, Relation.ReflTransGen (fun s t => Internal s t ∨ Arrives s t) s t → Deaf t := by
  have own {s t : State} (h : Reachable s) (hstep : Internal s t) : Reachable t :=
    h.tail (Or.inl hstep)
  have hattached := own (own .refl (.serve _ _ rfl (by decide) (.start _ rfl)))
    (.serve _ _ rfl (by simp) (.attach _ rfl rfl rfl))
  have hcalling := own (own (hattached.tail (Or.inr (Or.inl (.sigterm _))))
    (.wakeTerm _ rfl rfl)) (.call _ rfl rfl)
  have hlocked := own (own hcalling (.stop _ _ rfl (.call _ rfl))) (.stop _ _ rfl (.lock _ rfl rfl))
  have hread := own (own hlocked (.stop _ _ rfl (.attached _ rfl rfl)))
    (.stop _ _ rfl (.notRunning _ rfl rfl))
  have hreturned := own (own (own hread (.stop _ _ rfl (.reset _ rfl)))
    (.stop _ _ rfl (.unlock _ rfl))) (.called _ rfl rfl)
  have hlooping := own (own hreturned (.serve _ _ rfl (by simp [Shutdown.State.setStop])
    (.bind _ rfl rfl))) (.serve _ _ rfl (by simp) (.run _ rfl rfl))
  refine ⟨_, hlooping, rfl, fun t hrun => ?_⟩
  induction hrun with
  | refl => exact ⟨rfl, rfl, Or.inl rfl, rfl, rfl⟩
  | tail _ hstep ih => exact hstep.elim ih.internal ih.arrives

end Ledger.Signals

import Ledger.System.Rest

/-! One connection of the live feed: `on_open`, `on_close` and `pump_loop` of the websocket server,
over the vendored transport. Whichever thread closes the transport runs `on_close`, and `on_close`
joins the pump. A step is a region under a mutex or one call into the socket. -/
namespace Ledger.Connection

/-- `_readyState` of the transport. -/
inductive Ready
  | open
  | closing
  | closed
  deriving DecidableEq

inductive Thread
  | run
  | pump
  deriving DecidableEq

/-- Where the connection's own thread stands, in `WebSocket::run`. -/
inductive Run
  | polling
  /-- A close frame has come; the answer is next. -/
  | replying
  /-- The socket is closed; at the mutex of `setReadyState(CLOSED)`. -/
  | switching
  | locked
  /-- In `on_close`, at `pump.join()`. -/
  | joining
  | setting
  /-- At the check of the ready state. -/
  | checking
  | ended
  deriving DecidableEq

inductive Pump
  | waiting
  /-- Before a frame; `lagged` when the lag frame comes before the block. -/
  | holding (lagged : Bool)
  /-- A send has failed; at the mutex of `setReadyState(CLOSED)`. -/
  | switching
  | locked
  | setting
  /-- It has joined itself: `std::thread::join` throws, and the unwinding ends the process. -/
  | aborted
  | done
  deriving DecidableEq

/-- Where `close()` stands, which the shutdown of the server calls. -/
inductive Close
  | idle
  | called
  | checked
  | returned
  deriving DecidableEq

/-- `mutex` is that of `setReadyState`, `cancelled` is `_requestInitCancellation`, `entry` when the
connection is in the map, `closed` and `buffered` are the subscription. `failed` is history: a send
of the pump has closed the transport. -/
structure State where
  ready : Ready
  cancelled : Bool
  mutex : Option Thread
  socketOpen : Bool
  entry : Bool
  closed : Bool
  buffered : ℕ
  run : Run
  pump : Pump
  close : Close
  failed : Bool

def State.opened : State where
  ready := .open
  cancelled := false
  mutex := none
  socketOpen := true
  entry := true
  closed := false
  buffered := 0
  run := .polling
  pump := .waiting
  close := .idle
  failed := false

def Pump.sent (lagged : Bool) : Pump :=
  if lagged then .holding false else .waiting

/-- The steps of the connection's own thread. -/
inductive RunStep : State → State → Prop
  | closeFrame (s : State) (h : s.run = .polling) (hr : s.ready = .open) (hm : s.mutex = none) :
    RunStep s { s with ready := .closing, run := .replying }
  | replied (s : State) (h : s.run = .replying) :
    RunStep s { s with socketOpen := false, run := .switching }
  /-- The answer to our close frame, an error, or the end of the stream. -/
  | lost (s : State) (h : s.run = .polling) :
    RunStep s { s with socketOpen := false, run := .switching }
  | lock (s : State) (h : s.run = .switching) (hm : s.mutex = none) (hr : s.ready ≠ .closed) :
    RunStep s { s with mutex := some .run, run := .locked }
  | same (s : State) (h : s.run = .switching) (hm : s.mutex = none) (hr : s.ready = .closed) :
    RunStep s { s with run := .checking }
  | onClose (s : State) (h : s.run = .locked) (he : s.entry = true) :
    RunStep s { s with entry := false, closed := true, run := .joining }
  | onCloseGone (s : State) (h : s.run = .locked) (he : s.entry = false) :
    RunStep s { s with run := .setting }
  | join (s : State) (h : s.run = .joining) (hp : s.pump = .done) :
    RunStep s { s with run := .setting }
  | set (s : State) (h : s.run = .setting) :
    RunStep s { s with ready := .closed, mutex := none, run := .checking }
  | leave (s : State) (h : s.run = .checking) (hr : s.ready = .closed) :
    RunStep s { s with run := .ended }
  | again (s : State) (h : s.run = .checking) (hr : s.ready ≠ .closed) :
    RunStep s { s with run := .polling }

/-- The steps of the pump. A send can fail at any time, and does on a closed socket. -/
inductive PumpStep : State → State → Prop
  | next (s : State) (lagged : Bool) (n : ℕ) (h : s.pump = .waiting) (hb : s.buffered = n + 1) :
    PumpStep s { s with buffered := n, pump := .holding lagged }
  | finish (s : State) (h : s.pump = .waiting) (hb : s.buffered = 0) (hc : s.closed = true) :
    PumpStep s { s with pump := .done }
  /-- The `weak_ptr` has expired. -/
  | gone (s : State) (lagged : Bool) (h : s.pump = .holding lagged) (hr : s.run = .ended) :
    PumpStep s { s with pump := .done }
  /-- `sendData` refuses when the transport is closed. -/
  | refused (s : State) (lagged : Bool) (h : s.pump = .holding lagged) (hr : s.ready = .closed) :
    PumpStep s { s with pump := .sent lagged }
  | send (s : State) (lagged : Bool) (h : s.pump = .holding lagged) (hr : s.ready ≠ .closed)
      (hs : s.socketOpen = true) :
    PumpStep s { s with pump := .sent lagged }
  /-- While the transport is closing on our own request a failed send is let be. -/
  | sendIgnored (s : State) (lagged : Bool) (h : s.pump = .holding lagged)
      (hr : s.ready = .closing) (hc : s.cancelled = true) :
    PumpStep s { s with socketOpen := false, pump := .sent lagged }
  /-- Otherwise `sendOnSocket` closes the transport, or `flushSendBuffer` behind it. -/
  | sendFailed (s : State) (lagged : Bool) (h : s.pump = .holding lagged) (hr : s.ready ≠ .closed)
      (hc : s.ready = .open ∨ s.cancelled = false) :
    PumpStep s { s with socketOpen := false, pump := .switching, failed := true }
  | lock (s : State) (h : s.pump = .switching) (hm : s.mutex = none) (hr : s.ready ≠ .closed) :
    PumpStep s { s with mutex := some .pump, pump := .locked }
  | same (s : State) (h : s.pump = .switching) (hm : s.mutex = none) (hr : s.ready = .closed) :
    PumpStep s { s with pump := .waiting }
  /-- `on_close` finds the connection, and the pump it joins is the thread it runs on. -/
  | onClose (s : State) (h : s.pump = .locked) (he : s.entry = true) :
    PumpStep s { s with entry := false, closed := true, pump := .aborted }
  | onCloseGone (s : State) (h : s.pump = .locked) (he : s.entry = false) :
    PumpStep s { s with pump := .setting }
  | set (s : State) (h : s.pump = .setting) :
    PumpStep s { s with ready := .closed, mutex := none, pump := .waiting }

/-- One step of any thread, while the process lives. -/
inductive Step (s : State) : State → Prop
  | run {t : State} (hlive : s.pump ≠ .aborted) (h : RunStep s t) : Step s t
  | pump {t : State} (h : PumpStep s t) : Step s t
  | publish (hlive : s.pump ≠ .aborted) (n : ℕ) (hc : s.closed = false)
      (hn : n = s.buffered ∨ n = s.buffered + 1) : Step s { s with buffered := n }
  | closeCalled (hlive : s.pump ≠ .aborted) (h : s.close = .idle) :
    Step s { s with cancelled := true, close := .called }
  | closeChecked (hlive : s.pump ≠ .aborted) (h : s.close = .called) (hr : s.ready = .open) :
    Step s { s with close := .checked }
  | closeNothing (hlive : s.pump ≠ .aborted) (h : s.close = .called) (hr : s.ready ≠ .open) :
    Step s { s with close := .returned }
  | closeSet (hlive : s.pump ≠ .aborted) (h : s.close = .checked) (hm : s.mutex = none) :
    Step s { s with ready := .closing, close := .returned }

abbrev Reachable (s : State) : Prop :=
  Relation.ReflTransGen Step State.opened s

def Pump.closes : Pump → Bool
  | .switching | .locked | .setting | .aborted => true
  | .waiting | .holding _ | .done => false

def Run.behind : Run → Bool
  | .setting | .checking | .ended => true
  | _ => false

def Run.holds : Run → Bool
  | .locked | .joining | .setting => true
  | _ => false

/-- While the pump lives, it is in the map or the connection's thread waits for it. -/
structure Inv (s : State) : Prop where
  run_mutex : s.run.holds = true ↔ s.mutex = some .run
  pump_mutex : s.mutex = some .pump ↔ s.pump = .locked ∨ s.pump = .aborted
  closed : s.closed = !s.entry
  joined : s.entry = false → s.run = .joining ∨ s.pump = .done ∨ s.pump = .aborted
  live : s.entry = true → s.pump ≠ .done ∧ s.run ≠ .joining ∧ s.ready ≠ .closed
  behind : s.run.behind = true → s.pump = .done
  ready : s.ready = .closed → s.pump = .done
  failed : s.failed = s.pump.closes
  setting : s.pump ≠ .setting

theorem inv_opened : Inv State.opened where
  run_mutex := by decide
  pump_mutex := by decide
  closed := rfl
  joined h := by cases h
  live _ := by decide
  behind h := by cases h
  ready h := by cases h
  failed := rfl
  setting h := by cases h

theorem Inv.moveRun {s : State} (hs : Inv s) {run : Run} (ready : Ready) (socketOpen : Bool)
    (hready : ready = .closed → s.ready = .closed) (hholds : run.holds = s.run.holds)
    (hjoining : run = .joining ↔ s.run = .joining) (hbehind : run.behind = true → s.pump = .done) :
    Inv { s with ready, socketOpen, run } where
  run_mutex := by
    dsimp only
    rw [hholds]
    exact hs.run_mutex
  pump_mutex := hs.pump_mutex
  closed := hs.closed
  joined he := by
    dsimp only
    rw [hjoining]
    exact hs.joined he
  live he := by
    obtain ⟨hdone, hjoined, hopen⟩ := hs.live he
    exact ⟨hdone, fun h => hjoined (hjoining.mp h), fun h => hopen (hready h)⟩
  behind := hbehind
  ready h := hs.ready (hready h)
  failed := hs.failed
  setting := hs.setting

theorem Inv.runStep {s t : State} (hs : Inv s) (hlive : s.pump ≠ .aborted) (h : RunStep s t) :
    Inv t := by
  cases h with
  | closeFrame h hr hm =>
    exact hs.moveRun .closing s.socketOpen nofun (by simp [h, Run.holds]) (by simp [h]) nofun
  | replied h =>
    exact hs.moveRun s.ready false id (by simp [h, Run.holds]) (by simp [h]) nofun
  | lost h =>
    exact hs.moveRun s.ready false id (by simp [h, Run.holds]) (by simp [h]) nofun
  | same h hm hr =>
    exact hs.moveRun s.ready s.socketOpen id (by simp [h, Run.holds]) (by simp [h])
      fun _ => hs.ready hr
  | leave h hr =>
    exact hs.moveRun s.ready s.socketOpen id (by simp [h, Run.holds]) (by simp [h])
      fun _ => hs.ready hr
  | again h hr =>
    exact hs.moveRun s.ready s.socketOpen id (by simp [h, Run.holds]) (by simp [h]) nofun
  -- `on_close` takes the entry under the mutex, and the thread is past it when the pump is done.
  | lock h hm hr | onClose h he | onCloseGone h he | join h hp | set h =>
    obtain ⟨run_mutex, pump_mutex, closed, joined, live, behind, ready, failed, setting⟩ := hs
    constructor <;> simp_all [Run.holds, Run.behind]

theorem Inv.movePump {s : State} (hs : Inv s) {l : Bool} {pump : Pump} (socketOpen : Bool)
    (buffered : ℕ) (h : s.pump = .waiting ∨ s.pump = .holding l)
    (hpump : pump = .waiting ∨ ∃ l, pump = .holding l) :
    Inv { s with socketOpen, buffered, pump } := by
  have hdone : s.pump ≠ .done := by rcases h with h | h <;> simp [h]
  have haborted : s.pump ≠ .aborted := by rcases h with h | h <;> simp [h]
  have hmutex : ¬s.mutex = some .pump := by
    rw [hs.pump_mutex]
    rcases h with h | h <;> simp [h]
  have hfailed : s.failed = false := by
    rw [hs.failed]
    rcases h with h | h <;> simp [h, Pump.closes]
  constructor
  · exact hs.run_mutex
  · rcases hpump with rfl | ⟨l, rfl⟩ <;> simp [hmutex]
  · exact hs.closed
  · intro he
    rcases hs.joined he with hjoined | hjoined | hjoined
    · exact Or.inl hjoined
    · exact absurd hjoined hdone
    · exact absurd hjoined haborted
  · intro he
    obtain ⟨-, hjoined, hopen⟩ := hs.live he
    exact ⟨by rcases hpump with rfl | ⟨l, rfl⟩ <;> simp, hjoined, hopen⟩
  · exact fun hbehind => absurd (hs.behind hbehind) hdone
  · exact fun hready => absurd (hs.ready hready) hdone
  · rcases hpump with rfl | ⟨l, rfl⟩ <;> exact hfailed
  · rcases hpump with rfl | ⟨l, rfl⟩ <;> simp

theorem Pump.sent_cases (lagged : Bool) :
    Pump.sent lagged = .waiting ∨ ∃ l, Pump.sent lagged = .holding l := by
  cases lagged
  · exact Or.inl rfl
  · exact Or.inr ⟨false, rfl⟩

theorem Inv.pumpStep {s t : State} (hs : Inv s) (h : PumpStep s t) : Inv t := by
  cases h with
  | next lagged n h hb =>
    exact hs.movePump (l := lagged) s.socketOpen n (Or.inl h) (Or.inr ⟨lagged, rfl⟩)
  | refused lagged h hr =>
    exact hs.movePump s.socketOpen s.buffered (Or.inr h) (Pump.sent_cases lagged)
  | send lagged h hr hopen =>
    exact hs.movePump s.socketOpen s.buffered (Or.inr h) (Pump.sent_cases lagged)
  | sendIgnored lagged h hr hc =>
    exact hs.movePump false s.buffered (Or.inr h) (Pump.sent_cases lagged)
  -- A pump in the callback has the mutex, so nobody waits for it and it finds its own entry.
  | finish | gone | sendFailed | lock | same | onClose | onCloseGone | set =>
    obtain ⟨run_mutex, pump_mutex, closed, joined, live, behind, ready, failed, setting⟩ := hs
    constructor <;> simp_all [Run.holds, Run.behind, Pump.closes]

theorem Inv.step {s t : State} (hs : Inv s) (h : Step s t) : Inv t := by
  cases h with
  | run hlive h => exact hs.runStep hlive h
  | pump h => exact hs.pumpStep h
  | publish | closeCalled | closeChecked | closeNothing =>
    obtain ⟨run_mutex, pump_mutex, closed, joined, live, behind, ready, failed, setting⟩ := hs
    exact ⟨run_mutex, pump_mutex, closed, joined, live, behind, ready, failed, setting⟩
  | closeSet hlive h hm =>
    obtain ⟨run_mutex, pump_mutex, closed, joined, live, behind, ready, failed, setting⟩ := hs
    exact ⟨run_mutex, pump_mutex, closed, joined, fun he => ⟨(live he).1, (live he).2.1, by simp⟩,
      behind, fun hr => (by cases hr), failed, setting⟩

theorem Reachable.inv {s : State} (h : Reachable s) : Inv s := by
  induction h with
  | refl => exact inv_opened
  | tail _ hstep ih => exact ih.step hstep

/-- Nothing is left of the connection. -/
structure Clean (s : State) : Prop where
  ended : s.run = .ended
  pump : s.pump = .done
  entry : s.entry = false
  closed : s.closed = true

theorem Inv.clean_of_ended {s : State} (hs : Inv s) (h : s.run = .ended) : Clean s := by
  have hdone : s.pump = .done := hs.behind (by rw [h]; rfl)
  have hentry : s.entry = false := by
    cases he : s.entry with
    | false => rfl
    | true => exact absurd hdone (hs.live he).1
  exact ⟨h, hdone, hentry, by rw [hs.closed, hentry]; rfl⟩

theorem Inv.not_ended {s : State} (hs : Inv s) (h : s.failed = true) :
    s.run.behind = false ∧ s.pump ≠ .done := by
  have hcloses := hs.failed.symm.trans h
  have hdone : s.pump ≠ .done := fun hp => by rw [hp] at hcloses; cases hcloses
  cases hb : s.run.behind with
  | false => exact ⟨rfl, hdone⟩
  | true => exact absurd (hs.behind hb) hdone

theorem Step.failed {s t : State} (h : Step s t) (hs : s.failed = true) : t.failed = true := by
  cases h with
  | run _ h => cases h <;> exact hs
  | pump h => cases h <;> first | exact hs | rfl
  | _ => exact hs

theorem failed_run {s t : State} (hrun : Relation.ReflTransGen Step s t) (hs : s.failed = true) :
    t.failed = true := by
  induction hrun with
  | refl => exact hs
  | tail _ hstep ih => exact hstep.failed ih

/-- Where no send of the pump has closed the transport, some thread can go on until the end. -/
theorem Inv.exists_step {s : State} (hs : Inv s) (hfailed : s.failed = false)
    (hne : s.run ≠ .ended) : ∃ t, Step s t := by
  have hcloses : s.pump.closes = false := hs.failed.symm.trans hfailed
  have hlive : s.pump ≠ .aborted := fun hp => by rw [hp] at hcloses; cases hcloses
  have run {t : State} (h : RunStep s t) : ∃ t, Step s t := ⟨t, .run hlive h⟩
  have pump {t : State} (h : PumpStep s t) : ∃ t, Step s t := ⟨t, .pump h⟩
  cases hr : s.run with
  | ended => exact absurd hr hne
  | polling => exact run (.lost s hr)
  | replying => exact run (.replied s hr)
  | locked =>
    cases he : s.entry with
    | true => exact run (.onClose s hr he)
    | false => exact run (.onCloseGone s hr he)
  | setting => exact run (.set s hr)
  | checking =>
    by_cases hc : s.ready = .closed
    · exact run (.leave s hr hc)
    · exact run (.again s hr hc)
  | switching =>
    have hfree : s.mutex = none := by
      cases hm : s.mutex with
      | none => rfl
      | some thread =>
        cases thread with
        | run =>
          have hholds := hs.run_mutex.mpr hm
          rw [hr] at hholds
          cases hholds
        | pump =>
          have hlocked := hs.pump_mutex.mp hm
          rcases hlocked with hp | hp <;> rw [hp] at hcloses <;> cases hcloses
    by_cases hc : s.ready = .closed
    · exact run (.same s hr hfree hc)
    · exact run (.lock s hr hfree hc)
  | joining =>
    have hclosed : s.closed = true := by
      have hentry : s.entry = false := by
        cases he : s.entry with
        | false => rfl
        | true => exact absurd hr (hs.live he).2.1
      rw [hs.closed, hentry]
      rfl
    cases hp : s.pump with
    | done => exact run (.join s hr hp)
    | waiting =>
      cases hb : s.buffered with
      | zero => exact pump (.finish s hp hb hclosed)
      | succ n => exact pump (.next s false n hp hb)
    | holding lagged =>
      by_cases hc : s.ready = .closed
      · exact pump (.refused s lagged hp hc)
      · by_cases hi : s.ready = .closing ∧ s.cancelled = true
        · exact pump (.sendIgnored s lagged hp hi.1 hi.2)
        · refine pump (.sendFailed s lagged hp hc ?_)
          cases hready : s.ready with
          | «open» => exact Or.inl rfl
          | closing => exact Or.inr (by simpa [hready] using hi)
          | closed => exact absurd hready hc
    | switching | locked | setting | aborted => rw [hp] at hcloses; cases hcloses

def Close.rank : Close → ℕ
  | .idle => 3
  | .called => 2
  | .checked => 1
  | .returned => 0

/-- A transport that is not closed at the check is polled once more. -/
def Run.rank (ready : Ready) : Run → ℕ
  | .polling => 7
  | .replying => 6
  | .switching => 5
  | .locked => 4
  | .joining => 3
  | .setting => 2
  | .checking => if ready = .closed then 1 else 8
  | .ended => 0

def Pump.rank : Pump → ℕ
  | .holding true => 6
  | .holding false => 5
  | .waiting => 4
  | .switching => 3
  | .locked => 2
  | .setting => 1
  | .aborted | .done => 0

/-- How many steps may come once the subscription is closed. -/
def State.cost (s : State) : ℕ :=
  8 * s.close.rank + s.run.rank s.ready + 3 * s.buffered + s.pump.rank

theorem Pump.rank_sent (lagged : Bool) : (sent lagged).rank < (holding lagged).rank := by
  cases lagged <;> decide

theorem Run.rank_le (run : Run) (ready ready' : Ready) : run.rank ready ≤ run.rank ready' + 7 := by
  cases run with
  | checking =>
    simp only [rank]
    split_ifs <;> omega
  | _ => exact Nat.le_add_right _ _

theorem RunStep.cost_lt {s t : State} (h : RunStep s t) : t.cost < s.cost := by
  cases h with
  | set h => simp [State.cost, h, Run.rank]
  | leave h hr => simp [State.cost, h, hr, Run.rank]
  | again h hr => simp [State.cost, h, hr, Run.rank]
  | same h hm hr => simp [State.cost, h, hr, Run.rank]
  | _ =>
    rename s.run = _ => h
    simp [State.cost, h, Run.rank]

theorem PumpStep.cost_lt {s t : State} (hs : Inv s) (h : PumpStep s t) : t.cost < s.cost := by
  cases h with
  | next lagged n h hb => cases lagged <;> simp only [State.cost, h, hb, Pump.rank] <;> omega
  | refused lagged h | send lagged h | sendIgnored lagged h =>
    have := Pump.rank_sent lagged
    simp only [State.cost, h]
    omega
  | gone lagged h | sendFailed lagged h =>
    cases lagged <;> simp [State.cost, h, Pump.rank]
  | same h hm hr =>
    have hdone := hs.ready hr
    cases h.symm.trans hdone
  | set h => exact absurd h hs.setting
  | _ =>
    rename s.pump = _ => h
    simp [State.cost, h, Pump.rank]

theorem Step.cost_lt {s t : State} (hs : Inv s) (hclosed : s.closed = true) (h : Step s t) :
    t.closed = true ∧ t.cost < s.cost := by
  cases h with
  | run _ h => exact ⟨by cases h <;> first | exact hclosed | rfl, h.cost_lt⟩
  | pump h => exact ⟨by cases h <;> first | exact hclosed | rfl, h.cost_lt hs⟩
  | publish _ n hc => cases hc.symm.trans hclosed
  | closeSet _ h =>
    have := Run.rank_le s.run .closing s.ready
    refine ⟨hclosed, ?_⟩
    simp only [State.cost, h, Close.rank]
    omega
  | _ =>
    rename s.close = _ => h
    exact ⟨hclosed, by simp [State.cost, h, Close.rank]⟩

theorem step_spends :
    Spends (fun s t => Step s t) (fun s => Reachable s ∧ s.closed = true) State.cost where
  keep _ _ hs h := ⟨hs.1.tail h, (h.cost_lt hs.1.inv hs.2).1⟩
  lt _ _ hs h := (h.cost_lt hs.1.inv hs.2).2

/-- The stream ends while the pump has a block in hand: the two threads wait for each other. -/
theorem exists_deadlock : ∃ s, Reachable s ∧ s.run = .joining ∧ s.pump = .switching ∧
    s.failed = true := by
  have hopened : Reachable State.opened := .refl
  have hheld := (hopened.tail (.publish (by decide) 1 rfl (Or.inr rfl))).tail
    (.pump (.next _ false 0 rfl rfl))
  have hlocked := (hheld.tail (.run (by decide) (.lost _ rfl))).tail
    (.run (by decide) (.lock _ rfl rfl (by decide)))
  have hjoining := hlocked.tail (.run (by decide) (.onClose _ rfl rfl))
  have hfailed := hjoining.tail (.pump (.sendFailed _ false rfl (by decide) (Or.inl rfl)))
  exact ⟨_, hfailed, rfl, rfl, rfl⟩

theorem exists_abort : ∃ s, Reachable s ∧ s.pump = .aborted ∧ s.failed = true := by
  have hopened : Reachable State.opened := .refl
  have hheld := (hopened.tail (.publish (by decide) 1 rfl (Or.inr rfl))).tail
    (.pump (.next _ false 0 rfl rfl))
  have hfailed := hheld.tail (.pump (.sendFailed _ false rfl (by decide) (Or.inl rfl)))
  have hlocked := hfailed.tail (.pump (.lock _ rfl rfl (by decide)))
  exact ⟨_, hlocked.tail (.pump (.onClose _ rfl rfl)), rfl, rfl⟩

end Ledger.Connection

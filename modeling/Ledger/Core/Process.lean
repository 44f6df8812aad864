import Ledger.Core.Linearizability
import Ledger.Core.Restarts
import Ledger.System.Rest
import Mathlib.Algebra.BigOperators.Fin
import Mathlib.Algebra.Order.BigOperators.Group.Finset

/-! `run` of storage-core from the start of the writer to its return: the thread pool of
`httplib::Server`, whose workers run the handlers, the writer, and the order of the shutdown. -/
namespace Ledger
open Text Json
variable {F : Type} [NumberFloat F] {Log : Type} {n : ℕ}

/-- Where the main thread stands. -/
inductive Main
  /-- At `ws.start()`. -/
  | booted
  /-- In `serve`, before the accept loop. -/
  | starting
  /-- In the accept loop. -/
  | serving
  /-- In `ThreadPool::shutdown`, which joins the workers. -/
  | stopping
  /-- At `ws.stop()`. -/
  | served
  /-- At `queue.close()`. -/
  | wsStopped
  /-- At `writer.join()`. -/
  | closed
  /-- At `broadcaster.close_all()`. -/
  | joined
  | exited
  deriving DecidableEq

/-- Where a worker of the thread pool stands. `count` is how many requests its connection may still
send. -/
inductive Worker
  | idle
  | connected (count : ℕ)
  /-- In the handler of `POST /events`. -/
  | calling (id count : ℕ)
  /-- Past its loop; before `listen` no worker has been started. -/
  | exited

/-- The threads and what they share. -/
structure Process (F : Type) [NumberFloat F] (Log : Type) (n : ℕ) where
  main : Main
  /-- The connections accepted that no worker has taken up. -/
  jobs : ℕ
  workers : Fin n → Worker
  core : State F Log

/-- A handler of `POST /events` behind the validation. -/
def State.arrive (s : State F Log) (id : ℕ) (event : EventPayload F) : State F Log :=
  { s with
    handlers := Function.update s.handlers id (.pushing ⟨event, id⟩)
    requested := s.requested ++ [⟨event, id⟩] }

/-- A handler that reads the chain. -/
def State.look (s : State F Log) : State F Log :=
  { s with snapshots := s.snapshots ++ [s.chain.blocks] }

namespace Process

def boot (log : Log) (chain : Chain F) : Process F Log n where
  main := .booted
  jobs := 0
  workers _ := .exited
  core := .boot log chain

def setWorker (s : Process F Log n) (i : Fin n) (w : Worker) : Process F Log n :=
  { s with workers := Function.update s.workers i w }

/-- A step inside the write path: no new request, no read, and not the closing of the queue. -/
structure Inner (sha256 : Bytes → Digest) (capacity : ℕ)
    (append : Log → Block F → Except WriteError Unit → Log → Prop) (s t : State F Log) : Prop where
  step : Step sha256 capacity append s t
  requested : t.requested = s.requested
  snapshots : t.snapshots = s.snapshots
  closed : t.closed = s.closed
  moves : t ≠ s

variable (sha256 : Bytes → Digest) (capacity keepAlive : ℕ)
  (append : Log → Block F → Except WriteError Unit → Log → Prop)

/-- One step of any thread. A connection has `keepAlive` requests at most. -/
inductive Step : Process F Log n → Process F Log n → Prop
  | wsFailed (s : Process F Log n) (h : s.main = .booted) : Step s { s with main := .wsStopped }
  | wsStarted (s : Process F Log n) (h : s.main = .booted) : Step s { s with main := .starting }
  /-- The port is taken, or a signal came before the server listened. -/
  | notListening (s : Process F Log n) (h : s.main = .starting) : Step s { s with main := .served }
  | listen (s : Process F Log n) (h : s.main = .starting) :
    Step s { s with main := .serving, workers := fun _ => .idle }
  | accept (s : Process F Log n) (h : s.main = .serving) : Step s { s with jobs := s.jobs + 1 }
  | leave (s : Process F Log n) (h : s.main = .serving) : Step s { s with main := .stopping }
  | take (s : Process F Log n) (i : Fin n) (jobs : ℕ) (h : s.workers i = .idle)
      (hj : s.jobs = jobs + 1) :
    Step s ({ s with jobs := jobs }.setWorker i (.connected keepAlive))
  | post (s : Process F Log n) (i : Fin n) (count id : ℕ) (event : EventPayload F)
      (h : s.workers i = .connected (count + 1)) (hid : s.core.handlers id = .idle) :
    Step s ({ s with core := s.core.arrive id event }.setWorker i (.calling id count))
  | answered (s : Process F Log n) (i : Fin n) (id count : ℕ) (h : s.workers i = .calling id count)
      (ha : (s.core.handlers id).answer ≠ none) :
    Step s (s.setWorker i (.connected count))
  | read (s : Process F Log n) (i : Fin n) (count : ℕ) (h : s.workers i = .connected (count + 1)) :
    Step s ({ s with core := s.core.look }.setWorker i (.connected count))
  /-- A request that needs neither the queue nor the chain. -/
  | other (s : Process F Log n) (i : Fin n) (count : ℕ)
      (h : s.workers i = .connected (count + 1)) :
    Step s (s.setWorker i (.connected count))
  | hangUp (s : Process F Log n) (i : Fin n) (count : ℕ) (h : s.workers i = .connected count) :
    Step s (s.setWorker i .idle)
  | workerExit (s : Process F Log n) (i : Fin n) (h : s.workers i = .idle) (hj : s.jobs = 0)
      (hm : s.main = .stopping) :
    Step s (s.setWorker i .exited)
  | workersJoined (s : Process F Log n) (hm : s.main = .stopping)
      (h : ∀ i, s.workers i = .exited) :
    Step s { s with main := .served }
  /-- `ws.stop()` returns; when it can is said of the connections. -/
  | stopWs (s : Process F Log n) (h : s.main = .served) : Step s { s with main := .wsStopped }
  | close (s : Process F Log n) (h : s.main = .wsStopped) :
    Step s { s with main := .closed, core := { s.core with closed := true } }
  | joinWriter (s : Process F Log n) (h : s.main = .closed) (hw : s.core.writer = .stopped) :
    Step s { s with main := .joined }
  | closeAll (s : Process F Log n) (h : s.main = .joined) : Step s { s with main := .exited }
  | inner (s : Process F Log n) (t : State F Log) (h : Inner sha256 capacity append s.core t) :
    Step s { s with core := t }

abbrev Reachable (log : Log) (chain : Chain F) (s : Process F Log n) : Prop :=
  Relation.ReflTransGen (Step sha256 capacity keepAlive append) (boot log chain) s

end Process

def Main.queueClosed : Main → Bool
  | .closed | .joined | .exited => true
  | _ => false

def Main.pooled : Main → Bool
  | .serving | .stopping => true
  | _ => false

def Main.returned : Main → Bool
  | .served | .wsStopped | .closed | .joined | .exited => true
  | _ => false

def Main.leaving (m : Main) : Bool :=
  m == .stopping || m.returned

/-- How many steps lie before a handler has its answer, and what its request costs the writer. -/
def Handler.cost : Handler F → ℕ
  | .idle | .pushing _ => 9
  | .waiting => 1
  | .refused _ | .replied _ => 0

def Worker.cost (handlers : ℕ → Handler F) : Worker → ℕ
  | .exited => 0
  | .idle => 1
  | .connected count => 13 * count + 2
  | .calling id count => 13 * count + 3 + (handlers id).cost

def Main.rank : Main → ℕ
  | .booted | .starting | .serving => 6
  | .stopping => 5
  | .served => 4
  | .wsStopped => 3
  | .closed => 2
  | .joined => 1
  | .exited => 0

namespace Process

/-- A handler runs in a worker, and the workers are gone before the queue is closed. -/
structure Inv (s : Process F Log n) : Prop where
  closed : s.core.closed = s.main.queueClosed
  pooled : s.main.pooled = false → ∀ i, s.workers i = .exited
  calling : ∀ id, s.core.handlers id = .idle ∨ (s.core.handlers id).answer ≠ none ∨
    ∃ i count, s.workers i = .calling id count
  busy : ∀ i id count, s.workers i = .calling id count → s.core.handlers id ≠ .idle
  unrefused : ∀ id r, s.core.handlers id ≠ .refused r
  joined : s.main = .joined ∨ s.main = .exited → s.core.writer = .stopped

variable {sha256 : Bytes → Digest} {capacity keepAlive : ℕ}
  {append : Log → Block F → Except WriteError Unit → Log → Prop} {log : Log} {chain : Chain F}
  {s t : Process F Log n}

theorem Step.core (h : Step sha256 capacity keepAlive append s t) :
    t.core = s.core ∨ Ledger.Step sha256 capacity append s.core t.core := by
  cases h with
  | post i count id event h hid => exact Or.inr (.arrive _ id event hid)
  | read => exact Or.inr (.read _)
  | close => exact Or.inr (.close _)
  | inner t h => exact Or.inr h.step
  | _ => exact Or.inl rfl

/-- What the process makes of the write path is a run of it. -/
theorem Reachable.core (h : Reachable sha256 capacity keepAlive append log chain s) :
    Ledger.Reachable sha256 capacity append log chain s.core := by
  induction h with
  | refl => exact .refl
  | tail _ hstep ih =>
    rcases hstep.core with heq | hcore
    · rwa [heq]
    · exact ih.tail hcore

theorem inv_boot (log : Log) (chain : Chain F) : Inv (boot log chain : Process F Log n) where
  closed := rfl
  pooled _ _ := rfl
  calling _ := Or.inl rfl
  busy i id count h := by cases h
  unrefused id r h := by cases h
  joined h := by rcases h with h | h <;> cases h

theorem Inv.moveWorker (hs : Inv s) {i : Fin n} {w : Worker} (hpooled : s.main.pooled = true)
    (hfree : ∀ id count, s.workers i = .calling id count → (s.core.handlers id).answer ≠ none)
    (hw : ∀ id count, w ≠ .calling id count) :
    Inv (s.setWorker i w) where
  closed := hs.closed
  pooled h := by cases hpooled.symm.trans h
  calling id := by
    rcases hs.calling id with h | h | ⟨j, count, hj⟩
    · exact Or.inl h
    · exact Or.inr (Or.inl h)
    · by_cases heq : j = i
      · exact Or.inr (Or.inl (hfree id count (heq ▸ hj)))
      · exact Or.inr (Or.inr ⟨j, count, (Function.update_of_ne heq ..).trans hj⟩)
  busy j id count hj := by
    by_cases heq : j = i
    · subst heq
      exact absurd ((Function.update_self ..).symm.trans hj) (hw id count)
    · exact hs.busy j id count ((Function.update_of_ne heq ..).symm.trans hj)
  unrefused := hs.unrefused
  joined := hs.joined

theorem Inv.pooled_of_worker (hs : Inv s) {i : Fin n} (h : s.workers i ≠ .exited) :
    s.main.pooled = true := by
  cases hp : s.main.pooled with
  | true => rfl
  | false => exact absurd (hs.pooled hp i) h

theorem Inv.moveMain (hs : Inv s) {main : Main} (hclosed : main.queueClosed = s.main.queueClosed)
    (hpooled : main.pooled = false → ∀ i, s.workers i = .exited)
    (hjoined : main = .joined ∨ main = .exited → s.core.writer = .stopped) :
    Inv { s with main := main } where
  closed := hs.closed.trans hclosed.symm
  pooled := hpooled
  calling := hs.calling
  busy := hs.busy
  unrefused := hs.unrefused
  joined := hjoined

theorem Inner.handlers {s t : State F Log} (h : Inner sha256 capacity append s t) :
    t.handlers = s.handlers ∨
    (∃ id r, s.handlers id = .pushing r ∧ s.closed = true) ∨
    (∃ id r, s.handlers id = .pushing r ∧ t.handlers = Function.update s.handlers id .waiting) ∨
    ∃ id x, t.handlers = Function.update s.handlers id (.replied x) := by
  obtain ⟨hstep, hrequested, -, -, -⟩ := h
  cases hstep with
  | arrive => simp at hrequested
  | accept id r h => exact Or.inr (Or.inr (Or.inl ⟨id, r, h, rfl⟩))
  | refuse id r h hc => exact Or.inr (Or.inl ⟨id, r, h, hc⟩)
  | receive id x => exact Or.inr (Or.inr (Or.inr ⟨id, x, rfl⟩))
  | _ => exact Or.inl rfl

theorem Inner.stopped {s t : State F Log} (h : Inner sha256 capacity append s t)
    (hw : s.writer = .stopped) : t.writer = .stopped := by
  cases h.step with
  | arrive | accept | refuse | close | receive | read => exact hw
  | _ => rename s.writer = _ => h'; cases hw.symm.trans h'

theorem Inv.open_of_pushing (hs : Inv s) {id : ℕ} {r : WriteRequest F}
    (h : s.core.handlers id = .pushing r) : s.core.closed = false := by
  rcases hs.calling id with h' | h' | ⟨i, count, hi⟩
  · cases h.symm.trans h'
  · rw [h] at h'
    exact absurd rfl h'
  · have hpooled : s.main.pooled = true := hs.pooled_of_worker (i := i) (by rw [hi]; simp)
    rw [hs.closed]
    cases hm : s.main <;> simp [hm, Main.pooled, Main.queueClosed] at hpooled ⊢

theorem Inv.moved (hs : Inv s) {core : State F Log}
    (h : Inner sha256 capacity append s.core core) (id : ℕ) :
    core.handlers id = s.core.handlers id ∨
    (∃ r, s.core.handlers id = .pushing r ∧ core.handlers id = .waiting) ∨
    ∃ x, core.handlers id = .replied x := by
  rcases h.handlers with heq | ⟨id', r, hr, hc⟩ | ⟨id', r, hr, heq⟩ | ⟨id', x, heq⟩
  · exact Or.inl (congrFun heq id)
  · cases (hs.open_of_pushing hr).symm.trans hc
  · by_cases hid : id = id'
    · subst hid
      exact Or.inr (Or.inl ⟨r, hr, by rw [heq, Function.update_self]⟩)
    · exact Or.inl (by rw [heq, Function.update_of_ne hid])
  · by_cases hid : id = id'
    · subst hid
      exact Or.inr (Or.inr ⟨x, by rw [heq, Function.update_self]⟩)
    · exact Or.inl (by rw [heq, Function.update_of_ne hid])

theorem Inv.inner (hs : Inv s) {core : State F Log}
    (h : Inner sha256 capacity append s.core core) : Inv { s with core := core } where
  closed := h.closed.trans hs.closed
  pooled := hs.pooled
  calling id := by
    rcases hs.moved h id with heq | ⟨r, hr, -⟩ | ⟨x, hx⟩
    · simp only [heq]
      exact hs.calling id
    · rcases hs.calling id with h' | h' | h'
      · cases hr.symm.trans h'
      · rw [hr] at h'
        exact absurd rfl h'
      · exact Or.inr (Or.inr h')
    · exact Or.inr (Or.inl (by simp [hx, Handler.answer]))
  busy i id count hi hidle := by
    rcases hs.moved h id with heq | ⟨r, -, hw⟩ | ⟨x, hx⟩
    · exact hs.busy i id count hi (heq.symm.trans hidle)
    · cases hw.symm.trans hidle
    · cases hx.symm.trans hidle
  unrefused id r hrefused := by
    rcases hs.moved h id with heq | ⟨r', -, hw⟩ | ⟨x, hx⟩
    · exact hs.unrefused id r (heq.symm.trans hrefused)
    · cases hw.symm.trans hrefused
    · cases hx.symm.trans hrefused
  joined hm := h.stopped (hs.joined hm)

theorem Inv.post (hs : Inv s) {i : Fin n} {count id : ℕ} (event : EventPayload F)
    (h : s.workers i = .connected (count + 1)) :
    Inv ({ s with core := s.core.arrive id event }.setWorker i (.calling id count)) where
  closed := hs.closed
  pooled hp := by
    have hpooled := hs.pooled_of_worker (i := i) (by rw [h]; simp)
    cases hpooled.symm.trans hp
  calling id' := by
    by_cases hid : id' = id
    · subst hid
      exact Or.inr (Or.inr ⟨i, count, Function.update_self ..⟩)
    · rcases hs.calling id' with h' | h' | ⟨j, count', hj⟩
      · exact Or.inl ((Function.update_of_ne hid ..).trans h')
      · refine Or.inr (Or.inl fun hnone => h' ?_)
        simpa only [setWorker, State.arrive, Function.update_of_ne hid] using hnone
      · have hji : j ≠ i := by
          rintro rfl
          cases h.symm.trans hj
        exact Or.inr (Or.inr ⟨j, count', (Function.update_of_ne hji ..).trans hj⟩)
  busy j id' count' hj hidle := by
    by_cases hid : id' = id
    · subst hid
      cases (Function.update_self id' _ s.core.handlers).symm.trans hidle
    · have hidle' := (Function.update_of_ne hid ..).symm.trans hidle
      by_cases hji : j = i
      · subst hji
        cases (Function.update_self j _ s.workers).symm.trans hj
        exact hid rfl
      · exact hs.busy j id' count' ((Function.update_of_ne hji ..).symm.trans hj) hidle'
  unrefused id' r hr := by
    by_cases hid : id' = id
    · subst hid
      cases (Function.update_self id' _ s.core.handlers).symm.trans hr
    · exact hs.unrefused id' r ((Function.update_of_ne hid ..).symm.trans hr)
  joined := hs.joined

theorem Inv.moveFree (hs : Inv s) {i : Fin n} {w w' : Worker} (h : s.workers i = w)
    (hw : w ≠ .exited) (hfree : ∀ id count, w ≠ .calling id count)
    (hfree' : ∀ id count, w' ≠ .calling id count) : Inv (s.setWorker i w') :=
  hs.moveWorker (hs.pooled_of_worker (by rwa [h]))
    (fun id count hc => absurd (h.symm.trans hc) (hfree id count)) hfree'

theorem Inv.step (hs : Inv s) (h : Step sha256 capacity keepAlive append s t) : Inv t := by
  cases h with
  | wsFailed h | wsStarted h | notListening h | stopWs h =>
    exact hs.moveMain (by rw [h]; rfl) (fun _ => hs.pooled (by rw [h]; rfl)) (by simp)
  | listen h =>
    refine ⟨by rw [hs.closed, h]; rfl, fun hp => (by cases hp), fun id => ?_,
      fun i id count h => (by cases h), hs.unrefused, by simp⟩
    rcases hs.calling id with h' | h' | ⟨i, count, hi⟩
    · exact Or.inl h'
    · exact Or.inr (Or.inl h')
    · cases (hs.pooled (by rw [h]; rfl) i).symm.trans hi
  | accept h => exact ⟨hs.closed, hs.pooled, hs.calling, hs.busy, hs.unrefused, hs.joined⟩
  | leave h =>
    exact hs.moveMain (by rw [h]; rfl) (fun hp => by cases hp) (by simp)
  | take i jobs h hj =>
    have htaken : Inv { s with jobs := jobs } :=
      ⟨hs.closed, hs.pooled, hs.calling, hs.busy, hs.unrefused, hs.joined⟩
    exact htaken.moveFree h (by simp) (by simp) (by simp)
  | post i count id event h hid => exact hs.post event h
  | answered i id count h ha =>
    refine hs.moveWorker (hs.pooled_of_worker (by rw [h]; simp)) (fun id' count' hc => ?_) (by simp)
    cases h.symm.trans hc
    exact ha
  | read i count h =>
    have hlook : Inv { s with core := s.core.look } :=
      ⟨hs.closed, hs.pooled, hs.calling, hs.busy, hs.unrefused, hs.joined⟩
    exact hlook.moveFree h (by simp) (by simp) (by simp)
  | other i count h => exact hs.moveFree h (by simp) (by simp) (by simp)
  | hangUp i count h => exact hs.moveFree h (by simp) (by simp) (by simp)
  | workerExit i h => exact hs.moveFree h (by simp) (by simp) (by simp)
  | workersJoined hm h => exact hs.moveMain (by rw [hm]; rfl) (fun _ => h) (by simp)
  | close h =>
    exact ⟨rfl, fun _ => hs.pooled (by rw [h]; rfl), hs.calling, hs.busy, hs.unrefused, by simp⟩
  | joinWriter h hw =>
    exact hs.moveMain (by rw [h]; rfl) (fun _ => hs.pooled (by rw [h]; rfl)) fun _ => hw
  | closeAll h =>
    exact hs.moveMain (by rw [h]; rfl) (fun _ => hs.pooled (by rw [h]; rfl)) fun _ =>
      hs.joined (Or.inl h)
  | inner t h => exact hs.inner h

theorem Reachable.inv (h : Reachable sha256 capacity keepAlive append log chain s) : Inv s := by
  induction h with
  | refl => exact inv_boot log chain
  | tail _ hstep ih => exact ih.step hstep

/-- Every request has been answered, and every copy of the ledger ends with the last of them. -/
structure Settled (chain : Chain F) (s : State F Log) : Prop where
  queue : s.queue = []
  resting : s.writer = .popping ∨ s.writer = .stopped
  answered : ∀ r ∈ s.requested, ∃ x, s.handlers r.respondTo = .replied x ∧
    (r.respondTo, x) ∈ s.replies
  persisted : s.persisted = successes s.replies
  chain : s.chain.blocks = chain.blocks ++ (successes s.replies).map Prod.snd
  published : s.published = (successes s.replies).map Prod.snd

theorem settled_of_handlers {s : State F Log} (hq : Queueing s) (hv : Serving s)
    (hc : Copies chain s) (h : ∀ id, s.handlers id = .idle ∨ ∃ x, s.handlers id = .replied x) :
    Settled chain s := by
  have hanswered : ∀ r ∈ s.requested, ∃ x, s.handlers r.respondTo = .replied x ∧
      (r.respondTo, x) ∈ s.replies := by
    intro r hr
    rcases h r.respondTo with hidle | ⟨x, hx⟩
    · have hok := hq.handlers r.respondTo
      simp only [State.HandlerOk, hidle] at hok
      exact absurd (List.mem_map_of_mem hr) hok
    · exact ⟨x, hx, (hv.promises _ x).mp (hv.received _ x hx)⟩
  have hids : s.accepted.map WriteRequest.respondTo =
      s.replies.map Prod.fst ++ (s.writer.inService ++ s.queue.map WriteRequest.respondTo) := by
    rw [hq.fifo, List.map_append, hv.order, List.append_assoc]
  have hnodup := hq.accepted_nodup
  rw [hids] at hnodup
  have hnone : s.writer.inService ++ s.queue.map WriteRequest.respondTo = [] := by
    rw [List.eq_nil_iff_forall_not_mem]
    intro id hid
    have hmem : id ∈ s.accepted.map WriteRequest.respondTo := hids ▸ List.mem_append_right _ hid
    obtain ⟨r, hr, rfl⟩ := List.mem_map.mp hmem
    obtain ⟨x, -, hx⟩ := hanswered r (hq.accepted_subset hr)
    exact (List.nodup_append.mp hnodup).2.2 _ (List.mem_map_of_mem hx) _ hid rfl
  obtain ⟨hservice, hqueue⟩ := List.append_eq_nil_iff.mp hnone
  have hresting : s.writer = .popping ∨ s.writer = .stopped := by
    cases hw : s.writer <;> simp [hw, Writer.inService] at hservice ⊢
  have hrest : s.writer.unpushed = [] ∧ s.writer.unreplied = [] ∧ s.writer.unpublished = [] := by
    rcases hresting with hw | hw <;> rw [hw] <;> exact ⟨rfl, rfl, rfl⟩
  have happended := hc.appended
  have hpersisted := hc.persisted
  have hpublished := hc.published
  simp only [hrest, List.append_nil] at happended hpersisted hpublished
  exact ⟨List.map_eq_nil_iff.mp hqueue, hresting, hanswered, hpersisted.trans happended,
    happended ▸ hc.chain, hpublished⟩

theorem Reachable.settled (h : Reachable sha256 capacity keepAlive append log chain s)
    (hm : s.main.returned = true) : Settled chain s.core := by
  have hinv := h.inv
  have hrun := h.core
  refine settled_of_handlers hrun.queueing hrun.serving hrun.copies fun id => ?_
  have hpooled : s.main.pooled = false := by
    cases hmain : s.main <;> simp [hmain, Main.returned, Main.pooled] at hm ⊢
  rcases hinv.calling id with h' | h' | ⟨i, count, hi⟩
  · exact Or.inl h'
  · cases hhandler : s.core.handlers id with
    | replied x => exact Or.inr ⟨x, rfl⟩
    | refused r => exact absurd hhandler (hinv.unrefused id r)
    | idle => exact Or.inl rfl
    | pushing r | waiting => rw [hhandler] at h'; exact absurd rfl h'
  · cases (hinv.pooled hpooled i).symm.trans hi

/-- The shutdown drops nothing. No handler is ever refused; when `serve` returns every request has
its answer, so that the queue is closed when it is empty and the writer waits; and the process
exits behind its writer. -/
theorem shutdown_drops_nothing (h : Reachable sha256 capacity keepAlive append log chain s) :
    (∀ id r, s.core.handlers id ≠ .refused r) ∧
    (s.main.returned = true → Settled chain s.core) ∧
    (s.core.closed = true → s.main.returned = true) ∧
    (s.main = .exited → s.core.writer = .stopped) := by
  have hinv := h.inv
  refine ⟨hinv.unrefused, h.settled, fun hc => ?_, fun hm => hinv.joined (Or.inr hm)⟩
  rw [hinv.closed] at hc
  cases hm : s.main <;> simp [hm, Main.queueClosed, Main.returned] at hc ⊢

/-- A bound on the steps of the process once the accept loop has been left. -/
def cost (keepAlive : ℕ) (s : Process F Log n) : ℕ :=
  s.main.rank + s.jobs * (13 * keepAlive + 2) + ∑ i, (s.workers i).cost s.core.handlers +
    s.core.work

private theorem sum_add_le {f g : Fin n → ℕ} {i : Fin n} {d e : ℕ} (hle : ∀ j, j ≠ i → g j ≤ f j)
    (hi : g i + d ≤ f i + e) : ∑ j, g j + d ≤ ∑ j, f j + e := by
  rw [← Finset.add_sum_erase _ g (Finset.mem_univ i), ← Finset.add_sum_erase _ f (Finset.mem_univ i)]
  have hrest : ∑ j ∈ Finset.univ.erase i, g j ≤ ∑ j ∈ Finset.univ.erase i, f j :=
    Finset.sum_le_sum fun j hj => hle j (Finset.ne_of_mem_erase hj)
  omega

theorem sum_setWorker_add_le {workers : Fin n → Worker} {handlers handlers' : ℕ → Handler F}
    {i : Fin n} {w : Worker} {d e : ℕ}
    (hhandlers : ∀ j id count, workers j = .calling id count →
      (handlers' id).cost ≤ (handlers id).cost)
    (hi : w.cost handlers' + d ≤ (workers i).cost handlers + e) :
    ∑ j, (Function.update workers i w j).cost handlers' + d ≤
      ∑ j, (workers j).cost handlers + e := by
  refine sum_add_le (i := i) (fun j heq => ?_) (by rwa [Function.update_self])
  rw [Function.update_of_ne heq]
  cases hw : workers j with
  | calling id count =>
    have := hhandlers j id count hw
    simp only [Worker.cost]
    omega
  | _ => exact le_rfl

theorem Inner.cost (hs : Inv s) {core : State F Log}
    (h : Inner sha256 capacity append s.core core) :
    ∑ i, (s.workers i).cost core.handlers + core.work <
      ∑ i, (s.workers i).cost s.core.handlers + s.core.work := by
  have hmove : ∀ (id : ℕ) (handler : Handler F) (d : ℕ), s.core.handlers id ≠ .idle →
      (s.core.handlers id).answer = none → handler.cost + d ≤ (s.core.handlers id).cost →
      ∑ i, (s.workers i).cost (Function.update s.core.handlers id handler) + d ≤
        ∑ i, (s.workers i).cost s.core.handlers := by
    intro id handler d hne hnone hcost
    obtain ⟨i, count, hi⟩ := ((hs.calling id).resolve_left hne).resolve_left fun h => h hnone
    refine sum_add_le (i := i) (e := 0) (fun j _ => ?_) ?_
    · cases s.workers j with
      | calling id' count' =>
        by_cases heq : id' = id
        · subst heq
          simp only [Worker.cost, Function.update_self]
          omega
        · simp only [Worker.cost, Function.update_of_ne heq]
          exact le_rfl
      | _ => exact le_rfl
    · simp only [hi, Worker.cost, Function.update_self]
      omega
  obtain ⟨hstep, hrequested, hsnapshots, hclosed, hmoves⟩ := h
  cases hstep with
  | arrive => simp at hrequested
  | read => simp at hsnapshots
  | close =>
    refine absurd ?_ hmoves
    simp only at hclosed
    rw [hclosed]
  | accept id r hr =>
    have hle := hmove id .waiting 8 (by rw [hr]; simp) (by rw [hr]; rfl)
      (by rw [hr]; rfl)
    simp only [State.work, List.length_append, List.length_singleton]
    omega
  | refuse id r hr hc => cases (hs.open_of_pushing hr).symm.trans hc
  | receive id x hw =>
    have hle := hmove id (.replied x) 1 (by rw [hw]; simp) (by rw [hw]; rfl)
      (by rw [hw]; rfl)
    simp only [State.work]
    omega
  | pop r rest hw hq =>
    simp only [State.work, hw, hq, Writer.rank, List.length_cons]
    omega
  | _ =>
    rename s.core.writer = _ => hw
    simp only [State.work, hw, Writer.rank]
    omega

theorem cost_setWorker {i : Fin n} {w : Worker}
    (h : w.cost s.core.handlers < (s.workers i).cost s.core.handlers) :
    (s.setWorker i w).cost keepAlive < s.cost keepAlive := by
  have hle : ∑ j, (Function.update s.workers i w j).cost s.core.handlers + 1 ≤
      ∑ j, (s.workers j).cost s.core.handlers + 0 :=
    sum_setWorker_add_le (fun j id count _ => le_rfl) h
  simp only [cost, setWorker]
  omega

theorem Step.cost_lt (hs : Inv s) (hl : s.main.leaving = true)
    (h : Step sha256 capacity keepAlive append s t) :
    t.main.leaving = true ∧ t.cost keepAlive < s.cost keepAlive := by
  cases h with
  | wsFailed h | wsStarted h | notListening h | listen h | accept h | leave h =>
    rw [h] at hl
    cases hl
  | take i jobs h hj =>
    have hle : ∑ j, (Function.update s.workers i (.connected keepAlive) j).cost s.core.handlers + 0 ≤
        ∑ j, (s.workers j).cost s.core.handlers + (13 * keepAlive + 1) :=
      sum_setWorker_add_le (fun j id count _ => le_rfl) (by simp only [h, Worker.cost]; omega)
    refine ⟨hl, ?_⟩
    simp only [cost, setWorker, hj, Nat.add_mul]
    omega
  | post i count id event h hid =>
    have hle : ∑ j, (Function.update s.workers i (.calling id count) j).cost
        (s.core.arrive id event).handlers + 1 ≤ ∑ j, (s.workers j).cost s.core.handlers + 0 := by
      refine sum_setWorker_add_le (fun j id' count' hj => ?_) ?_
      · have hne : id' ≠ id := by
          rintro rfl
          exact hs.busy j id' count' hj hid
        simp only [State.arrive, Function.update_of_ne hne]
        exact le_rfl
      · simp only [h, Worker.cost, State.arrive, Function.update_self, Handler.cost]
        omega
    have hwork : (s.core.arrive id event).work = s.core.work := rfl
    refine ⟨hl, ?_⟩
    simp only [cost, setWorker, hwork]
    omega
  | answered i id count h ha =>
    refine ⟨hl, cost_setWorker ?_⟩
    rw [h]
    simp only [Worker.cost]
    omega
  | read i count h =>
    have hlook : ({ s with core := s.core.look } : Process F Log n).cost keepAlive =
        s.cost keepAlive := rfl
    refine ⟨hl, hlook ▸ cost_setWorker ?_⟩
    simp only [h, Worker.cost]
    omega
  | other i count h =>
    refine ⟨hl, cost_setWorker ?_⟩
    rw [h]
    simp only [Worker.cost]
    omega
  | hangUp i count h =>
    refine ⟨hl, cost_setWorker ?_⟩
    rw [h]
    simp only [Worker.cost]
    omega
  | workerExit i h =>
    refine ⟨hl, cost_setWorker ?_⟩
    rw [h]
    simp only [Worker.cost]
    omega
  | workersJoined hm | stopWs hm | joinWriter hm | closeAll hm =>
    refine ⟨rfl, ?_⟩
    simp only [cost, hm, Main.rank]
    omega
  | close h =>
    refine ⟨rfl, ?_⟩
    simp only [cost, h, Main.rank, State.work]
    omega
  | inner t h =>
    have hlt := h.cost hs
    refine ⟨hl, ?_⟩
    simp only [cost]
    omega

theorem exists_inner {s : State F Log} (happ : ∀ log b, ∃ result log', append log b result log')
    (hroom : s.chain.size + 1 < 2 ^ 64) (hw : s.writer ≠ .stopped)
    (hpop : s.writer = .popping → s.queue ≠ [] ∨ s.closed = true) :
    ∃ t, Inner sha256 capacity append s t := by
  obtain ⟨t, hstep, hacc, hclosed, hlt, -⟩ : ∃ t, Ledger.Step sha256 capacity append s t ∧ _ :=
    writer_progress happ hroom hw hpop
  have hmoves : t ≠ s := by
    rintro rfl
    exact lt_irrefl _ hlt
  refine ⟨t, hstep, ?_, ?_, hclosed, hmoves⟩
  · cases hstep with
    | arrive => exact absurd hlt (lt_irrefl _)
    | _ => rfl
  · cases hstep with
    | read => exact absurd hlt (lt_irrefl _)
    | _ => rfl

theorem exists_step_of_calling (happ : ∀ log b, ∃ result log', append log b result log')
    (hcap : 0 < capacity) (hs : Inv s) (hq : Queueing s.core) (hv : Serving s.core)
    (hroom : s.core.chain.size + 1 < 2 ^ 64) {i : Fin n} {id count : ℕ}
    (hi : s.workers i = .calling id count) :
    ∃ t, Step sha256 capacity keepAlive append s t := by
  have hinner : s.core.writer ≠ .stopped → (s.core.writer = .popping → s.core.queue ≠ []) →
      ∃ t, Step sha256 capacity keepAlive append s t := by
    intro hw hpop
    obtain ⟨t, ht⟩ := exists_inner happ hroom hw fun h => Or.inl (hpop h)
    exact ⟨_, .inner s t ht⟩
  cases hh : s.core.handlers id with
  | idle => exact absurd hh (hs.busy i id count hi)
  | refused r => exact absurd hh (hs.unrefused id r)
  | replied x => exact ⟨_, .answered s i id count hi (by rw [hh]; simp [Handler.answer])⟩
  | pushing r =>
    have hopen := hs.open_of_pushing hh
    by_cases hfull : s.core.queue.length < capacity
    · have hstep : Ledger.Step sha256 capacity append s.core _ :=
        .accept s.core id r hh hopen hfull
      refine ⟨_, .inner s _ ⟨hstep, rfl, rfl, rfl, fun heq => ?_⟩⟩
      have := congrArg (fun u => u.queue.length) heq
      simp at this
    · refine hinner (fun hw => ?_) fun _ hnil => ?_
      · cases hopen.symm.trans (hq.stopped hw).1
      · rw [hnil] at hfull
        exact hfull hcap
  | waiting =>
    cases hp : s.core.promises id with
    | some x =>
      refine ⟨_, .inner s _ ⟨.receive s.core id x hh hp, rfl, rfl, rfl, fun heq => ?_⟩⟩
      have := congrArg (fun u => u.handlers id) heq
      simp [hh] at this
    | none =>
      have hok := hq.handlers id
      simp only [State.HandlerOk, hh] at hok
      rw [hq.fifo, List.map_append, hv.order, List.append_assoc, List.mem_append] at hok
      rcases hok with hreplied | hpending
      · obtain ⟨⟨id', x⟩, hmem, rfl⟩ := List.mem_map.mp hreplied
        cases hp.symm.trans ((hv.promises _ x).mpr hmem)
      · refine hinner (fun hw => ?_) fun hw hnil => ?_
        · rw [hw, (hq.stopped hw).2] at hpending
          cases hpending
        · rw [hw, hnil] at hpending
          cases hpending

/-- Behind the accept loop the process is never stuck. -/
theorem exists_step (happ : ∀ log b, ∃ result log', append log b result log')
    (hcap : 0 < capacity) (h : Reachable sha256 capacity keepAlive append log chain s)
    (hroom : s.core.chain.size + 1 < 2 ^ 64) (hl : s.main.leaving = true)
    (hexited : s.main ≠ .exited) : ∃ t, Step sha256 capacity keepAlive append s t := by
  have hs := h.inv
  cases hm : s.main with
  | booted | starting | serving => rw [hm] at hl; cases hl
  | exited => exact absurd hm hexited
  | served => exact ⟨_, .stopWs s hm⟩
  | wsStopped => exact ⟨_, .close s hm⟩
  | joined => exact ⟨_, .closeAll s hm⟩
  | closed =>
    by_cases hw : s.core.writer = .stopped
    · exact ⟨_, .joinWriter s hm hw⟩
    · have hclosed : s.core.closed = true := by rw [hs.closed, hm]; rfl
      obtain ⟨t, ht⟩ : ∃ t, Inner sha256 capacity append s.core t :=
        exists_inner happ hroom hw fun _ => Or.inr hclosed
      exact ⟨_, .inner s t ht⟩
  | stopping =>
    by_cases hall : ∀ i, s.workers i = .exited
    · exact ⟨_, .workersJoined s hm hall⟩
    · obtain ⟨i, hi⟩ := not_forall.mp hall
      cases hw : s.workers i with
      | exited => exact absurd hw hi
      | connected count => exact ⟨_, .hangUp s i count hw⟩
      | calling id count =>
        exact exists_step_of_calling happ hcap hs h.core.queueing h.core.serving hroom hw
      | idle =>
        cases hj : s.jobs with
        | zero => exact ⟨_, .workerExit s i hw hj hm⟩
        | succ jobs => exact ⟨_, .take s i jobs hw hj⟩

theorem Reachable.leaving (h : Reachable sha256 capacity keepAlive append log chain s)
    (hl : s.main.leaving = true)
    (hrun : Relation.ReflTransGen (Step sha256 capacity keepAlive append) s t) :
    t.main.leaving = true := by
  induction hrun with
  | refl => exact hl
  | tail hrun hstep ih => exact (Step.cost_lt (Reachable.inv (h.trans hrun)) ih hstep).1

theorem step_spends : Spends
    (fun s t : Process F Log n => Step sha256 capacity keepAlive append s t)
    (fun s => Reachable sha256 capacity keepAlive append log chain s ∧ s.main.leaving = true)
    (cost keepAlive) where
  keep _ _ hs h := ⟨hs.1.tail h, (Step.cost_lt hs.1.inv hs.2 h).1⟩
  lt _ _ hs h := (Step.cost_lt hs.1.inv hs.2 h).2

/-- The shutdown ends. Once the accept loop has been left no run goes on for ever, and one that can
go no further has reached the exit. -/
theorem shutdown_terminates (happ : ∀ log b, ∃ result log', append log b result log')
    (hcap : 0 < capacity) (h : Reachable sha256 capacity keepAlive append log chain s)
    (hl : s.main.leaving = true) :
    Acc (fun t s => Step sha256 capacity keepAlive append s t) s ∧
    ∀ t, Relation.ReflTransGen (Step sha256 capacity keepAlive append) s t →
      t.core.chain.size + 1 < 2 ^ 64 → (∀ u, ¬Step sha256 capacity keepAlive append t u) →
      t.main = .exited := by
  refine ⟨step_spends.acc ⟨h, hl⟩, fun t hrun hroom hstuck => ?_⟩
  by_contra hne
  obtain ⟨u, hu⟩ := exists_step happ hcap (h.trans hrun) hroom (h.leaving hl hrun) hne
  exact hstuck u hu

/-- A process that was shut down without a failed write comes back with the chain it had, which
ends with the blocks it acknowledged. -/
theorem chain_after_shutdown [LawfulNumberFloat F] {now now' : Tm} {file : Option Bytes}
    {io : WriteOutcome} {boot : Chain F} {os : OFStream} {s : Process F OFStream n}
    (hboot : runBoot sha256 now file io = .ok (boot, os)) (hroom : boot.size < 2 ^ 64)
    (hun : unfinished 0x0A os.file = [])
    (h : Reachable sha256 capacity keepAlive (Appends AnyOutcome) os boot s)
    (hm : s.main.returned = true) (hok : s.core.log.failed = false) (m : ℕ) :
    loadChain sha256 now' (some (s.core.log.close m)) = .ok s.core.chain ∧
      s.core.chain.blocks = boot.blocks ++ (successes s.core.replies).map Prod.snd := by
  have hsettled := h.settled hm
  have hgrew := Ledger.Reachable.grew h.core (runBoot_open hboot) hroom
  obtain ⟨hfin, hun'⟩ := finished_append_lines hun hgrew.wellFormed
  refine ⟨loadChain_of_encodes sha256 now' s.core.chain.ne_nil ?_, hsettled.chain⟩
  rw [OFStream.close_of_open hok, hgrew.open_file hok, State.lines, getlines_of_unfinished_nil hun', hfin,
    ← getlines_of_unfinished_nil hun, hsettled.chain, ← hsettled.persisted]
  exact (runBoot_encodes hboot).append (encodes_lines hgrew.wellFormed)

theorem exists_stopping (log : Log) (chain : Chain F) (event : EventPayload F) :
    ∃ s : Process F Log 1, Reachable sha256 1 1 append log chain s ∧ s.main = .stopping ∧
      s.jobs = 0 ∧ s.workers = Function.update (fun _ => .idle) 0 (.calling 7 0) ∧
      s.core = (State.boot log chain).arrive 7 event := by
  have hrun : Reachable sha256 1 1 append log chain (boot log chain : Process F Log 1) := .refl
  have hserving := (hrun.tail (.wsStarted _ rfl)).tail (.listen _ rfl)
  have htaken := (hserving.tail (.accept _ rfl)).tail (.take _ 0 0 rfl rfl)
  have hposted := htaken.tail (.post _ 0 0 7 event rfl rfl)
  exact ⟨_, hposted.tail (.leave _ rfl), rfl, rfl, Function.update_idem .., rfl⟩

theorem exists_exited {log log' : Log} {chain : Chain F} {event : EventPayload F} {now : Tm}
    (hroom : chain.size + 1 < 2 ^ 64)
    (happ : append log (buildNext sha256 now chain event) (.ok ()) log') :
    ∃ s : Process F Log 1, Reachable sha256 1 1 append log chain s ∧ s.main = .exited ∧
      s.core.log = log' ∧ s.core.replies = [(7, .ok (buildNext sha256 now chain event))] := by
  obtain ⟨s, hrun, hmain, hjobs, hworkers, hcore⟩ : ∃ s : Process F Log 1,
    Reachable sha256 1 1 append log chain s ∧ _ := exists_stopping log chain event
  obtain ⟨main, jobs, workers, core⟩ := s
  subst hmain hjobs hworkers hcore
  have haccept := hrun.tail (.inner _ _ ⟨.accept _ 7 ⟨event, 7⟩ rfl rfl zero_lt_one,
    rfl, rfl, rfl, fun h => by cases congrArg State.queue h⟩)
  have hpop := haccept.tail (.inner _ _ ⟨.pop _ ⟨event, 7⟩ [] rfl rfl, rfl, rfl, rfl,
    fun h => by cases congrArg State.writer h⟩)
  have hbuild := hpop.tail (.inner _ _ ⟨.build _ _ now rfl, rfl, rfl, rfl,
    fun h => by cases congrArg State.writer h⟩)
  have hpersist := hbuild.tail (.inner _ _ ⟨.persist _ 7 _ _ rfl happ, rfl, rfl, rfl,
    fun h => by cases congrArg State.writer h⟩)
  have hpush := hpersist.tail (.inner _ _ ⟨.push _ 7 _ rfl hroom, rfl, rfl, rfl,
    fun h => by cases congrArg State.writer h⟩)
  have hpublish := hpush.tail (.inner _ _ ⟨.publish _ 7 _ rfl, rfl, rfl, rfl,
    fun h => by cases congrArg State.writer h⟩)
  have hreply := hpublish.tail (.inner _ _ ⟨.reply _ 7 _ rfl rfl, rfl, rfl, rfl,
    fun h => by cases congrArg State.writer h⟩)
  have hreceive := hreply.tail (.inner _ _ ⟨.receive _ 7 _ rfl rfl, rfl, rfl, rfl,
    fun h => by cases congrFun (congrArg State.handlers h) 7⟩)
  have hanswered := hreceive.tail (.answered _ 0 7 0 rfl fun h => by cases h)
  have hidle := hanswered.tail (.hangUp _ 0 0 rfl)
  have hgone := hidle.tail (.workerExit _ 0 rfl rfl rfl)
  have hserved := hgone.tail (.workersJoined _ rfl fun i => by rw [Subsingleton.elim i 0]; rfl)
  have hclosed := (hserved.tail (.stopWs _ rfl)).tail (.close _ rfl)
  have hdrained := hclosed.tail (.inner _ _ ⟨.drained _ rfl rfl rfl, rfl, rfl, rfl,
    fun h => by cases congrArg State.writer h⟩)
  have hexited := (hdrained.tail (.joinWriter _ rfl rfl)).tail (.closeAll _ rfl)
  exact ⟨_, hexited, rfl, rfl, rfl⟩

theorem exists_exited_sample : ∃ s : Process Numeral OFStream 1,
    Reachable sampleSha256 1 1 (Appends AnyOutcome) ⟨sampleGenesis.line, none⟩ sampleChain s ∧
      s.main = .exited ∧ s.core.log = ⟨sampleLedger, none⟩ ∧
      s.core.replies = [(7, .ok sampleBlock)] := by
  have happ : Appends AnyOutcome ⟨sampleGenesis.line, none⟩ sampleBlock (.ok ())
      ⟨sampleLedger, none⟩ :=
    .of_appendBlock trivial (appendBlock_complete sampleBlock_wellFormed rfl)
  have hb : buildNext sampleSha256 sampleClock sampleChain sampleEvent = sampleBlock := by
    unfold buildNext sampleBlock
    congr 1
  rw [← hb] at happ ⊢
  exact exists_exited (show sampleChain.size + 1 < 2 ^ 64 by decide) happ

theorem shutdown_drops_nothing_sample : ∃ s : Process Numeral OFStream 1,
    s.main = .exited ∧ s.core.replies = [(7, .ok sampleBlock)] ∧ Settled sampleChain s.core := by
  obtain ⟨s, hrun, hexited, -, hreplies⟩ := exists_exited_sample
  exact ⟨s, hexited, hreplies, (shutdown_drops_nothing hrun).2.1 (by rw [hexited]; rfl)⟩

theorem shutdown_terminates_sample : ∃ s : Process Numeral Unit 1,
    s.workers 0 = .calling 7 0 ∧ s.main = .stopping ∧
      Acc (fun t s => Step sampleSha256 1 1 reliableDisk s t) s := by
  obtain ⟨s, hrun, hmain, -, hworkers, -⟩ : ∃ s : Process Numeral Unit 1,
    Reachable sampleSha256 1 1 reliableDisk () sampleChain s ∧ _ := exists_stopping _ _ sampleEvent
  have happ : ∀ log b, ∃ result log', reliableDisk log b result log' :=
    fun _ _ => ⟨.ok (), (), rfl⟩
  exact ⟨s, by rw [hworkers, Function.update_self], hmain,
    (shutdown_terminates happ zero_lt_one hrun (by rw [hmain]; rfl)).1⟩

theorem chain_after_shutdown_sample : ∃ s : Process Numeral OFStream 1,
    s.main = .exited ∧ s.core.chain.blocks = [sampleGenesis, sampleBlock] ∧
      loadChain sampleSha256 sampleClock (some (s.core.log.close 0)) = .ok s.core.chain := by
  obtain ⟨s, hrun, hexited, hlog, hreplies⟩ := exists_exited_sample
  have hun := unfinished_append_line [] (newline_not_mem sampleGenesis_wellFormed)
  rw [List.nil_append] at hun
  obtain ⟨hload, hchain⟩ := chain_after_shutdown runBoot_installed
    (show sampleChain.size < 2 ^ 64 by decide) hun hrun (by rw [hexited]; rfl) (by rw [hlog]; rfl) 0
  rw [hreplies] at hchain
  exact ⟨s, hexited, hchain, hload⟩

end Process

end Ledger

import Ledger.System.Reconnect
import Mathlib.Algebra.Order.Field.Rat
import Mathlib.Logic.Function.Basic
import Mathlib.Tactic.Linarith

/-! The task of `BlockFeed`: `start`, `stop` and `_run`, which go on from one `await` to the next.
What a message does is elsewhere. -/
namespace Ledger.Backend.FeedTask
open Function (update)

def initialBackoff : ℚ :=
  1 / 2

def maxBackoff : ℚ :=
  30

/-- The `await` of `_run` that a task is at. -/
inductive Await
  /-- Not begun. -/
  | begin
  /-- `__aenter__`. -/
  | connect
  | message
  /-- `__aexit__`, with a `CancelledError` or not. -/
  | close (cancelled : Bool)
  | sleep (seconds : ℚ)
  | done
  deriving DecidableEq

/-- A task that is `cancelling` gets a `CancelledError` when it goes on. -/
structure Task where
  place : Await
  backoff : ℚ
  cancelling : Bool

/-- Tasks are numbered in the order in which they are created. `stopping` is the task that `stop`
awaits. -/
structure Feed where
  tasks : ℕ → Task
  created : ℕ
  task : Option ℕ
  stopping : Option ℕ
  connected : Bool
  connects : ℕ

namespace Feed

def initial : Feed where
  tasks _ := ⟨.done, initialBackoff, false⟩
  created := 0
  task := none
  stopping := none
  connected := false
  connects := 0

variable (s : Feed)

def set (i : ℕ) (task : Task) : Feed :=
  { s with tasks := update s.tasks i task }

def create : Feed :=
  { s with
    tasks := update s.tasks s.created ⟨.begin, initialBackoff, false⟩
    created := s.created + 1
    task := some s.created }

def cancel (i : ℕ) : Feed :=
  if (s.tasks i).place = .done then s else s.set i { s.tasks i with cancelling := true }

/-- Behind the `await` at which a `CancelledError` comes. -/
def raise (i : ℕ) : Feed :=
  let task := s.tasks i
  let done : Task := ⟨.done, task.backoff, false⟩
  match task.place with
  | .begin => s.set i done
  | .connect => { s.set i done with connected := false }
  | .message => s.set i ⟨.close true, task.backoff, false⟩
  | .close _ => { s.set i done with connected := false }
  | .sleep _ => s.set i done
  | .done => s

end Feed

/-- What `backoff * (0.5 + random.random())` can be. -/
def Jitter (backoff seconds : ℚ) : Prop :=
  backoff / 2 ≤ seconds ∧ seconds ≤ backoff * 3 / 2

/-- `start` and `stop` are called one after the other, as `lifespan` does. -/
inductive Feed.Step (s : Feed) : Option (Signal ℚ) → Feed → Prop
  | start (hs : s.stopping = none) (h : ∀ i, s.task = some i → (s.tasks i).place = .done) :
    Step s (some .start) s.create
  | started {i : ℕ} (hs : s.stopping = none) (h : s.task = some i)
      (hi : (s.tasks i).place ≠ .done) :
    Step s none s
  | stop {i : ℕ} (hs : s.stopping = none) (h : s.task = some i) :
    Step s (some .stop) { s.cancel i with task := none, stopping := some i }
  | notStarted (hs : s.stopping = none) (h : s.task = none) : Step s none s
  | stopped {i : ℕ} (h : s.stopping = some i) (hi : (s.tasks i).place = .done) :
    Step s none { s with stopping := none, connected := false }
  | begun {i : ℕ} (hi : i < s.created) (h : (s.tasks i).place = .begin)
      (hc : (s.tasks i).cancelling = false) :
    Step s none (s.set i { s.tasks i with place := .connect })
  | connected {i : ℕ} (hi : i < s.created) (h : (s.tasks i).place = .connect)
      (hc : (s.tasks i).cancelling = false) :
    Step s (some .opened) { s.set i ⟨.message, initialBackoff, false⟩ with
      connected := true
      connects := s.connects + 1 }
  | refused {i : ℕ} {seconds : ℚ} (hi : i < s.created) (h : (s.tasks i).place = .connect)
      (hc : (s.tasks i).cancelling = false) (hj : Jitter (s.tasks i).backoff seconds) :
    Step s (some (.lost (s.tasks i).backoff))
      { s.set i { s.tasks i with place := .sleep seconds } with connected := false }
  | dispatched {i : ℕ} (hi : i < s.created) (h : (s.tasks i).place = .message)
      (hc : (s.tasks i).cancelling = false) :
    Step s none s
  /-- The end of the stream, or an exception of it or of `_dispatch`. -/
  | ended {i : ℕ} (hi : i < s.created) (h : (s.tasks i).place = .message)
      (hc : (s.tasks i).cancelling = false) :
    Step s none (s.set i { s.tasks i with place := .close false })
  | closed {i : ℕ} {seconds : ℚ} (hi : i < s.created) (h : (s.tasks i).place = .close false)
      (hc : (s.tasks i).cancelling = false) (hj : Jitter (s.tasks i).backoff seconds) :
    Step s (some (.lost (s.tasks i).backoff))
      { s.set i { s.tasks i with place := .sleep seconds } with connected := false }
  | woken {i : ℕ} {seconds : ℚ} (hi : i < s.created) (h : (s.tasks i).place = .sleep seconds)
      (hc : (s.tasks i).cancelling = false) :
    Step s (some .redial)
      (s.set i { s.tasks i with
        place := .connect
        backoff := min ((s.tasks i).backoff * 2) maxBackoff })
  | raised {i : ℕ} (hi : i < s.created) (hc : (s.tasks i).cancelling = true) :
    Step s none (s.raise i)
  /-- The `CancelledError` goes on behind `__aexit__`. -/
  | left {i : ℕ} (hi : i < s.created) (h : (s.tasks i).place = .close true)
      (hc : (s.tasks i).cancelling = false) :
    Step s none { s.set i ⟨.done, (s.tasks i).backoff, false⟩ with connected := false }

def feed : LTS Feed (Signal ℚ) where
  init s := s = .initial
  step := Feed.Step

def policy : Backoff ℚ where
  initial := initialBackoff
  limit := maxBackoff
  initial_nonneg := by norm_num [initialBackoff]
  initial_le := by norm_num [initialBackoff, maxBackoff]

/-- The phase of a client that is at an `await`. -/
def Await.phase : Await → Phase
  | .begin => .dialing
  | .connect => .dialing
  | .message => .up
  | .close _ => .up
  | .sleep _ => .waiting
  | .done => .off

def Await.inside : Await → Bool
  | .message => true
  | .close _ => true
  | _ => false

/-- A task as a client; asleep it has the wait that it is in. -/
def Task.client (task : Task) : Dialer ℚ :=
  ⟨task.place.phase, match task.place with
    | .sleep _ => policy.next task.backoff
    | _ => task.backoff⟩

/-- The feed is where a client is: its task, if it has one, is the only one that goes on. -/
structure Feed.Tracks (s : Feed) (d : Dialer ℚ) : Prop where
  done : ∀ i < s.created, s.task ≠ some i → s.stopping ≠ some i → (s.tasks i).place = .done
  task : ∀ i, s.task = some i → i < s.created ∧ s.stopping = none ∧
    (s.tasks i).cancelling = false ∧ (s.tasks i).place ≠ .done ∧ (s.tasks i).place ≠ .close true ∧
    d = (s.tasks i).client
  off : d.phase = .off ↔ s.task = none
  stopping : ∀ i, s.stopping = some i → i < s.created ∧
    ((s.tasks i).cancelling = true ∨ (s.tasks i).place = .close true ∨ (s.tasks i).place = .done)
  connected : s.connected = true ↔ ∃ i < s.created, (s.tasks i).place.inside = true
  backoff : ∀ i < s.created, initialBackoff ≤ (s.tasks i).backoff ∧ (s.tasks i).backoff ≤ maxBackoff
  asleep : ∀ i < s.created, ∀ seconds, (s.tasks i).place = .sleep seconds →
    Jitter (s.tasks i).backoff seconds

namespace Feed
variable {s : Feed} {d : Dialer ℚ}

theorem Tracks.initial : Feed.initial.Tracks ⟨.off, initialBackoff⟩ := by
  constructor <;> simp [Feed.initial]

theorem Tracks.owned (h : s.Tracks d) {i : ℕ} (hi : i < s.created)
    (hne : (s.tasks i).place ≠ .done) : s.task = some i ∨ s.stopping = some i := by
  by_contra hnot
  rw [not_or] at hnot
  exact hne (h.done i hi hnot.1 hnot.2)

theorem Tracks.task_of_going (h : s.Tracks d) {i : ℕ} (hi : i < s.created)
    (hc : (s.tasks i).cancelling = false) (hne : (s.tasks i).place ≠ .done)
    (hclose : (s.tasks i).place ≠ .close true) : s.task = some i := by
  refine (h.owned hi hne).resolve_right fun hstopping => ?_
  rcases (h.stopping i hstopping).2 with hcancelling | hclosing | hdone
  · rw [hc] at hcancelling
    cases hcancelling
  · exact hclose hclosing
  · exact hne hdone

theorem Tracks.owner_eq (h : s.Tracks d) {i j : ℕ} (hi : s.task = some i ∨ s.stopping = some i)
    (hj : s.task = some j ∨ s.stopping = some j) : j = i := by
  rcases hj with hj | hj
  · rcases hi with hi | hi
    · exact Option.some.inj (hj.symm.trans hi)
    · rw [(h.task j hj).2.1] at hi
      cases hi
  · rcases hi with hi | hi
    · rw [(h.task i hi).2.1] at hj
      cases hj
    · exact Option.some.inj (hj.symm.trans hi)

theorem Tracks.set (h : s.Tracks d) {i : ℕ} (hown : s.task = some i ∨ s.stopping = some i)
    {task : Task} {d' : Dialer ℚ} {connected : Bool} {connects : ℕ}
    (htask : s.task = some i → task.cancelling = false ∧ task.place ≠ .done ∧
      task.place ≠ .close true ∧ d' = task.client)
    (hstopping : s.stopping = some i → (task.cancelling = true ∨ task.place = .close true ∨
      task.place = .done) ∧ d' = d)
    (hbackoff : initialBackoff ≤ task.backoff ∧ task.backoff ≤ maxBackoff)
    (hasleep : ∀ seconds, task.place = .sleep seconds → Jitter task.backoff seconds)
    (hconnected : connected = task.place.inside) :
    { s.set i task with connected, connects }.Tracks d' := by
  have hi : i < s.created := hown.elim (fun h' => (h.task i h').1) fun h' => (h.stopping i h').1
  constructor
  · intro j hj hntask hnstopping
    have hne : j ≠ i := by
      rintro rfl
      exact hown.elim hntask hnstopping
    simpa [Feed.set, hne] using h.done j hj hntask hnstopping
  · intro j hj
    obtain rfl := h.owner_eq hown (Or.inl hj)
    obtain ⟨hc, hdone, hclose, hclient⟩ := htask hj
    simpa [Feed.set, hc, hdone, hclose, hclient] using ⟨hi, (h.task j hj).2.1⟩
  · rcases hown with hi' | hi'
    · obtain ⟨-, hdone, -, rfl⟩ := htask hi'
      refine iff_of_false ?_ (by simp [Feed.set, hi'])
      simp only [Task.client]
      cases hat : task.place <;> simp_all [Await.phase]
    · rw [(hstopping hi').2]
      exact h.off
  · intro j hj
    obtain rfl := h.owner_eq hown (Or.inr hj)
    simpa [Feed.set] using ⟨hi, (hstopping hj).1⟩
  · rw [hconnected]
    constructor
    · intro hinside
      exact ⟨i, hi, by simpa [Feed.set] using hinside⟩
    · rintro ⟨j, hj, hinside⟩
      by_cases heq : j = i
      · simpa [Feed.set, heq] using hinside
      · have hinside' : (s.tasks j).place.inside = true := by simpa [Feed.set, heq] using hinside
        have hne : (s.tasks j).place ≠ .done := fun hdone => by
          rw [hdone] at hinside'
          cases hinside'
        exact absurd (h.owner_eq hown (h.owned hj hne)) heq
  · intro j hj
    by_cases heq : j = i
    · simpa [Feed.set, heq] using hbackoff
    · simpa [Feed.set, heq] using h.backoff j hj
  · intro j hj seconds hsleep
    by_cases heq : j = i
    · simp only [Feed.set, heq, Function.update_self] at hsleep ⊢
      exact hasleep seconds hsleep
    · simp only [Feed.set, Function.update_of_ne heq] at hsleep ⊢
      exact h.asleep j hj seconds hsleep

/-- The flag is that of the only task that goes on. -/
theorem Tracks.connected_eq (h : s.Tracks d) {i : ℕ}
    (hown : s.task = some i ∨ s.stopping = some i) : s.connected = (s.tasks i).place.inside := by
  have hi : i < s.created := hown.elim (fun h' => (h.task i h').1) fun h' => (h.stopping i h').1
  rw [Bool.eq_iff_iff, h.connected]
  constructor
  · rintro ⟨j, hj, hinside⟩
    have hne : (s.tasks j).place ≠ .done := fun hdone => by
      rw [hdone] at hinside
      cases hinside
    rwa [← h.owner_eq hown (h.owned hj hne)]
  · exact fun hinside => ⟨i, hi, hinside⟩

theorem Tracks.create (h : s.Tracks d) (hs : s.stopping = none) (ht : s.task = none) :
    s.create.Tracks ⟨.dialing, initialBackoff⟩ := by
  have hdone : ∀ i < s.created, (s.tasks i).place = .done :=
    fun i hi => h.done i hi (by simp [ht]) (by simp [hs])
  have hold {i : ℕ} (hi : i < s.created + 1) : i = s.created ∨ i < s.created ∧ i ≠ s.created := by
    omega
  constructor
  · intro i hi htask _
    have hne : i ≠ s.created := fun heq => htask (by simp [Feed.create, heq])
    simpa [Feed.create, hne] using hdone i (by simp only [Feed.create] at hi; omega)
  · intro i hi
    obtain rfl := Option.some.inj hi
    simp [Feed.create, hs, Task.client, Await.phase]
  · simp [Feed.create]
  · simp [Feed.create, hs]
  · have hconnected : s.connected = false := by
      by_contra hne
      obtain ⟨i, hi, hinside⟩ := h.connected.mp (by simpa using hne)
      rw [hdone i hi] at hinside
      cases hinside
    refine iff_of_false (by simp [Feed.create, hconnected]) ?_
    rintro ⟨i, hi, hinside⟩
    rcases hold hi with rfl | ⟨hi, hne⟩
    · simp [Feed.create, Await.inside] at hinside
    · simp [Feed.create, hne, hdone i hi, Await.inside] at hinside
  · intro i hi
    rcases hold hi with rfl | ⟨hi, hne⟩
    · simp [Feed.create, initialBackoff, maxBackoff]
      norm_num
    · simpa [Feed.create, hne] using h.backoff i hi
  · intro i hi seconds hsleep
    rcases hold hi with rfl | ⟨hi, hne⟩
    · simp [Feed.create] at hsleep
    · simp [Feed.create, hne, hdone i hi] at hsleep

theorem Tracks.stop (h : s.Tracks d) {i : ℕ} (ht : s.task = some i) :
    { s.cancel i with task := none, stopping := some i }.Tracks ⟨.off, d.backoff⟩ := by
  obtain ⟨hi, hs, -, hdone, -, -⟩ := h.task i ht
  have hcancel : s.cancel i = s.set i { s.tasks i with cancelling := true } := if_neg hdone
  have hat (j : ℕ) : (((s.set i { s.tasks i with cancelling := true }).tasks j).place =
      (s.tasks j).place) ∧ ((s.set i { s.tasks i with cancelling := true }).tasks j).backoff =
      (s.tasks j).backoff := by
    by_cases heq : j = i <;> simp [Feed.set, heq]
  rw [hcancel]
  constructor
  · intro j hj _ hne
    rw [(hat j).1]
    exact h.done j hj (by rw [ht]; exact hne) (by simp [hs])
  · simp
  · simp
  · intro j hj
    obtain rfl := Option.some.inj hj
    exact ⟨hi, Or.inl (by simp [Feed.set])⟩
  · simp only [hat]
    exact h.connected
  · simp only [hat]
    exact h.backoff
  · simp only [hat]
    exact h.asleep

theorem Tracks.stopped (h : s.Tracks d) {i : ℕ} (hs : s.stopping = some i)
    (hi : (s.tasks i).place = .done) :
    { s with stopping := none, connected := false }.Tracks d := by
  have ht : s.task = none := by
    cases ht : s.task with
    | none => rfl
    | some j =>
      rw [(h.task j ht).2.1] at hs
      cases hs
  have hdone : ∀ j < s.created, (s.tasks j).place = .done := by
    intro j hj
    by_cases heq : j = i
    · rwa [heq]
    · exact h.done j hj (by simp [ht]) (by simpa [hs] using Ne.symm heq)
  constructor
  · exact fun j hj _ _ => hdone j hj
  · exact fun j hj => absurd hj (by simp [ht])
  · exact h.off
  · exact fun j hj => by cases hj
  · refine iff_of_false Bool.false_ne_true ?_
    rintro ⟨j, hj, hinside⟩
    rw [hdone j hj] at hinside
    cases hinside
  · exact h.backoff
  · exact h.asleep

theorem next_bounds {backoff : ℚ} (h : initialBackoff ≤ backoff ∧ backoff ≤ maxBackoff) :
    initialBackoff ≤ min (backoff * 2) maxBackoff ∧ min (backoff * 2) maxBackoff ≤ maxBackoff := by
  unfold initialBackoff maxBackoff at *
  exact ⟨le_min (by linarith) (by norm_num), min_le_right ..⟩

theorem initial_bounds : initialBackoff ≤ initialBackoff ∧ initialBackoff ≤ maxBackoff :=
  ⟨le_rfl, policy.initial_le⟩

theorem Tracks.raise (h : s.Tracks d) {i : ℕ} (hi : i < s.created)
    (hc : (s.tasks i).cancelling = true) : (s.raise i).Tracks d := by
  by_cases hdone : (s.tasks i).place = .done
  · simpa [Feed.raise, hdone] using h
  · have hown := h.owned hi hdone
    have htask : s.task ≠ some i := fun ht => by
      rw [(h.task i ht).2.2.1] at hc
      cases hc
    have hconnected := h.connected_eq hown
    have hset (place : Await) (connected : Bool) (hend : place = .close true ∨ place = .done)
        (hinside : connected = place.inside) :
        { s.set i ⟨place, (s.tasks i).backoff, false⟩ with
          connected, connects := s.connects }.Tracks d := by
      refine h.set hown (fun ht => absurd ht htask) (fun _ => ⟨Or.inr hend, rfl⟩)
        (h.backoff i hi) (fun seconds hsleep => ?_) hinside
      rcases hend with rfl | rfl <;> cases hsleep
    unfold Feed.raise
    dsimp only
    cases hat : (s.tasks i).place with
    | begin => exact hset .done s.connected (Or.inr rfl) (by rw [hconnected, hat]; rfl)
    | connect => exact hset .done false (Or.inr rfl) rfl
    | message => exact hset (.close true) s.connected (Or.inl rfl) (by rw [hconnected, hat]; rfl)
    | close cancelled => exact hset .done false (Or.inr rfl) rfl
    | sleep seconds => exact hset .done s.connected (Or.inr rfl) (by rw [hconnected, hat]; rfl)
    | done => exact absurd hat hdone

theorem Tracks.go (h : s.Tracks d) {i : ℕ} (ht : s.task = some i) {task : Task} {connected : Bool}
    {connects : ℕ} (hc : task.cancelling = false) (hdone : task.place ≠ .done)
    (hclose : task.place ≠ .close true)
    (hbackoff : initialBackoff ≤ task.backoff ∧ task.backoff ≤ maxBackoff)
    (hasleep : ∀ seconds, task.place = .sleep seconds → Jitter task.backoff seconds)
    (hconnected : connected = task.place.inside) :
    { s.set i task with connected, connects }.Tracks task.client :=
  h.set (Or.inl ht) (fun _ => ⟨hc, hdone, hclose, rfl⟩)
    (fun hs => by rw [(h.task i ht).2.1] at hs; cases hs) hbackoff hasleep hconnected

end Feed

theorem feed_simulates : feed.Simulates (dialer policy) Feed.Tracks where
  init s hs := ⟨⟨.off, initialBackoff⟩, rfl, by rw [hs]; exact .initial⟩
  step s d o t h hstep := by
    cases hstep with
    | start hs hdone =>
      have ht : s.task = none := by
        cases ht : s.task with
        | none => rfl
        | some i => exact absurd (hdone i ht) (h.task i ht).2.2.2.1
      exact ⟨_, .of_step (.start (h.off.mpr ht)), h.create hs ht⟩
    | started => exact ⟨d, .nil, h⟩
    | stop hs ht =>
      have hphase : d.phase ≠ .off := fun hoff => by
        rw [h.off.mp hoff] at ht
        cases ht
      exact ⟨_, .of_step (.stop hphase), h.stop ht⟩
    | notStarted => exact ⟨d, .nil, h⟩
    | stopped hs hi => exact ⟨d, .nil, h.stopped hs hi⟩
    | @begun i hi hat hc =>
      have ht := h.task_of_going hi hc (by rw [hat]; decide) (by rw [hat]; decide)
      have hd : d = ⟨.dialing, (s.tasks i).backoff⟩ := by
        rw [(h.task i ht).2.2.2.2.2, Task.client, hat]
        rfl
      refine ⟨d, .nil, ?_⟩
      rw [hd]
      exact h.go ht hc (by simp) (by simp) (h.backoff i hi) (fun _ hsleep => by cases hsleep)
        (by rw [h.connected_eq (Or.inl ht), hat]; rfl)
    | @connected i hi hat hc =>
      have ht := h.task_of_going hi hc (by rw [hat]; decide) (by rw [hat]; decide)
      have hd : d.phase = .dialing := by
        rw [(h.task i ht).2.2.2.2.2, Task.client, hat]
        rfl
      exact ⟨_, .of_step (.opened hd), h.go ht rfl (by decide) (by decide) Feed.initial_bounds
        (fun _ hsleep => by cases hsleep) rfl⟩
    | @refused i seconds hi hat hc hj =>
      have ht := h.task_of_going hi hc (by rw [hat]; decide) (by rw [hat]; decide)
      have hd : d = ⟨.dialing, (s.tasks i).backoff⟩ := by
        rw [(h.task i ht).2.2.2.2.2, Task.client, hat]
        rfl
      subst hd
      exact ⟨_, .of_step (.lost (Or.inl rfl)), h.go ht hc (by simp) (by simp) (h.backoff i hi)
        (fun _ hsleep => by rwa [← Await.sleep.inj hsleep]) rfl⟩
    | dispatched => exact ⟨d, .nil, h⟩
    | @ended i hi hat hc =>
      have ht := h.task_of_going hi hc (by rw [hat]; decide) (by rw [hat]; decide)
      have hd : d = ⟨.up, (s.tasks i).backoff⟩ := by
        rw [(h.task i ht).2.2.2.2.2, Task.client, hat]
        rfl
      refine ⟨d, .nil, ?_⟩
      rw [hd]
      exact h.go ht hc (by simp) (by simp) (h.backoff i hi) (fun _ hsleep => by cases hsleep)
        (by rw [h.connected_eq (Or.inl ht), hat]; rfl)
    | @closed i seconds hi hat hc hj =>
      have ht := h.task_of_going hi hc (by rw [hat]; decide) (by rw [hat]; decide)
      have hd : d = ⟨.up, (s.tasks i).backoff⟩ := by
        rw [(h.task i ht).2.2.2.2.2, Task.client, hat]
        rfl
      subst hd
      exact ⟨_, .of_step (.lost (Or.inr rfl)), h.go ht hc (by simp) (by simp) (h.backoff i hi)
        (fun _ hsleep => by rwa [← Await.sleep.inj hsleep]) rfl⟩
    | @woken i seconds hi hat hc =>
      have ht := h.task_of_going hi hc (by rw [hat]; simp) (by rw [hat]; simp)
      have hd : d = ⟨.waiting, policy.next (s.tasks i).backoff⟩ := by
        rw [(h.task i ht).2.2.2.2.2, Task.client, hat]
        rfl
      subst hd
      exact ⟨_, .of_step (.redial rfl), h.go ht hc (by simp) (by simp)
        (Feed.next_bounds (h.backoff i hi)) (fun _ hsleep => by cases hsleep)
        (by rw [h.connected_eq (Or.inl ht), hat]; rfl)⟩
    | raised hi hc => exact ⟨d, .nil, h.raise hi hc⟩
    | @left i hi hat hc =>
      have hown := h.owned hi (by rw [hat]; decide)
      refine ⟨d, .nil, h.set hown (fun ht => ?_) (fun _ => ⟨Or.inr (Or.inr rfl), rfl⟩)
        (h.backoff i hi) (fun _ hsleep => by cases hsleep) rfl⟩
      exact absurd hat (h.task i ht).2.2.2.2.1

def openings (signals : List (Signal ℚ)) : ℕ :=
  signals.countP fun e => match e with
    | .opened => true
    | _ => false

/-- One task goes on, `connected` and `connects` tell what it has come to, a wait is at least a
quarter of a second, and behind `stop` there is nothing. -/
structure Feed.Sound (s : Feed) (signals : List (Signal ℚ)) : Prop where
  one : ∀ i < s.created, ∀ j < s.created,
    (s.tasks i).place ≠ .done → (s.tasks j).place ≠ .done → i = j
  connected : s.connected = true ↔ ∃ i < s.created, (s.tasks i).place.inside = true
  connects : s.connects = openings signals
  wait : ∀ i < s.created, ∀ seconds, (s.tasks i).place = .sleep seconds →
    1 / 4 ≤ seconds ∧ seconds ≤ 45
  stopped : s.task = none → s.stopping = none →
    s.connected = false ∧ ∀ i < s.created, (s.tasks i).place = .done

theorem Feed.Step.connects {s t : Feed} {o : Option (Signal ℚ)} (h : s.Step o t) :
    t.connects = s.connects + openings o.toList := by
  cases h with
  | stop =>
    unfold Feed.cancel
    split_ifs <;> rfl
  | @raised i =>
    unfold Feed.raise
    cases hat : (s.tasks i).place <;> simp [hat, Feed.set, openings]
  | _ => rfl

theorem connects_of_run {s : Feed} {signals : List (Signal ℚ)} (h : feed.Run .initial signals s) :
    s.connects = openings signals := by
  induction h with
  | nil => rfl
  | snoc _ hstep ih =>
    rw [Feed.Step.connects hstep, ih, openings, openings, openings, List.countP_append]

/-- A connection ends, the next one is refused, and the feed is stopped in its wait and started
again. -/
def lossySignals : List (Signal ℚ) :=
  [.start, .opened, .lost (1 / 2), .redial, .lost 1, .stop, .start]

theorem feed_loses_connection : ∃ s, feed.Run .initial lossySignals s := by
  have hstart : feed.step .initial (some .start) Feed.initial.create :=
    .start rfl fun _ h => by cases h
  have hjitter : Jitter initialBackoff (1 / 2) := by norm_num [Jitter, initialBackoff]
  have hdouble : min (initialBackoff * 2) maxBackoff = 1 := by
    norm_num [initialBackoff, maxBackoff]
  have hjitter' : Jitter (min (initialBackoff * 2) maxBackoff) 1 := by
    rw [hdouble]
    norm_num [Jitter]
  have hbegun := (LTS.Run.nil.snoc hstart).silent (Feed.Step.begun (i := 0) (by decide) rfl rfl)
  have hopened := hbegun.snoc (Feed.Step.connected (i := 0) (by decide) rfl rfl)
  have hended := hopened.silent (Feed.Step.ended (i := 0) (by decide) rfl rfl)
  have hlost := hended.snoc (Feed.Step.closed (i := 0) (by decide) rfl rfl hjitter)
  have hredial := hlost.snoc (Feed.Step.woken (i := 0) (by decide) rfl rfl)
  have hrefused := hredial.snoc (Feed.Step.refused (i := 0) (by decide) rfl rfl hjitter')
  have hstop := hrefused.snoc (Feed.Step.stop (i := 0) rfl rfl)
  have hraised := hstop.silent (Feed.Step.raised (i := 0) (by decide) rfl)
  have hstopped := hraised.silent (Feed.Step.stopped (i := 0) rfl rfl)
  have hagain := hstopped.snoc (Feed.Step.start rfl fun _ h => by cases h)
  have hsignals : lossySignals = [.start, .opened, .lost (1 / 2), .redial,
      .lost (min (initialBackoff * 2) maxBackoff), .stop, .start] := by
    rw [lossySignals, hdouble]
  rw [hsignals]
  exact ⟨_, hagain⟩

end Ledger.Backend.FeedTask

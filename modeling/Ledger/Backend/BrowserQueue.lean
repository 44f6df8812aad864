import Ledger.Backend.Hub
import Ledger.Core.Recovery

/-! The `Subscription` of `hub.py` over its `asyncio.Queue`, in step with the one of
storage-core. -/
namespace Ledger.Backend
open Text Json
variable {α : Type}

/-- `QueueFull` and `QueueEmpty`. -/
inductive QueueError
  | full
  | empty
  deriving DecidableEq

/-- An `asyncio.Queue` that no task waits on. -/
structure AsyncQueue (α : Type) where
  maxsize : ℕ
  items : List α

namespace AsyncQueue

/-- Without a `maxsize` a queue is never full. -/
def full (q : AsyncQueue α) : Bool :=
  q.maxsize ≠ 0 ∧ q.maxsize ≤ q.items.length

def putNowait (q : AsyncQueue α) (item : α) : Except QueueError (AsyncQueue α) :=
  if q.full then .error .full else .ok { q with items := q.items ++ [item] }

def getNowait (q : AsyncQueue α) : Except QueueError (α × AsyncQueue α) :=
  match q.items with
  | [] => .error .empty
  | item :: items => .ok (item, { q with items })

theorem putNowait_of_lt {q : AsyncQueue α} (h : q.items.length < q.maxsize) (item : α) :
    q.putNowait item = .ok { q with items := q.items ++ [item] } := by
  have hfull : q.full = false := by
    simp only [full, decide_eq_false_iff_not]
    omega
  rw [putNowait, hfull]
  rfl

theorem putNowait_of_full {q : AsyncQueue α} (hpos : 0 < q.maxsize)
    (h : q.maxsize ≤ q.items.length) (item : α) : q.putNowait item = .error .full := by
  have hfull : q.full = true := by
    simp only [full, decide_eq_true_eq]
    exact ⟨hpos.ne', h⟩
  rw [putNowait, hfull]
  rfl

end AsyncQueue

/-- `try` with one `except` clause. -/
def tryExcept {β : Type} (body : Except QueueError β) (caught : QueueError)
    (handler : Except QueueError β) : Except QueueError β :=
  match body with
  | .ok b => .ok b
  | .error e => if e = caught then handler else .error e

/-- The `Subscription` of `hub.py`, for frames of any kind. -/
structure QueueSubscription (α : Type) where
  queue : AsyncQueue α
  dropped : ℕ

namespace QueueSubscription

def new (capacity : ℕ) : QueueSubscription α :=
  ⟨⟨capacity, []⟩, 0⟩

/-- `put`; an error is an exception that leaves it. -/
def put (s : QueueSubscription α) (frame : α) : Except QueueError (QueueSubscription α) :=
  tryExcept (do return { s with queue := ← s.queue.putNowait frame }) .full do
    let queue ← tryExcept (do return (← s.queue.getNowait).2) .empty (return s.queue)
    let dropped := s.dropped + 1
    tryExcept (do return ⟨← queue.putNowait frame, dropped⟩) .full (return ⟨queue, dropped⟩)

/-- `get`; `none` while it waits. -/
def get (s : QueueSubscription α) : Option (α × QueueSubscription α) :=
  match s.queue.getNowait with
  | .ok (frame, queue) => some (frame, { s with queue })
  | .error _ => none

theorem put_of_lt {s : QueueSubscription α} (h : s.queue.items.length < s.queue.maxsize)
    (frame : α) :
    s.put frame = .ok ⟨{ s.queue with items := s.queue.items ++ [frame] }, s.dropped⟩ := by
  unfold put
  rw [AsyncQueue.putNowait_of_lt h]
  rfl

theorem put_of_full {s : QueueSubscription α} (hpos : 0 < s.queue.maxsize)
    (h : s.queue.items.length = s.queue.maxsize) (frame : α) :
    s.put frame =
      .ok ⟨{ s.queue with items := s.queue.items.tail ++ [frame] }, s.dropped + 1⟩ := by
  obtain ⟨⟨maxsize, items⟩, dropped⟩ := s
  cases items with
  | nil => exact absurd h hpos.ne
  | cons oldest items =>
    have hroom : items.length < maxsize := by
      rw [← show items.length + 1 = maxsize from h]
      exact Nat.lt_succ_self _
    have hfirst := AsyncQueue.putNowait_of_full hpos h.ge frame
    have hget : AsyncQueue.getNowait ⟨maxsize, oldest :: items⟩ = .ok (oldest, ⟨maxsize, items⟩) :=
      rfl
    have hsecond := AsyncQueue.putNowait_of_lt (q := ⟨maxsize, items⟩) hroom frame
    simp [put, tryExcept, hfirst, hget, hsecond, bind, Except.bind, pure, Except.pure]

end QueueSubscription

/-- The hub's subscription is this one at its fixed capacity. -/
def HubSubscription.toQueue {F : Type} (s : HubSubscription F) : QueueSubscription (HubFrame F) :=
  ⟨⟨queueCapacity, s.queue⟩, s.dropped⟩

theorem HubSubscription.put_toQueue {F : Type} {s : HubSubscription F}
    (h : s.queue.length ≤ queueCapacity) (frame : HubFrame F) :
    s.toQueue.put frame = .ok (s.put frame).toQueue := by
  unfold HubSubscription.put
  split_ifs with hlt
  · exact QueueSubscription.put_of_lt hlt frame
  · have hfull : s.queue.length = queueCapacity := by omega
    exact QueueSubscription.put_of_full (s := s.toQueue) (Nat.zero_lt_succ 63) hfull frame

variable {F : Type} [NumberFloat F]

/-- A subscription of either kind, and what each has delivered. -/
structure Lockstep (α F : Type) [NumberFloat F] where
  hub : QueueSubscription α
  received : List α
  core : Subscription F
  delivered : List (Item F)

namespace Lockstep

def start (capacity : ℕ) : Lockstep α F :=
  ⟨.new capacity, [], .new capacity, []⟩

/-- A frame is put where its block is pushed, and a `get` that returns goes with a `try_next`. -/
inductive Step (R : α → Block F → Prop) : Lockstep α F → Lockstep α F → Prop
  | put (d : Lockstep α F) (frame : α) (block : Block F) (h : R frame block)
      (hub : QueueSubscription α) (hput : d.hub.put frame = .ok hub) :
    Step R d { d with hub := hub, core := d.core.push block }
  | get (d : Lockstep α F) (frame : α) (hub : QueueSubscription α)
      (hget : d.hub.get = some (frame, hub)) :
    Step R d ⟨hub, d.received ++ [frame], d.core.tryNext.2,
      d.delivered ++ d.core.tryNext.1.toList⟩

/-- The simulation between the two. -/
structure Mirrors (R : α → Block F → Prop) (capacity : ℕ) (d : Lockstep α F) : Prop where
  hubCapacity : d.hub.queue.maxsize = capacity
  coreCapacity : d.core.capacity = capacity
  opened : d.core.closed = false
  room : d.hub.queue.items.length ≤ capacity
  buffers : List.Forall₂ R d.hub.queue.items d.core.buffer
  deliveries : List.Forall₂ R d.received (d.delivered.map Delivery.value)
  dropped : d.hub.dropped = (d.delivered.map Delivery.lagged).sum + d.core.lagged

section Run
variable {R : α → Block F → Prop} {capacity : ℕ}

theorem Mirrors.start : Mirrors R capacity (.start capacity) where
  hubCapacity := rfl
  coreCapacity := rfl
  opened := rfl
  room := Nat.zero_le _
  buffers := .nil
  deliveries := .nil
  dropped := rfl

theorem Mirrors.put {d : Lockstep α F} (hd : Mirrors R capacity d) (hpos : 0 < capacity)
    {frame : α} {block : Block F} (h : R frame block) {hub : QueueSubscription α}
    (hput : d.hub.put frame = .ok hub) :
    Mirrors R capacity { d with hub := hub, core := d.core.push block } := by
  obtain ⟨hmax, hcap, hopen, hroom, hbuffers, hdeliveries, hdropped⟩ := hd
  have hlength := hbuffers.length_eq
  have hpush : d.core.push block = { d.core with
      toDropOldest := d.core.toDropOldest.push d.core.capacity block } :=
    if_neg (by simp [hopen])
  rw [hpush, DropOldest.push]
  by_cases hlt : d.hub.queue.items.length < capacity
  · have hnot : ¬d.core.capacity ≤ d.core.buffer.length := by omega
    rw [QueueSubscription.put_of_lt (by rwa [hmax])] at hput
    obtain rfl := Except.ok.inj hput
    rw [if_neg hnot]
    constructor
    · exact hmax
    · exact hcap
    · exact hopen
    · rw [List.length_append, List.length_singleton]
      exact hlt
    · exact List.rel_append hbuffers (.cons h .nil)
    · exact hdeliveries
    · exact hdropped
  · have hfull : d.hub.queue.items.length = capacity := by omega
    have hge : d.core.capacity ≤ d.core.buffer.length := by omega
    rw [QueueSubscription.put_of_full (by rwa [hmax]) (by rw [hmax, hfull])] at hput
    obtain rfl := Except.ok.inj hput
    rw [if_pos hge]
    constructor
    · exact hmax
    · exact hcap
    · exact hopen
    · rw [List.length_append, List.length_tail, List.length_singleton]
      omega
    · have hrest := List.forall₂_drop 1 hbuffers
      rw [List.drop_one, List.drop_one] at hrest
      exact List.rel_append hrest (.cons h .nil)
    · exact hdeliveries
    · dsimp only
      omega

theorem Mirrors.get {d : Lockstep α F} (hd : Mirrors R capacity d) {frame : α}
    {hub : QueueSubscription α} (hget : d.hub.get = some (frame, hub)) :
    Mirrors R capacity ⟨hub, d.received ++ [frame], d.core.tryNext.2,
      d.delivered ++ d.core.tryNext.1.toList⟩ := by
  obtain ⟨⟨⟨maxsize, items⟩, dropped⟩, received, ⟨⟨buffer, lagged⟩, cap, closed⟩, delivered⟩ := d
  obtain ⟨hmax, hcap, hopen, hroom, hbuffers, hdeliveries, hdropped⟩ := hd
  dsimp only at hmax hcap hopen hroom hbuffers hdeliveries hdropped
  cases hbuffers with
  | nil => cases hget
  | @cons frame' block items buffer h hrest =>
    obtain ⟨rfl, rfl⟩ := Prod.mk.inj (Option.some.inj hget)
    constructor
    · exact hmax
    · exact hcap
    · exact hopen
    · exact (Nat.le_succ _).trans hroom
    · exact hrest
    · simp only [Subscription.tryNext, DropOldest.pop, Option.toList_some, List.map_append]
      exact List.rel_append hdeliveries (.cons h .nil)
    · simp only [Subscription.tryNext, DropOldest.pop, Option.toList_some, List.map_append,
        List.map_cons, List.map_nil, List.sum_append, List.sum_singleton]
      omega

theorem Mirrors.step {d d' : Lockstep α F} (hd : Mirrors R capacity d) (hpos : 0 < capacity)
    (h : Step R d d') : Mirrors R capacity d' := by
  cases h with
  | put frame block h hub hput => exact hd.put hpos h hput
  | get frame hub hget => exact hd.get hget

theorem Mirrors.run (hpos : 0 < capacity) {d : Lockstep α F}
    (h : Relation.ReflTransGen (Step R) (.start capacity) d) : Mirrors R capacity d := by
  induction h with
  | refl => exact .start
  | tail _ hstep ih => exact ih.step hpos hstep

theorem Mirrors.put_ok {d : Lockstep α F} (hd : Mirrors R capacity d) (hpos : 0 < capacity)
    (frame : α) : ∃ hub, d.hub.put frame = .ok hub := by
  have hmax := hd.hubCapacity
  by_cases hlt : d.hub.queue.items.length < capacity
  · exact ⟨_, QueueSubscription.put_of_lt (by rwa [hmax]) frame⟩
  · have hfull : d.hub.queue.items.length = capacity := le_antisymm hd.room (not_lt.mp hlt)
    exact ⟨_, QueueSubscription.put_of_full (by rwa [hmax]) (by rw [hmax, hfull]) frame⟩

end Run

/-- Frame by frame what the hub delivers and holds stands for what storage-core delivers and holds,
and its one counter for all that storage-core reports or has yet to report. -/
structure Refines (R : α → Block F → Prop) (d : Lockstep α F) : Prop where
  frames : List.Forall₂ R d.received (d.delivered.map Delivery.value)
  buffer : List.Forall₂ R d.hub.queue.items d.core.buffer
  put : ∀ frame, ∃ hub, d.hub.put frame = .ok hub
  dropped : d.hub.dropped = (d.delivered.map Delivery.lagged).sum + d.core.lagged

/-- The hub's subscription refines that of storage-core, whatever relates its frames to blocks. -/
theorem hub_buffer_refines (R : α → Block F → Prop) {capacity : ℕ} (hpos : 1 ≤ capacity)
    {d : Lockstep α F} (hrun : Relation.ReflTransGen (Step R) (.start capacity) d) :
    Refines R d := by
  have hd := Mirrors.run hpos hrun
  constructor
  · exact hd.deliveries
  · exact hd.buffers
  · exact hd.put_ok hpos
  · exact hd.dropped

end Lockstep

theorem hub_buffer_refines_sample : ∃ d : Lockstep (Block Numeral) Numeral,
    Lockstep.Refines Eq d ∧ d.received = [sampleBlock] ∧ d.hub.dropped = 1 := by
  let one : Lockstep (Block Numeral) Numeral :=
    ⟨⟨⟨1, [sampleGenesis]⟩, 0⟩, [], ⟨⟨[sampleGenesis], 0⟩, 1, false⟩, []⟩
  let two : Lockstep (Block Numeral) Numeral :=
    ⟨⟨⟨1, [sampleBlock]⟩, 1⟩, [], ⟨⟨[sampleBlock], 1⟩, 1, false⟩, []⟩
  have hfirst : Lockstep.Step Eq (.start 1) one :=
    .put (.start 1) sampleGenesis sampleGenesis rfl one.hub rfl
  have hsecond : Lockstep.Step Eq one two := .put one sampleBlock sampleBlock rfl two.hub rfl
  have hthird := Lockstep.Step.get (R := Eq) two sampleBlock ⟨⟨1, []⟩, 1⟩ rfl
  have hrun := ((Relation.ReflTransGen.single hfirst).tail hsecond).tail hthird
  exact ⟨_, Lockstep.hub_buffer_refines Eq le_rfl hrun, rfl, rfl⟩

end Ledger.Backend

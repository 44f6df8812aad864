import Ledger.System.WaitSet
import Mathlib.Logic.Relation

/-! The write queue with its two condition variables. The regions under the mutex are single
steps; a notification comes after its region, and a woken thread needs the mutex again. -/
namespace Ledger.WriteQueue
variable {α ι κ μ : Type} [DecidableEq ι] [DecidableEq κ] [DecidableEq μ]

/-- Where a thread stands that calls `push`. -/
inductive Pusher (α : Type)
  | outside
  | entering (request : α)
  /-- In `not_full_.wait`, and not notified. -/
  | parked (request : α)
  /-- Woken, and ahead of the mutex. -/
  | notified (request : α)
  /-- The request is in the queue; `not_empty_.notify_one` comes next. -/
  | signalling

/-- Where a thread stands that calls `pop`. -/
inductive Popper (α : Type)
  | outside
  | entering
  /-- In `not_empty_.wait`, and not notified. -/
  | parked
  /-- Woken, and ahead of the mutex. -/
  | notified
  /-- The request is taken; `not_full_.notify_one` comes next. -/
  | signalling (request : α)

/-- Where a thread stands that calls `close`: behind its region come the two `notify_all`. -/
inductive Closer
  | outside
  | notifyingEmpty
  | notifyingFull

/-- The queue, its flag, and the threads. -/
structure State (α ι κ μ : Type) where
  queue : List α
  closed : Bool
  pushers : ι → Pusher α
  poppers : κ → Popper α
  closers : μ → Closer

def State.initial : State α ι κ μ :=
  ⟨[], false, fun _ => .outside, fun _ => .outside, fun _ => .outside⟩

namespace Pusher

def atMutex : Pusher α → Option α
  | entering request | notified request => some request
  | _ => none

def Parked (t : Pusher α) : Prop :=
  ∃ request, t = parked request

def isNotified : Pusher α → Bool
  | notified _ => true
  | _ => false

def isSignalling : Pusher α → Bool
  | signalling => true
  | _ => false

/-- What `notify_all` does to a thread. -/
def notify : Pusher α → Pusher α
  | parked request => notified request
  | t => t

end Pusher

namespace Popper

def AtMutex (t : Popper α) : Prop :=
  t = entering ∨ t = notified

def isNotified : Popper α → Bool
  | notified => true
  | _ => false

def isSignalling : Popper α → Bool
  | signalling _ => true
  | _ => false

/-- What `notify_all` does to a thread. -/
def notify : Popper α → Popper α
  | parked => notified
  | t => t

end Popper

open Function (update)

/-- The steps of the threads. A thread may wake for no reason, and `notify_one` reaches any one of
the parked threads, or none if there is none. -/
inductive Step (capacity : ℕ) : State α ι κ μ → State α ι κ μ → Prop
  | push (s : State α ι κ μ) (i : ι) (request : α) (h : s.pushers i = .outside) :
    Step capacity s { s with pushers := update s.pushers i (.entering request) }
  | accept (s : State α ι κ μ) (i : ι) (request : α) (h : (s.pushers i).atMutex = some request)
      (hc : s.closed = false) (hq : s.queue.length < capacity) :
    Step capacity s { s with
      queue := s.queue ++ [request], pushers := update s.pushers i .signalling }
  | refuse (s : State α ι κ μ) (i : ι) (request : α) (h : (s.pushers i).atMutex = some request)
      (hc : s.closed = true) :
    Step capacity s { s with pushers := update s.pushers i .outside }
  | waitFull (s : State α ι κ μ) (i : ι) (request : α) (h : (s.pushers i).atMutex = some request)
      (hc : s.closed = false) (hq : capacity ≤ s.queue.length) :
    Step capacity s { s with pushers := update s.pushers i (.parked request) }
  | wakePusher (s : State α ι κ μ) (i : ι) (request : α) (h : s.pushers i = .parked request) :
    Step capacity s { s with pushers := update s.pushers i (.notified request) }
  | signalPopper (s : State α ι κ μ) (i : ι) (j : κ) (h : s.pushers i = .signalling)
      (hj : s.poppers j = .parked) :
    Step capacity s { s with
      pushers := update s.pushers i .outside, poppers := update s.poppers j .notified }
  | signalNoPopper (s : State α ι κ μ) (i : ι) (h : s.pushers i = .signalling)
      (hj : ∀ j, s.poppers j ≠ .parked) :
    Step capacity s { s with pushers := update s.pushers i .outside }
  | pop (s : State α ι κ μ) (j : κ) (h : s.poppers j = .outside) :
    Step capacity s { s with poppers := update s.poppers j .entering }
  | take (s : State α ι κ μ) (j : κ) (request : α) (rest : List α) (h : (s.poppers j).AtMutex)
      (hq : s.queue = request :: rest) :
    Step capacity s { s with
      queue := rest, poppers := update s.poppers j (.signalling request) }
  | drained (s : State α ι κ μ) (j : κ) (h : (s.poppers j).AtMutex) (hq : s.queue = [])
      (hc : s.closed = true) :
    Step capacity s { s with poppers := update s.poppers j .outside }
  | waitEmpty (s : State α ι κ μ) (j : κ) (h : (s.poppers j).AtMutex) (hq : s.queue = [])
      (hc : s.closed = false) :
    Step capacity s { s with poppers := update s.poppers j .parked }
  | wakePopper (s : State α ι κ μ) (j : κ) (h : s.poppers j = .parked) :
    Step capacity s { s with poppers := update s.poppers j .notified }
  | signalPusher (s : State α ι κ μ) (j : κ) (request : α) (i : ι) (request' : α)
      (h : s.poppers j = .signalling request) (hi : s.pushers i = .parked request') :
    Step capacity s { s with
      poppers := update s.poppers j .outside, pushers := update s.pushers i (.notified request') }
  | signalNoPusher (s : State α ι κ μ) (j : κ) (request : α)
      (h : s.poppers j = .signalling request) (hi : ∀ i, ¬(s.pushers i).Parked) :
    Step capacity s { s with poppers := update s.poppers j .outside }
  | close (s : State α ι κ μ) (k : μ) (h : s.closers k = .outside) :
    Step capacity s { s with closed := true, closers := update s.closers k .notifyingEmpty }
  | notifyPoppers (s : State α ι κ μ) (k : μ) (h : s.closers k = .notifyingEmpty) :
    Step capacity s { s with
      poppers := fun j => (s.poppers j).notify, closers := update s.closers k .notifyingFull }
  | notifyPushers (s : State α ι κ μ) (k : μ) (h : s.closers k = .notifyingFull) :
    Step capacity s { s with
      pushers := fun i => (s.pushers i).notify, closers := update s.closers k .outside }

section Inv
open WaitSet
variable [Fintype ι] [Fintype κ] {capacity : ℕ}

/-- Wake-ups for the free slots: pushers notified, and poppers that owe a notification. -/
def NotFullCovered (capacity : ℕ) (s : State α ι κ μ) : Prop :=
  Covered Pusher.Parked (fun t => t.isNotified = true) s.pushers (capacity - s.queue.length)
    (tally (fun t => t.isSignalling = true) s.poppers)

/-- Wake-ups for the requests: poppers notified, and pushers that owe a notification. -/
def NotEmptyCovered (s : State α ι κ μ) : Prop :=
  Covered (· = Popper.parked) (fun t => t.isNotified = true) s.poppers s.queue.length
    (tally (fun t => t.isSignalling = true) s.pushers)

/-- Once the queue is closed, whoever closed it first has yet to get to the threads still
parked. -/
structure Inv (capacity : ℕ) (s : State α ι κ μ) : Prop where
  length_le : s.queue.length ≤ capacity
  notFull : s.closed = false → NotFullCovered capacity s
  notEmpty : s.closed = false → NotEmptyCovered s
  closedFull : s.closed = true → (∃ i, (s.pushers i).Parked) → ∃ k, s.closers k ≠ .outside
  closedEmpty : s.closed = true → (∃ j, s.poppers j = .parked) →
    ∃ k, s.closers k = .notifyingEmpty

@[simp]
theorem Pusher.not_parked_outside : ¬(outside : Pusher α).Parked := by
  rintro ⟨request, h⟩
  cases h

@[simp]
theorem Pusher.not_parked_entering {request : α} : ¬(entering request).Parked := by
  rintro ⟨request, h⟩
  cases h

@[simp]
theorem Pusher.not_parked_notified {request : α} : ¬(notified request).Parked := by
  rintro ⟨request, h⟩
  cases h

@[simp]
theorem Pusher.not_parked_signalling : ¬(signalling : Pusher α).Parked := by
  rintro ⟨request, h⟩
  cases h

omit [DecidableEq ι] [DecidableEq κ] [DecidableEq μ] in
theorem inv_initial : Inv capacity (State.initial : State α ι κ μ) where
  length_le := Nat.zero_le _
  notFull _ := .of_none fun _ => Pusher.not_parked_outside
  notEmpty _ := covered_zero
  closedFull h := by cases h
  closedEmpty h := by cases h

theorem Pusher.not_signalling_of_atMutex {t : Pusher α} {request : α}
    (h : t.atMutex = some request) : ¬t.isSignalling = true := by
  cases t <;> simp_all [atMutex, isSignalling]

theorem Popper.not_signalling_of_atMutex {t : Popper α} (h : t.AtMutex) :
    ¬t.isSignalling = true := by
  rcases h with rfl | rfl <;> simp [isSignalling]

theorem Pusher.not_parked_notify (t : Pusher α) : ¬t.notify.Parked := by
  rintro ⟨request, h⟩
  cases t <;> simp [notify] at h

theorem Popper.notify_ne_parked (t : Popper α) : t.notify ≠ .parked := by
  cases t <;> simp [notify]

theorem Popper.isSignalling_notify (t : Popper α) : t.notify.isSignalling = t.isSignalling := by
  cases t <;> rfl

theorem Pusher.isSignalling_notify (t : Pusher α) : t.notify.isSignalling = t.isSignalling := by
  cases t <;> rfl

omit [DecidableEq κ] [DecidableEq μ] in
theorem Inv.movePusher {s : State α ι κ μ} (hs : Inv capacity s) {i : ι} {t : Pusher α}
    (hp : ¬t.Parked) (hsig : (s.pushers i).isSignalling = true ↔ t.isSignalling = true)
    (hn : s.closed = false → (s.pushers i).isNotified = true → t.isNotified = true) :
    Inv capacity { s with pushers := update s.pushers i t } := by
  obtain ⟨length_le, notFull, notEmpty, closedFull, closedEmpty⟩ := hs
  refine ⟨length_le, fun hc => ?_, fun hc => ?_, fun hc hparked => ?_, closedEmpty⟩
  · apply (notFull hc).update hp
    have hle := hn hc
    split_ifs <;> simp_all
  · unfold NotEmptyCovered
    rw [tally_update_of_iff hsig]
    exact notEmpty hc
  · exact closedFull hc (exists_of_update hp hparked)

omit [DecidableEq ι] [DecidableEq μ] in
theorem Inv.movePopper {s : State α ι κ μ} (hs : Inv capacity s) {j : κ} {t : Popper α}
    (hp : t ≠ .parked) (hsig : (s.poppers j).isSignalling = true ↔ t.isSignalling = true)
    (hn : s.closed = false → (s.poppers j).isNotified = true → t.isNotified = true) :
    Inv capacity { s with poppers := update s.poppers j t } := by
  obtain ⟨length_le, notFull, notEmpty, closedFull, closedEmpty⟩ := hs
  refine ⟨length_le, fun hc => ?_, fun hc => ?_, closedFull, fun hc hparked => ?_⟩
  · unfold NotFullCovered
    rw [tally_update_of_iff hsig]
    exact notFull hc
  · apply (notEmpty hc).update hp
    have hle := hn hc
    split_ifs <;> simp_all
  · exact closedEmpty hc (exists_of_update (p := (· = Popper.parked)) hp hparked)

omit [DecidableEq μ] [DecidableEq κ] in
/-- The new request is one more unit for the poppers, and the pusher owes its notification; a slot
is gone, and at most one pusher's wake-up with it. -/
theorem Inv.accept {s : State α ι κ μ} (hs : Inv capacity s) {i : ι} {request : α}
    (h : (s.pushers i).atMutex = some request) (hc : s.closed = false)
    (hq : s.queue.length < capacity) :
    Inv capacity { s with
      queue := s.queue ++ [request], pushers := update s.pushers i .signalling } := by
  have howed := tally_update_enter (p := fun t : Pusher α => t.isSignalling = true)
    (Pusher.not_signalling_of_atMutex h) (t := .signalling) rfl
  constructor
  · simp only [List.length_append, List.length_singleton]
    omega
  · intro _
    apply (hs.notFull hc).take Pusher.not_parked_signalling
    simp only [List.length_append, List.length_singleton]
    omega
  · intro _
    have hcovered := (hs.notEmpty hc).release
    rw [← howed] at hcovered
    simpa only [NotEmptyCovered, List.length_append, List.length_singleton] using hcovered
  · intro h
    rw [hc] at h
    cases h
  · intro h
    rw [hc] at h
    cases h

omit [DecidableEq μ] [DecidableEq ι] in
/-- The free slot is one more unit for the pushers, and the popper owes its notification. -/
theorem Inv.take {s : State α ι κ μ} (hs : Inv capacity s) {j : κ} {request : α} {rest : List α}
    (h : (s.poppers j).AtMutex) (hq : s.queue = request :: rest) :
    Inv capacity { s with
      queue := rest, poppers := update s.poppers j (.signalling request) } := by
  have howed := tally_update_enter (p := fun t : Popper α => t.isSignalling = true)
    (Popper.not_signalling_of_atMutex h) (t := .signalling request) rfl
  have hlength : s.queue.length = rest.length + 1 := by
    rw [hq]
    rfl
  have hle := hs.length_le
  constructor
  · show rest.length ≤ capacity
    omega
  · intro hc
    have hcovered := (hs.notFull hc).release
    rw [← howed] at hcovered
    have hunits : capacity - s.queue.length + 1 = capacity - rest.length := by omega
    rwa [hunits] at hcovered
  · intro hc
    exact (hs.notEmpty hc).take (by simp) hlength.symm
  · exact hs.closedFull
  · intro hc hparked
    exact hs.closedEmpty hc (exists_of_update (p := (· = Popper.parked)) (by simp) hparked)

omit [DecidableEq μ] [DecidableEq κ] in
theorem Inv.waitFull {s : State α ι κ μ} (hs : Inv capacity s) {i : ι} {request : α}
    (h : (s.pushers i).atMutex = some request) (hc : s.closed = false)
    (hq : capacity ≤ s.queue.length) :
    Inv capacity { s with pushers := update s.pushers i (.parked request) } := by
  have hsig : (s.pushers i).isSignalling = true ↔ (Pusher.parked request).isSignalling = true :=
    iff_of_false (Pusher.not_signalling_of_atMutex h) (by simp [Pusher.isSignalling])
  constructor
  · exact hs.length_le
  · intro _
    unfold NotFullCovered
    rw [Nat.sub_eq_zero_of_le hq]
    exact covered_zero
  · intro _
    unfold NotEmptyCovered
    rw [tally_update_of_iff hsig]
    exact hs.notEmpty hc
  · intro h
    rw [hc] at h
    cases h
  · exact hs.closedEmpty

omit [DecidableEq μ] [DecidableEq ι] in
theorem Inv.waitEmpty {s : State α ι κ μ} (hs : Inv capacity s) {j : κ}
    (h : (s.poppers j).AtMutex) (hq : s.queue = []) (hc : s.closed = false) :
    Inv capacity { s with poppers := update s.poppers j .parked } := by
  have hsig : (s.poppers j).isSignalling = true ↔ (Popper.parked : Popper α).isSignalling = true :=
    iff_of_false (Popper.not_signalling_of_atMutex h) (by simp [Popper.isSignalling])
  constructor
  · exact hs.length_le
  · intro _
    unfold NotFullCovered
    rw [tally_update_of_iff hsig]
    exact hs.notFull hc
  · intro _
    unfold NotEmptyCovered
    rw [hq]
    exact covered_zero
  · exact hs.closedFull
  · intro h
    rw [hc] at h
    cases h

omit [DecidableEq μ] in
/-- The notification a pusher owed becomes a popper's wake-up. -/
theorem Inv.signalPopper {s : State α ι κ μ} (hs : Inv capacity s) {i : ι} {j : κ}
    (h : s.pushers i = .signalling) (hj : s.poppers j = .parked) :
    Inv capacity { s with
      pushers := update s.pushers i .outside, poppers := update s.poppers j .notified } := by
  have hsig : (s.pushers i).isSignalling = true := by
    rw [h]
    rfl
  have howed := tally_update_leave (p := fun t : Pusher α => t.isSignalling = true) hsig
    (t := .outside) (by simp [Pusher.isSignalling])
  have hsame : tally (fun t : Popper α => t.isSignalling = true) (update s.poppers j .notified) =
      tally (fun t : Popper α => t.isSignalling = true) s.poppers := by
    apply tally_update_of_iff
    rw [hj]
    simp [Popper.isSignalling]
  constructor
  · exact hs.length_le
  · intro hc
    have hi : ¬(s.pushers i).isNotified = true := by simp [h, Pusher.isNotified]
    unfold NotFullCovered
    rw [hsame]
    exact (hs.notFull hc).move hi Pusher.not_parked_outside
  · intro hc
    have hparked : ¬(s.poppers j).isNotified = true := by simp [hj, Popper.isNotified]
    exact (hs.notEmpty hc).deliver hparked (by simp) rfl howed
  · intro hc hparked
    exact hs.closedFull hc (exists_of_update Pusher.not_parked_outside hparked)
  · intro hc hparked
    exact hs.closedEmpty hc (exists_of_update (p := (· = Popper.parked)) (by simp) hparked)

omit [DecidableEq μ] in
/-- The notification a popper owed becomes a pusher's wake-up. -/
theorem Inv.signalPusher {s : State α ι κ μ} (hs : Inv capacity s) {j : κ} {request : α} {i : ι}
    {request' : α} (h : s.poppers j = .signalling request)
    (hi : s.pushers i = .parked request') :
    Inv capacity { s with
      poppers := update s.poppers j .outside,
      pushers := update s.pushers i (.notified request') } := by
  have hsig : (s.poppers j).isSignalling = true := by
    rw [h]
    rfl
  have howed := tally_update_leave (p := fun t : Popper α => t.isSignalling = true) hsig
    (t := .outside) (by simp [Popper.isSignalling])
  have hsame : tally (fun t : Pusher α => t.isSignalling = true)
      (update s.pushers i (.notified request')) =
      tally (fun t : Pusher α => t.isSignalling = true) s.pushers := by
    apply tally_update_of_iff
    rw [hi]
    simp [Pusher.isSignalling]
  constructor
  · exact hs.length_le
  · intro hc
    have hparked : ¬(s.pushers i).isNotified = true := by simp [hi, Pusher.isNotified]
    exact (hs.notFull hc).deliver hparked Pusher.not_parked_notified rfl howed
  · intro hc
    have hj : ¬(s.poppers j).isNotified = true := by simp [h, Popper.isNotified]
    unfold NotEmptyCovered
    rw [hsame]
    exact (hs.notEmpty hc).move hj (by simp)
  · intro hc hparked
    exact hs.closedFull hc (exists_of_update Pusher.not_parked_notified hparked)
  · intro hc hparked
    exact hs.closedEmpty hc (exists_of_update (p := (· = Popper.parked)) (by simp) hparked)

omit [DecidableEq μ] [DecidableEq κ] in
theorem Inv.signalNoPopper {s : State α ι κ μ} (hs : Inv capacity s) {i : ι}
    (h : s.pushers i = .signalling) (hj : ∀ j, s.poppers j ≠ .parked) :
    Inv capacity { s with pushers := update s.pushers i .outside } := by
  constructor
  · exact hs.length_le
  · intro hc
    have hi : ¬(s.pushers i).isNotified = true := by simp [h, Pusher.isNotified]
    exact (hs.notFull hc).move hi Pusher.not_parked_outside
  · intro _
    exact .of_none hj
  · intro hc hparked
    exact hs.closedFull hc (exists_of_update Pusher.not_parked_outside hparked)
  · exact hs.closedEmpty

omit [DecidableEq μ] [DecidableEq ι] in
theorem Inv.signalNoPusher {s : State α ι κ μ} (hs : Inv capacity s) {j : κ} {request : α}
    (h : s.poppers j = .signalling request) (hi : ∀ i, ¬(s.pushers i).Parked) :
    Inv capacity { s with poppers := update s.poppers j .outside } := by
  constructor
  · exact hs.length_le
  · intro _
    exact .of_none hi
  · intro hc
    have hj : ¬(s.poppers j).isNotified = true := by simp [h, Popper.isNotified]
    exact (hs.notEmpty hc).move hj (by simp)
  · exact hs.closedFull
  · intro hc hparked
    exact hs.closedEmpty hc (exists_of_update (p := (· = Popper.parked)) (by simp) hparked)

omit [DecidableEq ι] [DecidableEq κ] in
theorem Inv.close {s : State α ι κ μ} (hs : Inv capacity s) (k : μ) :
    Inv capacity { s with closed := true, closers := update s.closers k .notifyingEmpty } := by
  have hk : update s.closers k .notifyingEmpty k = .notifyingEmpty := Function.update_self ..
  constructor
  · exact hs.length_le
  · intro h
    cases h
  · intro h
    cases h
  · intro _ _
    exact ⟨k, hk.trans_ne (by simp)⟩
  · intro _ _
    exact ⟨k, hk⟩

omit [DecidableEq ι] [DecidableEq κ] in
theorem Inv.notifyPoppers {s : State α ι κ μ} (hs : Inv capacity s) (k : μ) :
    Inv capacity { s with
      poppers := fun j => (s.poppers j).notify, closers := update s.closers k .notifyingFull } := by
  have hk : update s.closers k .notifyingFull k ≠ .outside := by simp
  constructor
  · exact hs.length_le
  · intro hc
    have hcovered := hs.notFull hc
    simpa only [NotFullCovered, tally, Popper.isSignalling_notify] using hcovered
  · intro _
    exact .of_none fun j => (s.poppers j).notify_ne_parked
  · intro _ _
    exact ⟨k, hk⟩
  · rintro _ ⟨j, hj⟩
    exact absurd hj (s.poppers j).notify_ne_parked

omit [DecidableEq ι] [DecidableEq κ] in
theorem Inv.notifyPushers {s : State α ι κ μ} (hs : Inv capacity s) {k : μ}
    (h : s.closers k = .notifyingFull) :
    Inv capacity { s with
      pushers := fun i => (s.pushers i).notify, closers := update s.closers k .outside } := by
  constructor
  · exact hs.length_le
  · intro _
    exact .of_none fun i => (s.pushers i).not_parked_notify
  · intro hc
    have hcovered := hs.notEmpty hc
    simpa only [NotEmptyCovered, tally, Pusher.isSignalling_notify] using hcovered
  · rintro _ ⟨i, hi⟩
    exact absurd hi (s.pushers i).not_parked_notify
  · intro hc hparked
    obtain ⟨k', hk'⟩ := hs.closedEmpty hc hparked
    have hne : k' ≠ k := by
      rintro rfl
      rw [h] at hk'
      cases hk'
    exact ⟨k', (Function.update_of_ne hne _ _).trans hk'⟩

theorem Inv.step {s t : State α ι κ μ} (hs : Inv capacity s) (h : Step capacity s t) :
    Inv capacity t := by
  cases h with
  | push i request h =>
    apply hs.movePusher Pusher.not_parked_entering <;> simp [h, Pusher.isSignalling,
      Pusher.isNotified]
  | accept i request h hc hq => exact hs.accept h hc hq
  | refuse i request h hc =>
    apply hs.movePusher Pusher.not_parked_outside
    · exact iff_of_false (Pusher.not_signalling_of_atMutex h) (by simp [Pusher.isSignalling])
    · intro hopen
      rw [hc] at hopen
      cases hopen
  | waitFull i request h hc hq => exact hs.waitFull h hc hq
  | wakePusher i request h =>
    apply hs.movePusher Pusher.not_parked_notified <;> simp [h, Pusher.isSignalling,
      Pusher.isNotified]
  | signalPopper i j h hj => exact hs.signalPopper h hj
  | signalNoPopper i h hj => exact hs.signalNoPopper h hj
  | pop j h =>
    apply hs.movePopper <;> simp [h, Popper.isSignalling, Popper.isNotified]
  | take j request rest h hq => exact hs.take h hq
  | drained j h hq hc =>
    apply hs.movePopper (by simp)
    · exact iff_of_false (Popper.not_signalling_of_atMutex h) (by simp [Popper.isSignalling])
    · intro hopen
      rw [hc] at hopen
      cases hopen
  | waitEmpty j h hq hc => exact hs.waitEmpty h hq hc
  | wakePopper j h =>
    apply hs.movePopper <;> simp [h, Popper.isSignalling, Popper.isNotified]
  | signalPusher j request i request' h hi => exact hs.signalPusher h hi
  | signalNoPusher j request h hi => exact hs.signalNoPusher h hi
  | close k h => exact hs.close k
  | notifyPoppers k h => exact hs.notifyPoppers k
  | notifyPushers k h => exact hs.notifyPushers h

theorem Inv.run {s : State α ι κ μ}
    (h : Relation.ReflTransGen (Step capacity) State.initial s) : Inv capacity s := by
  induction h with
  | refl => exact inv_initial
  | tail _ hstep ih => exact ih.step hstep

end Inv

/-- A parked thread that could go on has a wake-up under way: a thread of its kind was notified and
is ahead of the mutex, or a notification is still owed by the other kind or by a closer. -/
structure NoLostWakeUp (capacity : ℕ) (s : State α ι κ μ) : Prop where
  length_le : s.queue.length ≤ capacity
  pusher : s.queue.length < capacity ∨ s.closed = true → (∃ i, (s.pushers i).Parked) →
    (∃ i request, s.pushers i = .notified request) ∨
      (∃ j request, s.poppers j = .signalling request) ∨ ∃ k, s.closers k ≠ .outside
  popper : s.queue ≠ [] ∨ s.closed = true → (∃ j, s.poppers j = .parked) →
    (∃ j, s.poppers j = .notified) ∨ (∃ i, s.pushers i = .signalling) ∨
      ∃ k, s.closers k = .notifyingEmpty
  /-- Where no thread is under way, the parked ones have to be. -/
  quiet : (∀ i, s.pushers i = .outside ∨ (s.pushers i).Parked) →
    (∀ j, s.poppers j = .outside ∨ s.poppers j = .parked) → (∀ k, s.closers k = .outside) →
    ((∃ i, (s.pushers i).Parked) → s.closed = false ∧ s.queue.length = capacity) ∧
      ((∃ j, s.poppers j = .parked) → s.closed = false ∧ s.queue = [])

theorem Pusher.notified_of_isNotified {t : Pusher α} (h : t.isNotified = true) :
    ∃ request, t = notified request := by
  cases t <;> simp_all [isNotified]

theorem Pusher.signalling_of_isSignalling {t : Pusher α} (h : t.isSignalling = true) :
    t = signalling := by
  cases t <;> simp_all [isSignalling]

theorem Popper.notified_of_isNotified {t : Popper α} (h : t.isNotified = true) :
    t = notified := by
  cases t <;> simp_all [isNotified]

theorem Popper.signalling_of_isSignalling {t : Popper α} (h : t.isSignalling = true) :
    ∃ request, t = signalling request := by
  cases t <;> simp_all [isSignalling]

section Pending
open WaitSet
variable [Fintype ι] [Fintype κ] {capacity : ℕ}

omit [DecidableEq ι] [DecidableEq κ] [DecidableEq μ] in
theorem Inv.pusher_pending {s : State α ι κ μ} (hs : Inv capacity s)
    (h : s.queue.length < capacity ∨ s.closed = true) (hparked : ∃ i, (s.pushers i).Parked) :
    (∃ i request, s.pushers i = .notified request) ∨
      (∃ j request, s.poppers j = .signalling request) ∨ ∃ k, s.closers k ≠ .outside := by
  cases hc : s.closed with
  | true => exact .inr (.inr (hs.closedFull hc hparked))
  | false =>
    have hroom : s.queue.length < capacity := h.resolve_right (by simp [hc])
    have hpos : 0 < capacity - s.queue.length := by omega
    obtain ⟨i, hi⟩ | howed := (hs.notFull hc).pending hpos hparked
    · exact .inl ⟨i, Pusher.notified_of_isNotified hi⟩
    · obtain ⟨j, hj⟩ := tally_pos_iff.mp howed
      exact .inr (.inl ⟨j, Popper.signalling_of_isSignalling hj⟩)

omit [DecidableEq ι] [DecidableEq κ] [DecidableEq μ] in
theorem Inv.popper_pending {s : State α ι κ μ} (hs : Inv capacity s)
    (h : s.queue ≠ [] ∨ s.closed = true) (hparked : ∃ j, s.poppers j = .parked) :
    (∃ j, s.poppers j = .notified) ∨ (∃ i, s.pushers i = .signalling) ∨
      ∃ k, s.closers k = .notifyingEmpty := by
  cases hc : s.closed with
  | true => exact .inr (.inr (hs.closedEmpty hc hparked))
  | false =>
    have hpos : 0 < s.queue.length := List.length_pos_iff.mpr (h.resolve_right (by simp [hc]))
    obtain ⟨j, hj⟩ | howed := (hs.notEmpty hc).pending hpos hparked
    · exact .inl ⟨j, Popper.notified_of_isNotified hj⟩
    · obtain ⟨i, hi⟩ := tally_pos_iff.mp howed
      exact .inr (.inl ⟨i, Pusher.signalling_of_isSignalling hi⟩)

/-- For any capacity, any number of threads, and any interleaving of their steps. -/
theorem no_lost_wake_up {s : State α ι κ μ}
    (h : Relation.ReflTransGen (Step capacity) State.initial s) : NoLostWakeUp capacity s := by
  have hs : Inv capacity s := .run h
  constructor
  · exact hs.length_le
  · exact hs.pusher_pending
  · exact hs.popper_pending
  · intro hpushers hpoppers hclosers
    have hpusher : ¬(∃ i request, s.pushers i = .notified request) ∧
        ¬∃ i, s.pushers i = .signalling := by
      constructor
      · rintro ⟨i, request, hi⟩
        have := hpushers i
        simp [hi] at this
      · rintro ⟨i, hi⟩
        have := hpushers i
        simp [hi] at this
    have hpopper : ¬(∃ j, s.poppers j = .notified) ∧
        ¬∃ j request, s.poppers j = .signalling request := by
      constructor
      · rintro ⟨j, hj⟩
        have := hpoppers j
        simp [hj] at this
      · rintro ⟨j, request, hj⟩
        have := hpoppers j
        simp [hj] at this
    constructor
    · intro hparked
      have hstuck : ¬(s.queue.length < capacity ∨ s.closed = true) := by
        intro hgo
        obtain hn | hsig | ⟨k, hk⟩ := hs.pusher_pending hgo hparked
        · exact hpusher.1 hn
        · exact hpopper.2 hsig
        · exact hk (hclosers k)
      have hle := hs.length_le
      rw [not_or, Bool.not_eq_true] at hstuck
      exact ⟨hstuck.2, by omega⟩
    · intro hparked
      have hstuck : ¬(s.queue ≠ [] ∨ s.closed = true) := by
        intro hgo
        obtain hn | hsig | ⟨k, hk⟩ := hs.popper_pending hgo hparked
        · exact hpopper.1 hn
        · exact hpusher.2 hsig
        · rw [hclosers k] at hk
          cases hk
      rw [not_or, Bool.not_eq_true, not_not] at hstuck
      exact ⟨hstuck.2, hstuck.1⟩

def pairState (queue : List ℕ) (pusher : Pusher ℕ) (popper : Popper ℕ) :
    State ℕ Unit Unit Unit :=
  ⟨queue, false, fun _ => pusher, fun _ => popper, fun _ => .outside⟩

theorem no_lost_wake_up_sample : NoLostWakeUp 1 (pairState [7] .signalling .parked) := by
  have hpop : Step 1 (pairState [] .outside .outside) (pairState [] .outside .entering) :=
    .pop _ () rfl
  have hwait : Step 1 (pairState [] .outside .entering) (pairState [] .outside .parked) :=
    .waitEmpty _ () (.inl rfl) rfl rfl
  have hpush : Step 1 (pairState [] .outside .parked) (pairState [] (.entering 7) .parked) :=
    .push _ () 7 rfl
  have haccept : Step 1 (pairState [] (.entering 7) .parked)
      (pairState [7] .signalling .parked) :=
    .accept _ () 7 rfl rfl Nat.zero_lt_one
  exact no_lost_wake_up (.head hpop (.head hwait (.head hpush (.single haccept))))

end Pending

end Ledger.WriteQueue

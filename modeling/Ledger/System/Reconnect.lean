import Ledger.System.Simulation
import Mathlib.Algebra.Order.Ring.Defs

/-! A client that keeps one connection up: after a loss it waits, and each wait in a row is twice as
long as the one before, up to a limit. -/
namespace Ledger

/-- The shortest wait and the longest. -/
structure Backoff (α : Type*) [CommSemiring α] [LinearOrder α] where
  initial : α
  limit : α
  initial_nonneg : 0 ≤ initial
  initial_le : initial ≤ limit

namespace Backoff
variable {α : Type*} [CommSemiring α] [LinearOrder α] (p : Backoff α)

def next (wait : α) : α :=
  min (wait * 2) p.limit

def wait (n : ℕ) : α :=
  min (p.initial * 2 ^ n) p.limit

theorem wait_zero : p.wait 0 = p.initial := by
  rw [wait, pow_zero, mul_one, min_eq_left p.initial_le]

variable [IsOrderedRing α]

theorem next_wait (n : ℕ) : p.next (p.wait n) = p.wait (n + 1) := by
  have hone : (1 : α) ≤ 2 := by
    rw [← one_add_one_eq_two]
    exact le_add_of_nonneg_right zero_le_one
  have hlimit : 0 ≤ p.limit := p.initial_nonneg.trans p.initial_le
  rw [next, wait, wait, pow_succ, ← mul_assoc]
  rcases le_total (p.initial * 2 ^ n) p.limit with h | h
  · rw [min_eq_left h]
  · have h' : p.limit ≤ p.initial * 2 ^ n * 2 :=
      h.trans (le_mul_of_one_le_right (hlimit.trans h) hone)
    rw [min_eq_right h, min_eq_right (le_mul_of_one_le_right hlimit hone), min_eq_right h']

end Backoff

inductive Phase
  | off
  | dialing
  | up
  | waiting
  deriving DecidableEq

/-- What a client does, as its surroundings see it. -/
inductive Signal (α : Type*)
  | start
  | opened
  | lost (wait : α)
  | redial
  | stop

section Signals
variable {α : Type*}

def Signal.phase (e : Signal α) : Phase :=
  match e with
  | .start => .dialing
  | .opened => .up
  | .lost _ => .waiting
  | .redial => .dialing
  | .stop => .off

/-- The phases a signal comes in. -/
def Signal.Allowed (e : Signal α) (phase : Phase) : Prop :=
  match e with
  | .start => phase = .off
  | .opened => phase = .dialing
  | .lost _ => phase = .dialing ∨ phase = .up
  | .redial => phase = .waiting
  | .stop => phase ≠ .off

def phaseAfter (signals : List (Signal α)) : Phase :=
  (signals.getLast?.map Signal.phase).getD .off

def losses (signals : List (Signal α)) : ℕ :=
  signals.foldl (fun n e => match e with
    | .start => 0
    | .opened => 0
    | .lost _ => n + 1
    | .redial => n
    | .stop => n) 0

theorem phaseAfter_concat (xs : List (Signal α)) (e : Signal α) :
    phaseAfter (xs ++ [e]) = e.phase := by
  rw [phaseAfter, List.getLast?_concat]
  rfl

theorem losses_concat (xs : List (Signal α)) (e : Signal α) :
    losses (xs ++ [e]) = match e with
      | .start => 0
      | .opened => 0
      | .lost _ => losses xs + 1
      | .redial => losses xs
      | .stop => losses xs := by
  rw [losses, List.foldl_append]
  cases e <;> rfl

end Signals

section Client
variable {α : Type*} [CommSemiring α] [LinearOrder α]

/-- One connection at a time, and after each loss the wait that is due. -/
structure Orderly (p : Backoff α) (signals : List (Signal α)) : Prop where
  allowed : ∀ xs e, xs ++ [e] <+: signals → e.Allowed (phaseAfter xs)
  wait : ∀ xs d, xs ++ [.lost d] <+: signals → d = p.wait (losses xs)

/-- A client with the wait it will take next. -/
structure Dialer (α : Type*) where
  phase : Phase
  backoff : α

inductive Dialer.Step (p : Backoff α) (s : Dialer α) : Option (Signal α) → Dialer α → Prop
  | start (h : s.phase = .off) : Step p s (some .start) ⟨.dialing, p.initial⟩
  | opened (h : s.phase = .dialing) : Step p s (some .opened) ⟨.up, p.initial⟩
  | lost (h : s.phase = .dialing ∨ s.phase = .up) :
    Step p s (some (.lost s.backoff)) ⟨.waiting, p.next s.backoff⟩
  | redial (h : s.phase = .waiting) : Step p s (some .redial) ⟨.dialing, s.backoff⟩
  | stop (h : s.phase ≠ .off) : Step p s (some .stop) ⟨.off, s.backoff⟩

def dialer (p : Backoff α) : LTS (Dialer α) (Signal α) where
  init s := s = ⟨.off, p.initial⟩
  step := Dialer.Step p

/-- What the state of a client says of its signals. -/
structure Dialer.After (p : Backoff α) (signals : List (Signal α)) (s : Dialer α) : Prop where
  phase : s.phase = phaseAfter signals
  backoff : s.backoff = p.wait (losses signals)
  orderly : Orderly p signals

theorem Orderly.concat {p : Backoff α} {xs : List (Signal α)} (h : Orderly p xs) {e : Signal α}
    (hallowed : e.Allowed (phaseAfter xs)) (hwait : ∀ d, e = .lost d → d = p.wait (losses xs)) :
    Orderly p (xs ++ [e]) := by
  constructor
  · intro ys e' hprefix
    rcases List.prefix_concat_iff.mp hprefix with heq | hprefix
    · obtain ⟨rfl, he⟩ := List.append_inj' heq rfl
      cases he
      exact hallowed
    · exact h.allowed ys e' hprefix
  · intro ys d hprefix
    rcases List.prefix_concat_iff.mp hprefix with heq | hprefix
    · obtain ⟨rfl, he⟩ := List.append_inj' heq rfl
      exact hwait d (List.cons.inj he).1.symm
    · exact h.wait ys d hprefix

variable [IsOrderedRing α] {p : Backoff α}

theorem Dialer.After.step {signals : List (Signal α)} {s t : Dialer α} {o : Option (Signal α)}
    (h : s.After p signals) (hstep : s.Step p o t) : t.After p (signals ++ o.toList) := by
  obtain ⟨hphase, hbackoff, horderly⟩ := h
  cases hstep with
  | start h =>
    refine ⟨(phaseAfter_concat signals .start).symm, ?_, horderly.concat (hphase ▸ h) (by simp)⟩
    rw [Option.toList_some, losses_concat, p.wait_zero]
  | opened h =>
    refine ⟨(phaseAfter_concat signals .opened).symm, ?_, horderly.concat (hphase ▸ h) (by simp)⟩
    rw [Option.toList_some, losses_concat, p.wait_zero]
  | lost h =>
    refine ⟨(phaseAfter_concat signals (.lost s.backoff)).symm, ?_, horderly.concat (hphase ▸ h) ?_⟩
    · rw [Option.toList_some, losses_concat, hbackoff, p.next_wait]
    · rintro d hd
      rw [← hbackoff, Signal.lost.inj hd]
  | redial h =>
    refine ⟨(phaseAfter_concat signals .redial).symm, ?_, horderly.concat (hphase ▸ h) (by simp)⟩
    rw [Option.toList_some, losses_concat, hbackoff]
  | stop h =>
    refine ⟨(phaseAfter_concat signals .stop).symm, ?_, horderly.concat (hphase ▸ h) (by simp)⟩
    rw [Option.toList_some, losses_concat, hbackoff]

theorem Dialer.After.run {s t : Dialer α} {before signals : List (Signal α)}
    (h : s.After p before) (hrun : (dialer p).Run s signals t) : t.After p (before ++ signals) := by
  induction hrun with
  | nil => rwa [List.append_nil]
  | snoc _ hstep ih =>
    rw [← List.append_assoc]
    exact ih.step hstep

theorem Dialer.after_of_run {t : Dialer α} {signals : List (Signal α)}
    (h : (dialer p).Run ⟨.off, p.initial⟩ signals t) : t.After p signals := by
  have hnil : Dialer.After p [] ⟨.off, p.initial⟩ := by
    refine ⟨rfl, p.wait_zero.symm, fun xs e h => ?_, fun xs d h => ?_⟩
    · simp at h
    · simp at h
  exact hnil.run h

/-- Whatever such a client is seen to do is orderly. -/
theorem orderly_of_trace {signals : List (Signal α)} (h : (dialer p).Trace signals) :
    Orderly p signals := by
  obtain ⟨s, t, rfl, hrun⟩ := h
  exact (Dialer.after_of_run hrun).orderly

end Client

end Ledger

import Mathlib.Data.List.Basic
import Mathlib.Tactic

/-! Queues of bounded length that drop their oldest element, and count what they drop. -/
namespace Ledger

/-- An element with the number of elements dropped right before it. -/
structure Delivery (α : Type*) where
  value : α
  lagged : ℕ

structure DropOldest (α : Type*) where
  buffer : List α
  lagged : ℕ

namespace DropOldest
variable {α : Type*} {capacity : ℕ}

def empty : DropOldest α :=
  ⟨[], 0⟩

/-- Without capacity there may be no oldest element to drop. -/
def push (capacity : ℕ) (q : DropOldest α) (x : α) : DropOldest α :=
  if capacity ≤ q.buffer.length then ⟨q.buffer.tail ++ [x], q.lagged + 1⟩
  else ⟨q.buffer ++ [x], q.lagged⟩

def pop (q : DropOldest α) : Option (Delivery α) × DropOldest α :=
  match q.buffer with
  | [] => (none, q)
  | x :: rest => (some ⟨x, q.lagged⟩, ⟨rest, 0⟩)

/-- A gap and the element after it. -/
abbrev Segment (α : Type*) := List α × α

def Segment.elements (g : Segment α) : List α :=
  g.1 ++ [g.2]

def Segment.delivery (g : Segment α) : Delivery α :=
  ⟨g.2, g.1.length⟩

/-- The deliveries stand for all of `pushed` but `rest`: each one for its element and the gap
before it. -/
def Accounts (pushed : List α) (deliveries : List (Delivery α)) (rest : List α) : Prop :=
  ∃ segments : List (Segment α),
    pushed = segments.flatMap Segment.elements ++ rest ∧
      deliveries = segments.map Segment.delivery

theorem accounts_nil : Accounts ([] : List α) [] [] :=
  ⟨[], rfl, rfl⟩

theorem Accounts.append {pushed rest : List α} {deliveries : List (Delivery α)}
    (h : Accounts pushed deliveries rest) (xs : List α) :
    Accounts (pushed ++ xs) deliveries (rest ++ xs) := by
  obtain ⟨segments, rfl, rfl⟩ := h
  exact ⟨segments, List.append_assoc .., rfl⟩

theorem Accounts.deliver {pushed gap rest : List α} {x : α} {deliveries : List (Delivery α)}
    (h : Accounts pushed deliveries (gap ++ x :: rest)) :
    Accounts pushed (deliveries ++ [⟨x, gap.length⟩]) rest := by
  obtain ⟨segments, rfl, rfl⟩ := h
  exact ⟨segments ++ [(gap, x)], by simp [Segment.elements], by simp [Segment.delivery]⟩

theorem Accounts.sublist {pushed rest : List α} {deliveries : List (Delivery α)}
    (h : Accounts pushed deliveries rest) :
    (deliveries.map Delivery.value).Sublist pushed := by
  obtain ⟨segments, rfl, rfl⟩ := h
  refine List.Sublist.trans ?_ (List.sublist_append_left ..)
  induction segments with
  | nil => exact List.nil_sublist _
  | cons g segments ih =>
    rw [List.map_cons, List.map_cons, List.flatMap_cons, Segment.elements, List.append_assoc]
    exact (ih.cons_cons g.2).trans (List.sublist_append_right ..)

theorem Accounts.length_eq {pushed rest : List α} {deliveries : List (Delivery α)}
    (h : Accounts pushed deliveries rest) :
    pushed.length = (deliveries.map fun d => d.lagged + 1).sum + rest.length := by
  obtain ⟨segments, rfl, rfl⟩ := h
  rw [List.length_append, List.length_flatMap, List.map_map]
  congr 3
  funext g
  simp [Segment.elements, Segment.delivery]

/-- What a queue says about the elements pushed on it and the deliveries popped from it. -/
structure Inv (capacity : ℕ) (q : DropOldest α) (pushed : List α)
    (deliveries : List (Delivery α)) : Prop where
  accounts : ∃ gap : List α, gap.length = q.lagged ∧ Accounts pushed deliveries (gap ++ q.buffer)
  full_of_lagged : 0 < q.lagged → q.buffer.length = capacity
  length_le : q.buffer.length ≤ capacity

theorem inv_empty : Inv capacity (empty : DropOldest α) [] [] :=
  ⟨⟨[], rfl, accounts_nil⟩, fun h => absurd h (lt_irrefl 0), Nat.zero_le _⟩

theorem Inv.push (hpos : 0 < capacity) {q : DropOldest α} {pushed : List α}
    {deliveries : List (Delivery α)} (hq : Inv capacity q pushed deliveries) (x : α) :
    Inv capacity (q.push capacity x) (pushed ++ [x]) deliveries := by
  obtain ⟨gap, hgap, hacc⟩ := hq.accounts
  have hle := hq.length_le
  rw [DropOldest.push]
  split_ifs with hfull
  · cases hb : q.buffer with
    | nil => rw [hb, List.length_nil] at hfull; omega
    | cons y rest =>
      rw [hb] at hacc hfull hle
      rw [List.length_cons] at hfull hle
      refine ⟨⟨gap ++ [y], by simp [hgap], ?_⟩, fun _ => ?_, ?_⟩
      · have := hacc.append [x]
        simpa using this
      · rw [List.tail_cons, List.length_append, List.length_singleton]; omega
      · rw [List.tail_cons, List.length_append, List.length_singleton]; omega
  · refine ⟨⟨gap, hgap, ?_⟩, fun hlag => ?_, ?_⟩
    · rw [← List.append_assoc]
      exact hacc.append [x]
    · have := hq.full_of_lagged hlag
      omega
    · rw [List.length_append, List.length_singleton]; omega

theorem Inv.pop {q : DropOldest α} {pushed : List α} {deliveries : List (Delivery α)}
    (hq : Inv capacity q pushed deliveries) :
    Inv capacity q.pop.2 pushed (deliveries ++ q.pop.1.toList) := by
  obtain ⟨gap, hgap, hacc⟩ := hq.accounts
  have hle := hq.length_le
  rw [DropOldest.pop]
  cases hb : q.buffer with
  | nil => simpa using hq
  | cons x rest =>
    rw [hb] at hacc hle
    refine ⟨⟨[], rfl, ?_⟩, fun h => absurd h (lt_irrefl 0), (Nat.le_succ _).trans hle⟩
    rw [← hgap]
    exact hacc.deliver

theorem Inv.lagged_eq_zero (hpos : 0 < capacity) {q : DropOldest α} {pushed : List α}
    {deliveries : List (Delivery α)} (hq : Inv capacity q pushed deliveries)
    (hb : q.buffer = []) : q.lagged = 0 := by
  have hfull := hq.full_of_lagged
  rw [hb, List.length_nil] at hfull
  omega

theorem Inv.accounts_left {q : DropOldest α} {pushed : List α} {deliveries : List (Delivery α)}
    (hq : Inv capacity q pushed deliveries) :
    pushed.length = (deliveries.map fun d => d.lagged + 1).sum + (q.lagged + q.buffer.length) := by
  obtain ⟨gap, hgap, hacc⟩ := hq.accounts
  rw [hacc.length_eq, List.length_append, hgap]

end DropOldest
end Ledger

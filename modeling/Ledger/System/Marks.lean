import Ledger.System.DropOldest

/-! Streams that leave elements out and count what they leave out. -/
namespace Ledger

/-- An element of a stream, or a notice that some are missing. -/
inductive Mark (α : Type*)
  | element (x : α)
  | gap (n : ℤ)

namespace Mark
variable {α β : Type*}

def map (f : α → β) : Mark α → Mark β
  | element x => element (f x)
  | gap n => gap n

def missing : Mark α → ℤ
  | element _ => 0
  | gap n => n

def width : Mark α → ℕ
  | element _ => 1
  | gap n => n.toNat

theorem width_map (f : α → β) (m : Mark α) : (m.map f).width = m.width := by
  cases m <;> rfl

end Mark

/-- The marks of a delivery: the notice only where something is missing. -/
def Delivery.marks {α : Type*} (d : Delivery α) : List (Mark α) :=
  if d.lagged = 0 then [.element d.value] else [.gap d.lagged, .element d.value]

/-- The marks take a reader of `xs` from position `p` to position `q`. -/
inductive Follows {α : Type*} (xs : List α) : ℕ → List (Mark α) → ℕ → Prop
  | nil (p : ℕ) : Follows xs p [] p
  | element {p q : ℕ} {x : α} {marks : List (Mark α)} (hx : xs[p]? = some x)
      (h : Follows xs (p + 1) marks q) : Follows xs p (.element x :: marks) q
  | gap {p q : ℕ} (n : ℕ) {marks : List (Mark α)} (h : Follows xs (p + n) marks q) :
      Follows xs p (.gap n :: marks) q

namespace Follows
variable {α β : Type*} {xs : List α} {marks more : List (Mark α)} {p q r : ℕ}

theorem append (h : Follows xs p marks q) (h' : Follows xs q more r) :
    Follows xs p (marks ++ more) r := by
  induction h with
  | nil p => exact h'
  | element hx _ ih => exact .element hx (ih h')
  | gap n _ ih => exact .gap n (ih h')

theorem split (h : Follows xs p (marks ++ more) r) :
    ∃ q, Follows xs p marks q ∧ Follows xs q more r := by
  induction marks generalizing p with
  | nil => exact ⟨p, .nil p, h⟩
  | cons m marks ih =>
    cases h with
    | element hx h =>
      obtain ⟨q, hleft, hright⟩ := ih h
      exact ⟨q, .element hx hleft, hright⟩
    | gap n h =>
      obtain ⟨q, hleft, hright⟩ := ih h
      exact ⟨q, .gap n hleft, hright⟩

theorem cons_iff {m : Mark α} :
    Follows xs p (m :: marks) q ↔
      Follows xs p [m] (p + m.width) ∧ Follows xs (p + m.width) marks q := by
  constructor
  · intro h
    cases h with
    | element hx h => exact ⟨.element hx (.nil _), h⟩
    | gap n h => exact ⟨.gap n (.nil _), h⟩
  · rintro ⟨hfirst, hrest⟩
    exact hfirst.append hrest

theorem grow {ys : List α} (h : Follows xs p marks q) (hys : xs <+: ys) :
    Follows ys p marks q := by
  induction h with
  | nil p => exact .nil p
  | element hx _ ih =>
    obtain ⟨rest, rfl⟩ := hys
    refine .element ?_ ih
    rw [List.getElem?_append_left (List.getElem?_eq_some_iff.mp hx).1]
    exact hx
  | gap n _ ih => exact .gap n ih

theorem map (f : α → β) (h : Follows xs p marks q) :
    Follows (xs.map f) p (marks.map (Mark.map f)) q := by
  induction h with
  | nil p => exact .nil p
  | element hx _ ih => exact .element (by rw [List.getElem?_map, hx, Option.map_some]) ih
  | gap n _ ih => exact .gap n ih

theorem le (h : Follows xs p marks q) : p ≤ q := by
  induction h with
  | nil p => exact le_rfl
  | element _ _ ih => exact (Nat.le_succ _).trans ih
  | gap n _ ih => exact (Nat.le_add_right ..).trans ih

theorem delivery {d : Delivery α} (h : xs[p + d.lagged]? = some d.value) :
    Follows xs p d.marks (p + (d.lagged + 1)) := by
  have hlast : Follows xs (p + d.lagged) [.element d.value] (p + (d.lagged + 1)) :=
    .element h (.nil _)
  unfold Delivery.marks
  split_ifs with hzero
  · rw [hzero] at hlast ⊢
    exact hlast
  · exact .gap d.lagged hlast

theorem of_gaps (h : Follows xs p marks q) (hgaps : ∀ m ∈ marks, ∃ n, m = .gap n) :
    (q : ℤ) = p + (marks.map Mark.missing).sum := by
  induction h with
  | nil p => simp
  | @element p q x marks _ _ _ =>
    obtain ⟨n, hn⟩ := hgaps (.element x) List.mem_cons_self
    cases hn
  | gap n _ ih =>
    have hrest := ih fun m hm => hgaps m (List.mem_cons_of_mem _ hm)
    rw [List.map_cons, List.sum_cons, hrest, Mark.missing, Nat.cast_add]
    ring

/-- The notices between two elements count the elements between them. -/
theorem between {before notices after : List (Mark α)} {x y : α}
    (h : Follows xs p (before ++ .element x :: (notices ++ .element y :: after)) q)
    (hgaps : ∀ m ∈ notices, ∃ n, m = .gap n) :
    ∃ i j : ℕ, xs[i]? = some x ∧ xs[j]? = some y ∧ i < j ∧
      (notices.map Mark.missing).sum = (j : ℤ) - i - 1 := by
  obtain ⟨i, -, hx⟩ := h.split
  cases hx with
  | element hx hrest =>
    obtain ⟨j, hnotices, hy⟩ := hrest.split
    cases hy with
    | element hy _ =>
      have hle := hnotices.le
      have hsum := hnotices.of_gaps hgaps
      push_cast at hsum
      exact ⟨i, j, hx, hy, by omega, by omega⟩

end Follows

/-- From their first element on, the marks take a reader to position `q`. -/
def Settled {α : Type*} (xs : List α) (marks : List (Mark α)) (q : ℕ) : Prop :=
  ∃ lead tail p, marks = lead ++ tail ∧ (∀ m ∈ lead, ∃ n, m = .gap n) ∧ Follows xs p tail q

namespace Settled
variable {α : Type*} {xs : List α} {marks more : List (Mark α)} {q r : ℕ}

theorem of_gaps (h : ∀ m ∈ marks, ∃ n, m = .gap n) (q : ℕ) : Settled xs marks q :=
  ⟨marks, [], q, (List.append_nil _).symm, h, .nil q⟩

theorem append (h : Settled xs marks q) (hmore : Follows xs q more r) :
    Settled xs (marks ++ more) r := by
  obtain ⟨lead, tail, p, rfl, hlead, htail⟩ := h
  exact ⟨lead, tail ++ more, p, List.append_assoc .., hlead, htail.append hmore⟩

theorem grow {ys : List α} (h : Settled xs marks q) (hys : xs <+: ys) : Settled ys marks q := by
  obtain ⟨lead, tail, p, rfl, hlead, htail⟩ := h
  exact ⟨lead, tail, p, rfl, hlead, htail.grow hys⟩

theorem erase {lead : List (Mark α)} {m : Mark α} (h : Settled xs (lead ++ m :: marks) q)
    (hgaps : ∀ m ∈ lead, ∃ n, m = .gap n) : Settled xs (lead ++ marks) q := by
  obtain ⟨first, tail, p, heq, hfirst, htail⟩ := h
  rw [List.append_eq_append_iff] at heq
  obtain ⟨rest, rfl, hcons⟩ | ⟨rest, rfl, rfl⟩ := heq
  · -- the account starts at `m` or behind it
    cases rest with
    | nil =>
      rw [List.nil_append] at hcons
      rw [← hcons] at htail
      exact ⟨lead, marks, _, rfl, hgaps, (Follows.cons_iff.mp htail).2⟩
    | cons n rest =>
      obtain ⟨rfl, rfl⟩ := List.cons.inj hcons
      refine ⟨lead ++ rest, tail, p, (List.append_assoc ..).symm, fun k hk => ?_, htail⟩
      rcases List.mem_append.mp hk with hk | hk
      · exact hgaps k hk
      · exact hfirst k (List.mem_append_right _ (List.mem_cons_of_mem _ hk))
  · -- the account starts among the notices
    obtain ⟨s, -, hrest⟩ := htail.split
    exact ⟨first ++ rest, marks, _, rfl, hgaps, (Follows.cons_iff.mp hrest).2⟩

theorem between {before notices after : List (Mark α)} {x y : α}
    (h : Settled xs (before ++ .element x :: (notices ++ .element y :: after)) q)
    (hgaps : ∀ m ∈ notices, ∃ n, m = .gap n) :
    ∃ i j : ℕ, xs[i]? = some x ∧ xs[j]? = some y ∧ i < j ∧
      (notices.map Mark.missing).sum = (j : ℤ) - i - 1 := by
  obtain ⟨lead, tail, p, heq, hlead, htail⟩ := h
  rw [List.append_eq_append_iff] at heq
  obtain ⟨rest, rfl, hcons⟩ | ⟨rest, rfl, rfl⟩ := heq
  · cases rest with
    | nil =>
      rw [List.nil_append] at hcons
      rw [← hcons] at htail
      have hwhole : Follows xs p ([] ++ .element x :: (notices ++ .element y :: after)) q := htail
      exact hwhole.between hgaps
    | cons m rest =>
      obtain ⟨rfl, -⟩ := List.cons.inj hcons
      obtain ⟨n, hn⟩ := hlead (.element x) (by simp)
      cases hn
  · exact htail.between hgaps

end Settled

namespace DropOldest
variable {α : Type*}

theorem Accounts.getElem?_last {pushed rest : List α} {deliveries : List (Delivery α)}
    {d : Delivery α} (h : Accounts pushed (deliveries ++ [d]) rest) :
    pushed[(deliveries.map fun d => d.lagged + 1).sum + d.lagged]? = some d.value := by
  obtain ⟨segments, rfl, hdeliveries⟩ := h
  obtain ⟨init, last, rfl, rfl, hlast⟩ := List.map_eq_append_iff.mp hdeliveries.symm
  obtain ⟨g, rfl, rfl⟩ := List.map_eq_singleton_iff.mp hlast
  have hlen : (init.flatMap Segment.elements).length =
      ((init.map Segment.delivery).map fun d => d.lagged + 1).sum := by
    have hinit : Accounts (init.flatMap Segment.elements) (init.map Segment.delivery) [] :=
      ⟨init, (List.append_nil _).symm, rfl⟩
    simpa using hinit.length_eq
  rw [← hlen, List.flatMap_append, List.flatMap_singleton, List.append_assoc,
    List.getElem?_append_right (Nat.le_add_right ..), Nat.add_sub_cancel_left]
  simp [Segment.elements, Segment.delivery]

end DropOldest
end Ledger

import Mathlib.Data.List.MinMax

/-! The first of the greatest elements of a list, as a pass finds it that takes only what is above
the best so far. -/
namespace Ledger
variable {α β γ : Type*} [LinearOrder β]

/-- What is best, after one more element. -/
def takeAbove (key : α → β) (best : Option α) (x : α) : Option α :=
  if best.all fun y => key y < key x then some x else best

/-- The first of the elements with the greatest key. -/
def firstMax (key : α → β) (xs : List α) : Option α :=
  xs.argmax key

section FirstMax
variable {key : α → β}

theorem firstMax_append_singleton (xs : List α) (x : α) :
    firstMax key (xs ++ [x]) = takeAbove key (firstMax key xs) x := by
  unfold firstMax takeAbove
  rw [List.argmax_concat]
  cases xs.argmax key with
  | none => rfl
  | some y => simp

theorem foldl_takeAbove (best : Option α) (xs : List α) :
    xs.foldl (takeAbove key) best = firstMax key (best.toList ++ xs) := by
  induction xs using List.reverseRecOn with
  | nil => cases best <;> rfl
  | append_singleton xs x ih =>
    rw [List.foldl_concat, ih, ← List.append_assoc, firstMax_append_singleton]

theorem firstMax_map (f : γ → α) (xs : List γ) :
    firstMax key (xs.map f) = (firstMax (key ∘ f) xs).map f := by
  induction xs using List.reverseRecOn with
  | nil => rfl
  | append_singleton xs x ih =>
    rw [List.map_append, List.map_singleton, firstMax_append_singleton, firstMax_append_singleton,
      ih]
    unfold takeAbove
    cases firstMax (key ∘ f) xs with
    | none => rfl
    | some y =>
      simp only [Option.map_some, Option.all_some, Function.comp_apply]
      split_ifs <;> rfl

theorem firstMax_congr [LinearOrder γ] {key' : α → γ} {xs : List α}
    (h : ∀ x ∈ xs, ∀ y ∈ xs, key x < key y ↔ key' x < key' y) :
    firstMax key xs = firstMax key' xs := by
  induction xs using List.reverseRecOn with
  | nil => rfl
  | append_singleton xs x ih =>
    have hinit := ih fun y hy z hz => h y (List.mem_append_left _ hy) z (List.mem_append_left _ hz)
    rw [firstMax_append_singleton, firstMax_append_singleton, hinit]
    unfold takeAbove
    cases hbest : firstMax key' xs with
    | none => rfl
    | some y =>
      have hy : y ∈ xs := List.argmax_mem hbest
      have hiff := h y (List.mem_append_left _ hy) x (by simp)
      simp only [Option.all_some, decide_eq_true_eq, hiff]

theorem firstMax_append (xs ys : List α) : firstMax key (xs ++ ys) =
    (firstMax key ys).elim (firstMax key xs) (takeAbove key (firstMax key xs)) := by
  induction ys using List.reverseRecOn with
  | nil =>
    rw [List.append_nil]
    rfl
  | append_singleton ys y ih =>
    rw [← List.append_assoc, firstMax_append_singleton, ih, firstMax_append_singleton]
    cases firstMax key ys with
    | none => rfl
    | some z =>
      unfold takeAbove
      cases firstMax key xs with
      | none => by_cases hlt : key z < key y <;> simp [hlt]
      | some x =>
        simp only [Option.elim_some, Option.all_some, decide_eq_true_eq]
        grind

theorem firstMax_cons (x : α) (xs : List α) :
    firstMax key (x :: xs) = (firstMax key xs).elim (some x) (takeAbove key (some x)) :=
  firstMax_append [x] xs

theorem firstMax_append_comm [LinearOrder γ] {level : α → γ} {xs ys : List α}
    (hxs : ∀ x ∈ xs, ∀ x' ∈ xs, key x < key x' ↔ level x < level x')
    (hys : ∀ y ∈ ys, ∀ y' ∈ ys, key y < key y' ↔ level y < level y')
    (hxy : ∀ x ∈ xs, ∀ y ∈ ys, key x < key y ↔ level x ≤ level y) :
    firstMax key (xs ++ ys) = firstMax level (ys ++ xs) := by
  rw [firstMax_append, firstMax_append, firstMax_congr hxs, firstMax_congr hys]
  cases hx : firstMax level xs with
  | none =>
    cases firstMax level ys with
    | none => rfl
    | some y => rfl
  | some x =>
    cases hy : firstMax level ys with
    | none => rfl
    | some y =>
      have hiff := hxy x (List.argmax_mem hx) y (List.argmax_mem hy)
      unfold takeAbove
      simp only [Option.elim_some, Option.all_some, decide_eq_true_eq, hiff, ← not_lt]
      split_ifs <;> rfl

theorem firstMax_eq_find? {t : β} {xs : List α} (hle : ∀ x ∈ xs, key x ≤ t)
    (hex : ∃ x ∈ xs, key x = t) : firstMax key xs = xs.find? fun x => key x = t := by
  induction xs with
  | nil =>
    obtain ⟨x, hx, -⟩ := hex
    exact absurd hx List.not_mem_nil
  | cons x xs ih =>
    rw [List.forall_mem_cons] at hle
    rw [firstMax_cons]
    by_cases hx : key x = t
    · rw [List.find?_cons_of_pos (by simpa using hx)]
      cases hbest : firstMax key xs with
      | none => rfl
      | some y =>
        have hy : key y ≤ key x := by
          rw [hx]
          exact hle.2 y (List.argmax_mem hbest)
        rw [Option.elim_some, takeAbove, if_neg (by simpa using hy)]
    · have hrest : ∃ y ∈ xs, key y = t := by
        obtain ⟨y, hy, hyt⟩ := hex
        rcases List.mem_cons.mp hy with rfl | hy
        · exact absurd hyt hx
        · exact ⟨y, hy, hyt⟩
      rw [List.find?_cons_of_neg (by simpa using hx), ← ih hle.2 hrest]
      cases hbest : firstMax key xs with
      | none =>
        obtain ⟨y, hy, -⟩ := hrest
        rw [List.argmax_eq_none.mp hbest] at hy
        exact absurd hy List.not_mem_nil
      | some y =>
        have hy : key y = t := by
          obtain ⟨z, hz, rfl⟩ := hrest
          exact le_antisymm (hle.2 y (List.argmax_mem hbest)) (List.le_of_mem_argmax hz hbest)
        have hlt : key x < key y := by
          rw [hy]
          exact lt_of_le_of_ne hle.1 hx
        rw [Option.elim_some, takeAbove, if_pos (by simpa using hlt)]

/-- Places in an order that never goes down: the last of all comes out of a choice of them exactly
if it is the first one there of those that are level with it. -/
theorem firstMax_eq_max?_iff {level : ℕ → β} {all kept : List ℕ} (hsub : kept ⊆ all)
    (hmono : ∀ i ∈ all, ∀ j ∈ all, i ≤ j → level i ≤ level j) :
    firstMax level kept = all.max? ↔
      ∀ last ∈ all.max?, (kept.find? fun i => level i = level last) = some last := by
  cases hlast : all.max? with
  | none =>
    have hnil : kept = [] := by
      rw [List.max?_eq_none_iff.mp hlast] at hsub
      exact List.subset_nil.mp hsub
    simp [hnil, firstMax]
  | some last =>
    obtain ⟨hmem, hmax⟩ := List.max?_eq_some_iff.mp hlast
    have hle : ∀ i ∈ kept, level i ≤ level last := fun i hi =>
      hmono i (hsub hi) last hmem (hmax i (hsub hi))
    have hsome : (∀ j ∈ some last, (kept.find? fun i => level i = level j) = some j) ↔
        (kept.find? fun i => level i = level last) = some last := by
      simp
    rw [hsome]
    by_cases hex : ∃ i ∈ kept, level i = level last
    · rw [firstMax_eq_find? hle hex]
    · have hout : last ∉ kept := fun hin => hex ⟨last, hin, rfl⟩
      constructor
      · exact fun h => absurd (List.argmax_mem h) hout
      · exact fun h => absurd (List.mem_of_find?_eq_some h) hout

end FirstMax

end Ledger

import Mathlib.Data.List.Sort

/-! Insertion sort by a key, where a relation that need not be an order decides between elements of
one key. -/
namespace Ledger
variable {α β : Type*} [LinearOrder β]

/-- The relation follows the key wherever the keys differ. -/
structure FollowsKey (key : α → β) (r : α → α → Prop) : Prop where
  of_lt : ∀ x y, key x < key y → r x y
  of_gt : ∀ x y, key y < key x → ¬r x y

section Sorting
variable {key : α → β} {r : α → α → Prop}

theorem FollowsKey.le (h : FollowsKey key r) {x y : α} (hxy : r x y) : key x ≤ key y :=
  not_lt.mp fun hlt => h.of_gt x y hlt hxy

theorem FollowsKey.le_of_not (h : FollowsKey key r) {x y : α} (hxy : ¬r x y) : key y ≤ key x :=
  not_lt.mp fun hlt => hxy (h.of_lt x y hlt)

variable [DecidableRel r]

theorem orderedInsert_sorted (h : FollowsKey key r) (x : α) {l : List α}
    (hl : l.Pairwise fun a b => key a ≤ key b) :
    (l.orderedInsert r x).Pairwise fun a b => key a ≤ key b := by
  induction l with
  | nil => exact List.pairwise_singleton ..
  | cons y l ih =>
    rw [List.orderedInsert_cons]
    have hy := List.pairwise_cons.mp hl
    split_ifs with hxy
    · refine List.pairwise_cons.mpr ⟨fun z hz => ?_, hl⟩
      rcases List.mem_cons.mp hz with rfl | hz
      · exact h.le hxy
      · exact (h.le hxy).trans (hy.1 z hz)
    · refine List.pairwise_cons.mpr ⟨fun z hz => ?_, ih hy.2⟩
      rcases (List.mem_orderedInsert r).mp hz with rfl | hz
      · exact h.le_of_not hxy
      · exact hy.1 z hz

theorem insertionSort_sorted (h : FollowsKey key r) (l : List α) :
    (l.insertionSort r).Pairwise fun a b => key a ≤ key b := by
  induction l with
  | nil => exact List.Pairwise.nil
  | cons x l ih => exact orderedInsert_sorted h x ih

theorem filter_orderedInsert_of_ne {k : β} {x : α} (hx : key x ≠ k) (l : List α) :
    (l.orderedInsert r x).filter (key · = k) = l.filter (key · = k) := by
  induction l with
  | nil => simp [hx]
  | cons y l ih =>
    rw [List.orderedInsert_cons]
    split_ifs
    · rw [List.filter_cons_of_neg (by simpa using hx)]
    · rw [List.filter_cons, List.filter_cons, ih]

theorem filter_orderedInsert_self (h : FollowsKey key r) {x : α} {l : List α}
    (hl : l.Pairwise fun a b => key a ≤ key b) :
    (l.orderedInsert r x).filter (key · = key x) =
      (l.filter (key · = key x)).orderedInsert r x := by
  induction l with
  | nil => simp
  | cons y l ih =>
    have hy := List.pairwise_cons.mp hl
    rw [List.orderedInsert_cons]
    by_cases hyx : key y = key x
    · rw [List.filter_cons_of_pos (by simpa using hyx), List.orderedInsert_cons]
      split_ifs
      · rw [List.filter_cons_of_pos (by simp), List.filter_cons_of_pos (by simpa using hyx)]
      · rw [List.filter_cons_of_pos (by simpa using hyx), ih hy.2]
    · rw [List.filter_cons_of_neg (by simpa using hyx)]
      split_ifs with hxy
      · -- everything behind has a greater key
        have hlt : key x < key y := lt_of_le_of_ne (h.le hxy) (Ne.symm hyx)
        have hnone : l.filter (key · = key x) = [] := by
          rw [List.filter_eq_nil_iff]
          intro z hz
          simpa using (hlt.trans_le (hy.1 z hz)).ne'
        rw [List.filter_cons_of_pos (by simp), List.filter_cons_of_neg (by simpa using hyx), hnone,
          List.orderedInsert_nil]
      · rw [List.filter_cons_of_neg (by simpa using hyx), ih hy.2]

theorem filter_insertionSort (h : FollowsKey key r) (k : β) (l : List α) :
    (l.insertionSort r).filter (key · = k) = (l.filter (key · = k)).insertionSort r := by
  induction l with
  | nil => rfl
  | cons x l ih =>
    rw [List.insertionSort_cons]
    by_cases hx : key x = k
    · subst hx
      rw [filter_orderedInsert_self h (insertionSort_sorted h l), ih,
        List.filter_cons_of_pos (by simp), List.insertionSort_cons]
    · rw [filter_orderedInsert_of_ne hx, ih, List.filter_cons_of_neg (by simpa using hx)]

theorem eq_of_filter_eq {l m : List α} (hl : l.Pairwise fun a b => key a ≤ key b)
    (hm : m.Pairwise fun a b => key a ≤ key b)
    (h : ∀ k, l.filter (key · = k) = m.filter (key · = k)) : l = m := by
  induction l generalizing m with
  | nil =>
    cases m with
    | nil => rfl
    | cons y m =>
      have hy := h (key y)
      simp at hy
  | cons x l ih =>
    cases m with
    | nil =>
      have hx := h (key x)
      simp at hx
    | cons y m =>
      have hmem (z : α) : z ∈ x :: l ↔ z ∈ y :: m := by
        have hz : z ∈ (x :: l).filter (key · = key z) ↔ z ∈ (y :: m).filter (key · = key z) := by
          rw [h]
        simpa only [List.mem_filter, decide_true, and_true] using hz
      have hle {z w : α} {n : List α} (hn : (z :: n).Pairwise fun a b => key a ≤ key b)
          (hw : w ∈ z :: n) : key z ≤ key w := by
        rcases List.mem_cons.mp hw with rfl | hw
        · exact le_rfl
        · exact (List.pairwise_cons.mp hn).1 w hw
      have hkey : key x = key y :=
        le_antisymm (hle hl ((hmem y).mpr List.mem_cons_self))
          (hle hm ((hmem x).mp List.mem_cons_self))
      have hhead := h (key x)
      rw [List.filter_cons_of_pos (by simp), List.filter_cons_of_pos (by simp [hkey])] at hhead
      obtain ⟨rfl, htail⟩ := List.cons.inj hhead
      congr 1
      apply ih (List.pairwise_cons.mp hl).2 (List.pairwise_cons.mp hm).2
      intro k
      by_cases hk : key x = k
      · rwa [← hk]
      · have hrest := h k
        rwa [List.filter_cons_of_neg (by simpa using hk),
          List.filter_cons_of_neg (by simpa using hk)] at hrest

theorem insertionSort_eq_of_filter_eq (h : FollowsKey key r) {l m : List α}
    (hlm : ∀ k, l.filter (key · = k) = m.filter (key · = k)) :
    l.insertionSort r = m.insertionSort r := by
  apply eq_of_filter_eq (insertionSort_sorted h l) (insertionSort_sorted h m)
  intro k
  rw [filter_insertionSort h, filter_insertionSort h, hlm]

theorem insertionSort_filter (h : FollowsKey key r) (p : β → Bool) (l : List α) :
    (l.filter fun x => p (key x)).insertionSort r =
      (l.insertionSort r).filter fun x => p (key x) := by
  apply eq_of_filter_eq (insertionSort_sorted h _)
  · exact (insertionSort_sorted h l).filter _
  · intro k
    rw [filter_insertionSort h, List.filter_comm (l := l.insertionSort r), filter_insertionSort h,
      List.filter_comm (l := l)]
    cases hk : p k with
    | true =>
      have hall (m : List α) (hm : ∀ x ∈ m, key x = k) : m.filter (fun x => p (key x)) = m := by
        rw [List.filter_eq_self]
        intro x hx
        rw [hm x hx, hk]
      rw [hall _ (by simp), hall]
      intro x hx
      rw [List.mem_insertionSort, List.mem_filter] at hx
      exact of_decide_eq_true hx.2
    | false =>
      have hnone (m : List α) (hm : ∀ x ∈ m, key x = k) : m.filter (fun x => p (key x)) = [] := by
        rw [List.filter_eq_nil_iff]
        intro x hx
        rw [hm x hx, hk]
        exact Bool.false_ne_true
      rw [hnone _ (by simp), hnone]
      · rfl
      · intro x hx
        rw [List.mem_insertionSort, List.mem_filter] at hx
        exact of_decide_eq_true hx.2

end Sorting

theorem eq_of_ascending {key : α → β} {l m : List α} (hl : l.Pairwise fun x y => key x < key y)
    (hm : m.Pairwise fun x y => key x < key y) (h : ∀ x, x ∈ l ↔ x ∈ m) : l = m := by
  have hperm : l.Perm m := by
    refine (List.perm_ext_iff_of_nodup (hl.imp fun hlt heq => ?_) (hm.imp fun hlt heq => ?_)).mpr h
    · exact absurd (congrArg key heq) hlt.ne
    · exact absurd (congrArg key heq) hlt.ne
  exact hperm.eq_of_pairwise (fun x y _ _ hxy hyx => absurd hxy hyx.asymm) hl hm

theorem insertionSort_ascending {key : α → β} {l : List α} (h : (l.map key).Nodup) :
    (l.insertionSort fun x y => key x ≤ key y).Pairwise fun x y => key x < key y := by
  have hkey : FollowsKey key fun x y => key x ≤ key y :=
    ⟨fun _ _ hlt => hlt.le, fun _ _ hlt => hlt.not_ge⟩
  have hle := insertionSort_sorted hkey l
  have hne : ((l.insertionSort fun x y => key x ≤ key y).map key).Nodup :=
    ((List.perm_insertionSort _ l).map key).nodup_iff.mpr h
  exact (hle.and (List.pairwise_map.mp hne)).imp fun hxy => lt_of_le_of_ne hxy.1 hxy.2

end Ledger

import Ledger.System.Ascending
import Ledger.System.KeyedSort
import Mathlib.Data.Prod.Lex

/-! Elements in order of arrival, each with its place and a time that may go back: the newest of
them, and the ones that a pass in order of time gets to. -/
namespace Ledger
variable {α β : Type*} [LinearOrder β]

/-- The order by time, and by place where the times agree. -/
def recency (time : α → β) (x : ℕ × α) : β ×ₗ ℕ :=
  toLex (time x.2, x.1)

def byRecency (time : α → β) (xs : List (ℕ × α)) : List (ℕ × α) :=
  xs.insertionSort fun x y => recency time x ≤ recency time y

/-- The last `n` elements in order of recency. -/
def newest (time : α → β) (n : ℕ) (xs : List (ℕ × α)) : List (ℕ × α) :=
  (byRecency time xs).rtake n

def mostRecent (time : α → β) (xs : List (ℕ × α)) : Option (ℕ × α) :=
  (byRecency time xs).getLast?

def InPlace (xs : List (ℕ × α)) : Prop :=
  xs.Pairwise fun x y => x.1 < y.1

/-- Nothing that came before is later in time. -/
def InOrder (time : α → β) (xs : List (ℕ × α)) (x : ℕ × α) : Prop :=
  ∀ y ∈ xs, y.1 < x.1 → time y.2 ≤ time x.2

instance (time : α → β) (xs : List (ℕ × α)) : DecidablePred (InOrder time xs) :=
  fun _ => inferInstanceAs (Decidable (∀ y ∈ xs, _))

section Recency
variable {time : α → β} {xs : List (ℕ × α)}

theorem recency_lt_iff {x y : ℕ × α} :
    recency time x < recency time y ↔
      time x.2 < time y.2 ∨ time x.2 = time y.2 ∧ x.1 < y.1 :=
  Prod.Lex.toLex_lt_toLex

theorem InPlace.sublist {ys : List (ℕ × α)} (h : InPlace xs) (hsub : ys.Sublist xs) :
    InPlace ys :=
  List.Pairwise.sublist hsub h

theorem ascendingFrom_pairwise {γ : Type*} {time : γ → β} {last : Option γ} (xs : List γ) :
    (ascendingFrom time last xs).Pairwise fun x y => time x ≤ time y := by
  induction xs generalizing last with
  | nil => exact List.Pairwise.nil
  | cons x xs ih =>
    rw [ascendingFrom]
    split_ifs
    · exact ih
    · exact List.pairwise_cons.mpr ⟨fun y hy => le_of_mem_ascendingFrom hy x rfl, ih⟩

theorem ascending_recency (h : InPlace xs) :
    (ascending (time ∘ Prod.snd) xs).Pairwise fun x y => recency time x < recency time y := by
  have htime : (ascending (time ∘ Prod.snd) xs).Pairwise fun x y => time x.2 ≤ time y.2 :=
    ascendingFrom_pairwise xs
  have hplace : InPlace (ascending (time ∘ Prod.snd) xs) := h.sublist (ascendingFrom_sublist xs)
  refine (htime.and hplace).imp ?_
  rintro x y ⟨hle, hlt⟩
  rw [recency_lt_iff]
  rcases lt_or_eq_of_le hle with htime | htime
  · exact Or.inl htime
  · exact Or.inr ⟨htime, hlt⟩

theorem mem_ascendingFrom_iff {last : Option (ℕ × α)} (h : InPlace xs) {x : ℕ × α} :
    x ∈ ascendingFrom (time ∘ Prod.snd) last xs ↔
      x ∈ xs ∧ (∀ y ∈ last, time y.2 ≤ time x.2) ∧ InOrder time xs x := by
  induction xs generalizing last with
  | nil => simp [ascendingFrom]
  | cons z xs ih =>
    obtain ⟨hz, hxs⟩ := List.pairwise_cons.mp h
    rw [ascendingFrom]
    split_ifs with hlt
    · obtain ⟨w, hw, hzw⟩ := hlt
      rw [ih hxs]
      constructor
      · rintro ⟨hx, hlast, horder⟩
        refine ⟨List.mem_cons_of_mem z hx, hlast, ?_⟩
        intro y hy hyx
        rcases List.mem_cons.mp hy with rfl | hy
        · exact hzw.le.trans (hlast w hw)
        · exact horder y hy hyx
      · rintro ⟨hx, hlast, horder⟩
        rcases List.mem_cons.mp hx with rfl | hx
        · exact absurd (hlast w hw) (not_le.mpr hzw)
        · exact ⟨hx, hlast, fun y hy => horder y (List.mem_cons_of_mem z hy)⟩
    · have hz' : ∀ y ∈ last, time y.2 ≤ time z.2 := fun y hy => not_lt.mp fun hyz => hlt ⟨y, hy, hyz⟩
      rw [List.mem_cons, ih hxs]
      constructor
      · rintro (rfl | ⟨hx, hlast, horder⟩)
        · refine ⟨List.mem_cons_self, hz', ?_⟩
          intro y hy hyx
          rcases List.mem_cons.mp hy with rfl | hy
          · exact le_rfl
          · exact absurd hyx (hz y hy).asymm
        · have hzx : time z.2 ≤ time x.2 := hlast z rfl
          refine ⟨List.mem_cons_of_mem z hx, fun y hy => (hz' y hy).trans hzx, ?_⟩
          intro y hy hyx
          rcases List.mem_cons.mp hy with rfl | hy
          · exact hzx
          · exact horder y hy hyx
      · rintro ⟨hx, hlast, horder⟩
        rcases List.mem_cons.mp hx with rfl | hx
        · exact Or.inl rfl
        · refine Or.inr ⟨hx, ?_, fun y hy => horder y (List.mem_cons_of_mem z hy)⟩
          intro y hy
          rw [← Option.some.inj hy]
          exact horder z List.mem_cons_self (hz x hx)

theorem ascending_eq_filter (h : InPlace xs) :
    ascending (time ∘ Prod.snd) xs = xs.filter (InOrder time xs ·) := by
  have hsub : InPlace (ascending (time ∘ Prod.snd) xs) := h.sublist (ascendingFrom_sublist xs)
  have hfilter : InPlace (xs.filter (InOrder time xs ·)) := h.sublist List.filter_sublist
  refine List.Pairwise.eq_of_mem_iff hsub hfilter ?_
  intro x
  rw [ascending, mem_ascendingFrom_iff h]
  simp

theorem byRecency_perm (time : α → β) (xs : List (ℕ × α)) : (byRecency time xs).Perm xs :=
  List.perm_insertionSort _ xs

theorem mem_of_mem_newest {n : ℕ} {x : ℕ × α} (h : x ∈ newest time n xs) : x ∈ xs :=
  (byRecency_perm time xs).mem_iff.mp (List.mem_of_mem_drop h)

theorem byRecency_pairwise (h : InPlace xs) :
    (byRecency time xs).Pairwise fun x y => recency time x < recency time y := by
  have hkey : FollowsKey (recency time) fun x y : ℕ × α => recency time x ≤ recency time y :=
    ⟨fun _ _ => le_of_lt, fun _ _ => not_le.mpr⟩
  have hle : (byRecency time xs).Pairwise fun x y => recency time x ≤ recency time y :=
    insertionSort_sorted hkey xs
  have hne : xs.Pairwise fun x y => recency time x ≠ recency time y := by
    refine h.imp ?_
    intro x y hlt heq
    exact hlt.ne (congrArg (fun z => (ofLex z).2) heq)
  have hne' : (byRecency time xs).Pairwise fun x y => recency time x ≠ recency time y :=
    ((byRecency_perm time xs).pairwise_iff fun hxy => hxy.symm).mpr hne
  exact (hle.and hne').imp fun hxy => lt_of_le_of_ne hxy.1 hxy.2

theorem byRecency_of_pairwise (h : xs.Pairwise fun x y => recency time x < recency time y) :
    byRecency time xs = xs :=
  List.Pairwise.insertionSort_eq (h.imp le_of_lt)

theorem mostRecent_eq_none_iff : mostRecent time xs = none ↔ xs = [] := by
  rw [mostRecent, List.getLast?_eq_none_iff, ← List.length_eq_zero_iff,
    (byRecency_perm time xs).length_eq, List.length_eq_zero_iff]

/-- What is in order of recency, and has the newest of a list that has all of it, ends with
those. -/
theorem rtake_eq_newest {ys : List (ℕ × α)} {n : ℕ} (h : InPlace xs) (hsub : ys ⊆ xs)
    (hys : ys.Pairwise fun x y => recency time x < recency time y)
    (hnewest : newest time n xs ⊆ ys) : ys.rtake n = newest time n xs := by
  have hall : (byRecency time xs).Pairwise fun x y => recency time x < recency time y :=
    byRecency_pairwise h
  have hnodup : (byRecency time xs).Nodup := hall.imp fun hlt heq => by
    rw [heq] at hlt
    exact lt_irrefl _ hlt
  have hsub' : ys ⊆ byRecency time xs := fun x hx => (byRecency_perm time xs).mem_iff.mpr (hsub hx)
  have hnodup' : ys.Nodup := hys.imp fun hlt heq => by
    rw [heq] at hlt
    exact lt_irrefl _ hlt
  have hsublist : ys.Sublist (byRecency time xs) :=
    List.sublist_of_subperm_of_pairwise (List.subperm_of_subset hnodup' hsub') hys hall
  rw [← rdrop_append_rtake (byRecency time xs) n] at hsublist hnodup
  obtain ⟨front, back, rfl, hfront, hback⟩ := List.sublist_append_iff.mp hsublist
  obtain ⟨-, hnodupNewest, hdisjoint⟩ := List.nodup_append.mp hnodup
  have hsubset : newest time n xs ⊆ back := by
    intro x hx
    rcases List.mem_append.mp (hnewest hx) with hx' | hx'
    · exact absurd rfl (hdisjoint x (hfront.subset hx') x hx)
    · exact hx'
  obtain rfl : back = newest time n xs :=
    hback.eq_of_length_le (List.subperm_of_subset hnodupNewest hsubset).length_le
  have hle : (newest time n xs).length ≤ n := by
    rw [newest, length_rtake]
    exact min_le_left _ _
  rcases Nat.lt_or_ge (newest time n xs).length n with hlt | hge
  · -- the newest are all there are
    have hnone : (byRecency time xs).rdrop n = [] := by
      rw [newest, length_rtake] at hlt
      rw [List.rdrop, Nat.sub_eq_zero_of_le (by omega), List.take_zero]
    rw [hnone, List.sublist_nil] at hfront
    rw [hfront, List.nil_append, rtake_eq_self hle]
  · rw [rtake_of_suffix (List.suffix_append front _) hge, rtake_eq_self hle]

/-- A window on the pass is the newest elements exactly if nothing later came before one of
them. -/
theorem newest_perm_iff (h : InPlace xs) {n : ℕ} :
    ((ascending (time ∘ Prod.snd) xs).rtake n).Perm (newest time n xs) ↔
      ∀ x ∈ newest time n xs, InOrder time xs x := by
  constructor
  · intro hperm x hx
    have hmem : x ∈ ascending (time ∘ Prod.snd) xs :=
      List.mem_of_mem_drop (hperm.mem_iff.mpr hx)
    exact ((mem_ascendingFrom_iff h).mp hmem).2.2
  · intro horder
    have hsub : ascending (time ∘ Prod.snd) xs ⊆ xs := fun _ => mem_of_mem_ascending
    rw [rtake_eq_newest h hsub (ascending_recency h)]
    intro x hx
    have hx' : x ∈ xs := (byRecency_perm time xs).mem_iff.mp (List.mem_of_mem_drop hx)
    exact (mem_ascendingFrom_iff h).mpr ⟨hx', by simp, horder x hx⟩

theorem ascending_getLast? (h : InPlace xs) :
    (ascending (time ∘ Prod.snd) xs).getLast? = mostRecent time xs := by
  have hall : (byRecency time xs).Pairwise fun x y => recency time x < recency time y :=
    byRecency_pairwise h
  unfold mostRecent
  rcases List.eq_nil_or_concat' (byRecency time xs) with hnil | ⟨init, x, hlast⟩
  · have hxs : xs = [] := by
      have hlength := (byRecency_perm time xs).length_eq
      rw [hnil] at hlength
      exact List.length_eq_zero_iff.mp hlength.symm
    rw [hnil, hxs]
    rfl
  · have hmem {y : ℕ × α} : y ∈ xs ↔ y ∈ init ∨ y = x := by
      rw [← (byRecency_perm time xs).mem_iff, hlast]
      simp
    have horder : InOrder time xs x := by
      intro y hy _
      rcases hmem.mp hy with hy | rfl
      · rw [hlast, List.pairwise_append] at hall
        have hlt := hall.2.2 y hy x (List.mem_singleton_self x)
        rcases recency_lt_iff.mp hlt with hlt | ⟨heq, -⟩
        · exact hlt.le
        · exact heq.le
      · exact le_rfl
    have hx : x ∈ ascending (time ∘ Prod.snd) xs :=
      (mem_ascendingFrom_iff h).mpr ⟨hmem.mpr (Or.inr rfl), by simp, horder⟩
    have hsuffix : [x] <:+ init ++ [x] := List.suffix_append init [x]
    have hone : newest time 1 xs = [x] := by
      rw [newest, hlast, rtake_of_suffix hsuffix (Nat.le_refl 1), rtake_eq_self (Nat.le_refl 1)]
    have hsub : ascending (time ∘ Prod.snd) xs ⊆ xs := fun _ => mem_of_mem_ascending
    have hwindow : (ascending (time ∘ Prod.snd) xs).rtake 1 = newest time 1 xs := by
      apply rtake_eq_newest h hsub (ascending_recency h)
      rw [hone]
      simpa using hx
    rw [hlast, List.getLast?_concat]
    rw [hone] at hwindow
    obtain ⟨front, hfront⟩ : [x] <:+ ascending (time ∘ Prod.snd) xs := by
      rw [← hwindow]
      exact List.drop_suffix _ _
    rw [← hfront, List.getLast?_concat]

end Recency

end Ledger

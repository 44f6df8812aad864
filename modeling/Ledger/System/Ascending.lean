import Ledger.System.Dict
import Mathlib.Data.List.DropRight
import Mathlib.Order.Basic

/-! A pass over a list that leaves out whatever is below what it took last, and a window on what it
took. -/
namespace Ledger
variable {α β : Type*} [LinearOrder β]

/-- The elements that are not below the one before them that was taken last. -/
def ascendingFrom (time : α → β) (last : Option α) : List α → List α
  | [] => []
  | x :: xs =>
    if ∃ y ∈ last, time x < time y then ascendingFrom time last xs
    else x :: ascendingFrom time (some x) xs

def ascending (time : α → β) (xs : List α) : List α :=
  ascendingFrom time none xs

/-- What was taken last, after one more element. -/
def renew (time : α → β) (last : Option α) (x : α) : Option α :=
  if ∃ y ∈ last, time x < time y then last else some x

section Ascending
variable {time : α → β} {last : Option α}

theorem ascendingFrom_sublist (xs : List α) : (ascendingFrom time last xs).Sublist xs := by
  induction xs generalizing last with
  | nil => exact List.Sublist.refl _
  | cons x xs ih =>
    rw [ascendingFrom]
    split_ifs
    · exact ih.trans (List.sublist_cons_self x xs)
    · exact ih.cons_cons x

theorem mem_of_mem_ascending {xs : List α} {x : α} (h : x ∈ ascending time xs) : x ∈ xs :=
  (ascendingFrom_sublist xs).subset h

theorem ascending_eq_nil_iff {xs : List α} : ascending time xs = [] ↔ xs = [] := by
  cases xs with
  | nil => simp [ascending, ascendingFrom]
  | cons x xs => simp [ascending, ascendingFrom]

theorem ascendingFrom_map {γ : Type*} (f : γ → α) (last : Option γ) (xs : List γ) :
    ascendingFrom time (last.map f) (xs.map f) = (ascendingFrom (time ∘ f) last xs).map f := by
  induction xs generalizing last with
  | nil => rfl
  | cons x xs ih =>
    have hlast : (∃ y ∈ last.map f, time (f x) < time y) ↔
        ∃ y ∈ last, (time ∘ f) x < (time ∘ f) y := by
      simp
    rw [List.map_cons, ascendingFrom, ascendingFrom, if_congr hlast rfl rfl]
    split_ifs
    · exact ih last
    · rw [List.map_cons, ← ih (some x)]
      rfl

theorem ascending_map {γ : Type*} (f : γ → α) (xs : List γ) :
    ascending time (xs.map f) = (ascending (time ∘ f) xs).map f :=
  ascendingFrom_map f none xs

theorem ascendingFrom_congr {x y : α} (h : time x = time y) (zs : List α) :
    ascendingFrom time (some x) zs = ascendingFrom time (some y) zs := by
  induction zs with
  | nil => rfl
  | cons z zs ih =>
    have hiff : (∃ w ∈ some x, time z < time w) ↔ ∃ w ∈ some y, time z < time w := by
      simp [h]
    rw [ascendingFrom, ascendingFrom, if_congr hiff rfl rfl, ih]

theorem le_of_mem_ascendingFrom {xs : List α} {x : α} (h : x ∈ ascendingFrom time last xs) :
    ∀ y ∈ last, time y ≤ time x := by
  induction xs generalizing last with
  | nil => cases h
  | cons z xs ih =>
    intro y hy
    rw [ascendingFrom] at h
    split_ifs at h with hlt
    · exact ih h y hy
    · have hyz : time y ≤ time z := not_lt.mp fun hzy => hlt ⟨y, hy, hzy⟩
      rcases List.mem_cons.mp h with rfl | h
      · exact hyz
      · exact hyz.trans (ih h z rfl)

theorem ascendingFrom_of_pairwise {xs : List α} (hxs : xs.Pairwise fun x y => time x ≤ time y)
    (hlast : ∀ y ∈ last, ∀ x ∈ xs, time y ≤ time x) : ascendingFrom time last xs = xs := by
  induction xs generalizing last with
  | nil => rfl
  | cons x xs ih =>
    obtain ⟨hx, hxs⟩ := List.pairwise_cons.mp hxs
    have hnot : ¬∃ y ∈ last, time x < time y := by
      rintro ⟨y, hy, hlt⟩
      exact absurd hlt (not_lt.mpr (hlast y hy x List.mem_cons_self))
    rw [ascendingFrom, if_neg hnot]
    congr 1
    apply ih hxs
    intro y hy
    rw [← Option.some.inj hy]
    exact hx

theorem filter_le_suffix {xs : List α} (hxs : xs.Pairwise fun x y => time x ≤ time y) (t : β) :
    xs.filter (fun x => t ≤ time x) <:+ xs := by
  induction xs with
  | nil => exact List.suffix_rfl
  | cons x xs ih =>
    obtain ⟨hx, hxs⟩ := List.pairwise_cons.mp hxs
    by_cases hle : t ≤ time x
    · have hall : ∀ y ∈ x :: xs, t ≤ time y :=
        List.forall_mem_cons.mpr ⟨hle, fun y hy => hle.trans (hx y hy)⟩
      rw [List.filter_eq_self.mpr fun y hy => decide_eq_true (hall y hy)]
    · rw [List.filter_cons_of_neg (by simpa using hle)]
      exact (ih hxs).trans (List.suffix_cons x xs)

/-- Starting higher leaves out what is below the start, and nothing else. -/
theorem ascendingFrom_eq_filter (y : α) (hlast : ∀ z ∈ last, time z ≤ time y) (xs : List α) :
    ascendingFrom time (some y) xs =
      (ascendingFrom time last xs).filter fun x => time y ≤ time x := by
  induction xs generalizing last with
  | nil => rfl
  | cons x xs ih =>
    rw [ascendingFrom, ascendingFrom]
    by_cases hxy : time x < time y
    · rw [if_pos ⟨y, rfl, hxy⟩]
      split_ifs
      · exact ih hlast
      · rw [List.filter_cons_of_neg (by simpa using hxy)]
        exact ih fun z hz => by
          rw [← Option.some.inj hz]
          exact hxy.le
    · have hyx : time y ≤ time x := not_lt.mp hxy
      have hsome : ¬∃ z ∈ some y, time x < time z := by simpa using hyx
      have hnot : ¬∃ z ∈ last, time x < time z := by
        rintro ⟨z, hz, hlt⟩
        exact absurd hlt (not_lt.mpr ((hlast z hz).trans hyx))
      rw [if_neg hsome, if_neg hnot, List.filter_cons_of_pos (by simpa using hyx)]
      congr 1
      rw [List.filter_eq_self.mpr]
      intro z hz
      simpa using hyx.trans (le_of_mem_ascendingFrom hz x rfl)

/-- The last elements taken do not depend on where the pass starts, if that is not above them. -/
theorem suffix_ascendingFrom {xs newest : List α} (h : newest <:+ ascending time xs)
    (hlast : ∀ x ∈ newest, ∀ y ∈ last, time y ≤ time x) :
    newest <:+ ascendingFrom time last xs := by
  cases last with
  | none => exact h
  | some y =>
    have hnone : ∀ z ∈ (none : Option α), time z ≤ time y := by simp
    rw [ascendingFrom_eq_filter y hnone]
    have hall : newest.filter (fun x => time y ≤ time x) = newest := by
      rw [List.filter_eq_self]
      intro x hx
      simpa using hlast x hx y rfl
    rw [← hall]
    exact h.filter _

theorem foldl_renew (xs : List α) :
    xs.foldl (renew time) last = (ascendingFrom time last xs).getLast?.or last := by
  induction xs generalizing last with
  | nil => rfl
  | cons x xs ih =>
    rw [List.foldl_cons, ih, renew, ascendingFrom]
    split_ifs
    · rfl
    · rw [List.getLast?_cons]
      cases (ascendingFrom time (some x) xs).getLast? <;> rfl

theorem le_foldl_renew {xs : List α} {x : α} (h : x ∈ last ∨ x ∈ xs) :
    ∃ y ∈ xs.foldl (renew time) last, time x ≤ time y := by
  induction xs generalizing last x with
  | nil => exact ⟨x, h.resolve_right List.not_mem_nil, le_rfl⟩
  | cons z xs ih =>
    have hz : ∃ y ∈ renew time last z, time z ≤ time y := by
      unfold renew
      split_ifs with hlt
      · obtain ⟨y, hy, hzy⟩ := hlt
        exact ⟨y, hy, hzy.le⟩
      · exact ⟨z, rfl, le_rfl⟩
    have hlast : ∀ y ∈ last, ∃ w ∈ renew time last z, time y ≤ time w := by
      intro y hy
      unfold renew
      split_ifs with hlt
      · exact ⟨y, hy, le_rfl⟩
      · exact ⟨z, rfl, not_lt.mp fun hzy => hlt ⟨y, hy, hzy⟩⟩
    have hstep : ∀ y, (∃ w ∈ renew time last z, time y ≤ time w) →
        ∃ w ∈ xs.foldl (renew time) (renew time last z), time y ≤ time w := by
      rintro y ⟨w, hw, hyw⟩
      obtain ⟨v, hv, hwv⟩ := ih (.inl hw)
      exact ⟨v, hv, hyw.trans hwv⟩
    rcases h with h | h
    · exact hstep x (hlast x h)
    · rcases List.mem_cons.mp h with rfl | h
      · exact hstep x hz
      · exact ih (.inr h)

theorem foldl_renew_cases (time : α → β) (xs : List α) :
    xs = [] ∧ xs.foldl (renew time) none = none ∨
      ∃ x ∈ xs, xs.foldl (renew time) none = some x ∧ ∀ y ∈ xs, time y ≤ time x := by
  cases hlast : xs.foldl (renew time) none with
  | none =>
    left
    rw [foldl_renew, Option.or_none, List.getLast?_eq_none_iff] at hlast
    exact ⟨ascending_eq_nil_iff.mp hlast, rfl⟩
  | some x =>
    right
    have hx : x ∈ ascending time xs := by
      rw [foldl_renew, Option.or_none] at hlast
      exact List.mem_of_getLast? hlast
    refine ⟨x, mem_of_mem_ascending hx, rfl, fun y hy => ?_⟩
    obtain ⟨z, hz, hle⟩ : ∃ z ∈ xs.foldl (renew time) none, time y ≤ time z :=
      le_foldl_renew (Or.inr hy)
    rw [hlast] at hz
    rwa [← Option.some.inj hz] at hle

theorem renew_of_le {x : α} (h : ∀ y ∈ last, time y ≤ time x) : renew time last x = some x :=
  if_neg fun ⟨y, hy, hlt⟩ => absurd hlt (not_lt.mpr (h y hy))

theorem renew_of_lt {x : α} (h : ∃ y ∈ last, time x < time y) : renew time last x = last :=
  if_pos h

theorem renew_cases (time : α → β) (last : Option α) (x : α) :
    (∀ y ∈ last, time y ≤ time x) ∨ ∃ y ∈ last, time x < time y := by
  by_cases h : ∃ y ∈ last, time x < time y
  · exact Or.inr h
  · exact Or.inl fun y hy => not_lt.mp fun hlt => h ⟨y, hy, hlt⟩

theorem le_of_renew_le {x w : α} (h : ∀ y ∈ renew time last x, time y ≤ time w) :
    ∀ y ∈ last, time y ≤ time w := by
  rcases renew_cases time last x with hle | hlt
  · rw [renew_of_le hle] at h
    exact fun y hy => (hle y hy).trans (h x rfl)
  · rwa [renew_of_lt hlt] at h

theorem renew_le {x w : α} (hx : time x ≤ time w) (h : ∀ y ∈ last, time y ≤ time w) :
    ∀ y ∈ renew time last x, time y ≤ time w := by
  rcases renew_cases time last x with hle | hlt
  · rw [renew_of_le hle]
    intro y hy
    rwa [← Option.some.inj hy]
  · rwa [renew_of_lt hlt]

/-- Two passes over one list end alike exactly if they start alike, or the list has an element
that is not below either start. -/
theorem foldl_renew_eq_iff {first second : Option α} {xs : List α} :
    xs.foldl (renew time) first = xs.foldl (renew time) second ↔
      first = second ∨
        ∃ x ∈ xs, (∀ y ∈ first, time y ≤ time x) ∧ ∀ y ∈ second, time y ≤ time x := by
  induction xs generalizing first second with
  | nil => simp
  | cons x xs ih =>
    rw [List.foldl_cons, List.foldl_cons, ih]
    constructor
    · rintro (heq | ⟨w, hw, hfirst, hsecond⟩)
      · rcases renew_cases time first x with hfirst | hfirst
        · rcases renew_cases time second x with hsecond | ⟨y, hy, hlt⟩
          · exact Or.inr ⟨x, List.mem_cons_self, hfirst, hsecond⟩
          · rw [renew_of_le hfirst, renew_of_lt ⟨y, hy, hlt⟩] at heq
            rw [← heq] at hy
            rw [Option.some.inj hy] at hlt
            exact absurd hlt (lt_irrefl _)
        · rcases renew_cases time second x with hsecond | hsecond
          · obtain ⟨y, hy, hlt⟩ := hfirst
            rw [renew_of_lt ⟨y, hy, hlt⟩, renew_of_le hsecond] at heq
            rw [heq] at hy
            rw [Option.some.inj hy] at hlt
            exact absurd hlt (lt_irrefl _)
          · rw [renew_of_lt hfirst, renew_of_lt hsecond] at heq
            exact Or.inl heq
      · exact Or.inr ⟨w, List.mem_cons_of_mem x hw, le_of_renew_le hfirst, le_of_renew_le hsecond⟩
    · rintro (rfl | ⟨w, hw, hfirst, hsecond⟩)
      · exact Or.inl rfl
      · by_cases hboth : (∀ y ∈ first, time y ≤ time x) ∧ ∀ y ∈ second, time y ≤ time x
        · exact Or.inl (by rw [renew_of_le hboth.1, renew_of_le hboth.2])
        · have hxw : time x ≤ time w := by
            rcases renew_cases time first x with hle | ⟨y, hy, hlt⟩
            · obtain ⟨y, hy, hlt⟩ := (renew_cases time second x).resolve_left fun h => hboth ⟨hle, h⟩
              exact hlt.le.trans (hsecond y hy)
            · exact hlt.le.trans (hfirst y hy)
          have hw' : w ∈ xs := by
            rcases List.mem_cons.mp hw with rfl | hw
            · exact absurd ⟨hfirst, hsecond⟩ hboth
            · exact hw
          exact Or.inr ⟨w, hw', renew_le hxw hfirst, renew_le hxw hsecond⟩

end Ascending

section Window

theorem rtake_of_suffix {xs ys : List α} (h : xs <:+ ys) {n : ℕ} (hn : n ≤ xs.length) :
    ys.rtake n = xs.rtake n := by
  obtain ⟨zs, rfl⟩ := h
  unfold List.rtake
  have hshift : zs.length + xs.length - n - zs.length = xs.length - n := by omega
  rw [List.length_append, List.drop_append, List.drop_of_length_le (by omega), hshift,
    List.nil_append]

theorem length_rtake (xs : List α) (n : ℕ) : (xs.rtake n).length = min n xs.length := by
  rw [List.rtake, List.length_drop]
  omega

theorem rtake_eq_self {xs : List α} {n : ℕ} (h : xs.length ≤ n) : xs.rtake n = xs := by
  rw [List.rtake, Nat.sub_eq_zero_of_le h, List.drop_zero]

theorem rtake_append_rtake (xs ys : List α) (n : ℕ) :
    (xs.rtake n ++ ys).rtake n = (xs ++ ys).rtake n := by
  rcases Nat.le_total n xs.length with hn | hn
  · have hsuffix : xs.rtake n ++ ys <:+ xs ++ ys :=
      (List.suffix_append_self_iff).mpr (List.drop_suffix _ xs)
    rw [rtake_of_suffix hsuffix]
    rw [List.length_append, length_rtake]
    omega
  · rw [rtake_eq_self hn]

theorem rdrop_append_rtake (xs : List α) (n : ℕ) : xs.rdrop n ++ xs.rtake n = xs :=
  List.take_append_drop _ _

/-- Choosing from a window is a window on what is chosen, unless the window has been left by
something of the choice and has something else in it. -/
theorem filter_rtake_iff {p : α → Bool} {xs : List α} {n : ℕ} :
    (xs.rtake n).filter p = (xs.filter p).rtake n ↔
      (∀ x ∈ xs.rdrop n, p x = false) ∨ ∀ x ∈ xs.rtake n, p x = true := by
  have hsplit : xs.filter p = (xs.rdrop n).filter p ++ (xs.rtake n).filter p := by
    rw [← List.filter_append, rdrop_append_rtake]
  constructor
  · intro h
    by_contra hnot
    rw [not_or] at hnot
    obtain ⟨hleft, hother⟩ := hnot
    have hdropped : 0 < ((xs.rdrop n).filter p).length := by
      rw [List.length_pos_iff, Ne, List.filter_eq_nil_iff]
      simpa using hleft
    have hfewer : ((xs.rtake n).filter p).length < (xs.rtake n).length := by
      refine lt_of_le_of_ne (List.length_filter_le _ _) fun heq => hother ?_
      exact List.length_filter_eq_length_iff.mp heq
    have hlength := congrArg List.length h
    rw [length_rtake, hsplit, List.length_append] at hlength
    rw [length_rtake] at hfewer
    omega
  · rintro (hleft | hown)
    · have hnil : (xs.rdrop n).filter p = [] := by
        rw [List.filter_eq_nil_iff]
        simpa using hleft
      have hle : ((xs.rtake n).filter p).length ≤ n := by
        have hlength := List.length_filter_le p (xs.rtake n)
        rw [length_rtake] at hlength
        omega
      rw [hsplit, hnil, List.nil_append, rtake_eq_self hle]
    · have hall : (xs.rtake n).filter p = xs.rtake n := List.filter_eq_self.mpr hown
      rw [hsplit, hall]
      rcases Nat.le_total n xs.length with hn | hn
      · have hlength : n ≤ (xs.rtake n).length := by
          rw [length_rtake]
          omega
        have hself : (xs.rtake n).rtake n = xs.rtake n := by
          apply rtake_eq_self
          rw [length_rtake]
          omega
        rw [rtake_of_suffix (List.suffix_append _ _) hlength, hself]
      · have hnil : xs.rdrop n = [] := by
          rw [List.rdrop, Nat.sub_eq_zero_of_le hn, List.take_zero]
        rw [hnil, List.filter_nil, List.nil_append, rtake_eq_self hn, rtake_eq_self hn]

theorem pushBounded_eq_rtake (maxlen : ℕ) (q : List α) (x : α) :
    pushBounded maxlen q x = (q ++ [x]).rtake maxlen := by
  rw [pushBounded, List.rtake, List.length_append, List.length_singleton]

end Window

end Ledger

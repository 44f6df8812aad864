import Ledger.System.Ascending

/-! A slot that keeps the newest of what it is handed, and what it makes of pieces of one growing
list that overlap and come late. -/
namespace Ledger
variable {α β : Type*} [LinearOrder β]

/-- A slot that leaves alone what is behind the element it holds, takes up the time of anything
else, and is not changed by going once more through elements in order. -/
structure Register (time : α → β) (take : Option α → α → Option α) : Prop where
  behind : ∀ last x, (∃ y ∈ last, time x < time y) → take last x = last
  takes : ∀ last x, (∀ y ∈ last, time y ≤ time x) → (take last x).map time = some (time x)
  again : ∀ (last : Option α) (xs : List α), xs.Pairwise (fun x y => time x ≤ time y) →
    (∀ y ∈ last, ∀ x ∈ xs, time y ≤ time x) →
    xs.foldl take (xs.foldl take last) = xs.foldl take last

section Register
variable {time : α → β} {take : Option α → α → Option α}

theorem renew_register (time : α → β) : Register time (renew time) where
  behind _ _ := renew_of_lt
  takes last x h := by
    rw [renew_of_le h]
    rfl
  again last xs hxs hlast := by
    rw [foldl_renew_eq_iff]
    rcases List.eq_nil_or_concat' xs with rfl | ⟨init, x, rfl⟩
    · exact Or.inl rfl
    · have hx : x ∈ init ++ [x] := List.mem_append_right init (List.mem_singleton_self x)
      have hinit : ∀ y ∈ init, time y ≤ time x := fun y hy =>
        (List.pairwise_append.mp hxs).2.2 y hy x (List.mem_singleton_self x)
      refine Or.inr ⟨x, hx, ?_, fun y hy => hlast y hy x hx⟩
      rw [List.foldl_append, List.foldl_cons, List.foldl_nil]
      have hle : ∀ (ys : List α), (∀ y ∈ ys, time y ≤ time x) →
          ∀ y ∈ ys.foldl (renew time) last, time y ≤ time x := by
        intro ys hys
        induction ys using List.reverseRecOn with
        | nil => exact fun y hy => hlast y hy x hx
        | append_singleton ys z ih =>
          rw [List.foldl_append, List.foldl_cons, List.foldl_nil]
          apply renew_le (hys z (by simp))
          exact ih fun y hy => hys y (List.mem_append_left _ hy)
      exact renew_le le_rfl (hle init hinit)

theorem Register.foldl_time (h : Register time take) {last : Option α} {xs : List α}
    (hxs : xs.Pairwise fun x y => time x ≤ time y)
    (hlast : ∀ y ∈ last, ∀ x ∈ xs, time y ≤ time x) :
    (xs.foldl take last).map time = (xs.getLast?.map time).or (last.map time) := by
  induction xs generalizing last with
  | nil => rfl
  | cons x xs ih =>
    obtain ⟨hx, hxs⟩ := List.pairwise_cons.mp hxs
    have htake := h.takes last x fun y hy => hlast y hy x List.mem_cons_self
    rw [List.foldl_cons, ih hxs, htake, List.getLast?_cons]
    · cases xs.getLast? <;> rfl
    · intro y hy z hz
      rw [Option.mem_def.mp hy, Option.map_some, Option.some.injEq] at htake
      rw [htake]
      exact hx z hz

theorem Register.foldl_behind (h : Register time take) {last : Option α} {xs : List α}
    (hxs : ∀ x ∈ xs, ∃ y ∈ last, time x < time y) : xs.foldl take last = last := by
  induction xs with
  | nil => rfl
  | cons x xs ih =>
    rw [List.forall_mem_cons] at hxs
    rw [List.foldl_cons, h.behind last x hxs.1, ih hxs.2]

theorem Register.foldl_again (h : Register time take) {xs ys : List α}
    (horder : (xs ++ ys).Pairwise fun x y => time x ≤ time y) :
    ys.foldl take ((xs ++ ys).foldl take none) = (xs ++ ys).foldl take none := by
  obtain ⟨hxs, hys, hxy⟩ := List.pairwise_append.mp horder
  rw [List.foldl_append]
  apply h.again _ ys hys
  intro y hy x hx
  have htime := h.foldl_time hxs (fun y hy => absurd hy (Option.not_mem_none y))
  rw [Option.mem_def.mp hy, Option.map_some, Option.map_none, Option.or_none] at htime
  obtain ⟨z, hz, hzy⟩ := Option.map_eq_some_iff.mp htime.symm
  rw [← hzy]
  exact hxy z (List.mem_of_getLast? hz) x hx

theorem Register.foldl_late (h : Register time take) {xs ys : List α}
    (hxs : xs.Pairwise fun x y => time x ≤ time y) (hys : ys ⊆ xs)
    (hne : ∀ x ∈ ys, ∀ y ∈ xs.getLast?, time x ≠ time y) :
    ys.foldl take (xs.foldl take none) = xs.foldl take none := by
  apply h.foldl_behind
  intro x hx
  rcases List.eq_nil_or_concat' xs with rfl | ⟨init, last, rfl⟩
  · exact absurd (hys hx) List.not_mem_nil
  · have htime := h.foldl_time hxs (fun y hy => absurd hy (Option.not_mem_none y))
    rw [List.getLast?_concat, Option.map_some, Option.some_or] at htime
    obtain ⟨y, hy, hyl⟩ := Option.map_eq_some_iff.mp htime
    refine ⟨y, hy, ?_⟩
    rw [hyl]
    apply lt_of_le_of_ne _ (hne x hx last (by simp))
    rcases List.mem_append.mp (hys hx) with hinit | hlast
    · exact (List.pairwise_append.mp hxs).2.2 x hinit last (List.mem_singleton_self last)
    · rw [List.mem_singleton.mp hlast]

/-- A piece of a growing list: what is before `lower` is not in it, and it ends at `size`. The slot
has been through the first `m` elements. -/
theorem Register.deliver (h : Register time take) {γ : Type*} {list : List γ}
    {event : γ → Option α} {lower m size : ℕ}
    (horder : (list.filterMap event).Pairwise fun x y => time x ≤ time y) (hlower : lower ≤ m)
    (hm : m ≤ list.length)
    (htimely : ((list.take m).drop size).filterMap event = [] ∨
      ∀ x ∈ ((list.take size).drop lower).filterMap event,
        ∀ y ∈ ((list.take m).filterMap event).getLast?, time x ≠ time y) :
    (((list.take size).drop lower).filterMap event).foldl take
        (((list.take m).filterMap event).foldl take none) =
      ((list.take (max m size)).filterMap event).foldl take none := by
  have hprefix (n : ℕ) : ((list.take n).filterMap event).Pairwise fun x y => time x ≤ time y :=
    horder.sublist ((List.take_sublist n list).filterMap event)
  have hsplit (n k : ℕ) : (list.take n).filterMap event =
      ((list.take n).take k).filterMap event ++ ((list.take n).drop k).filterMap event := by
    rw [← List.filterMap_append, List.take_append_drop]
  rcases Nat.le_total m size with hle | hle
  · -- the piece goes on where the slot has got to
    have hmet := hprefix m
    have hpiece : (list.take size).drop lower =
        (list.take m).drop lower ++ (list.take size).drop m := by
      have hlength : lower ≤ (list.take m).length := by
        rw [List.length_take]
        omega
      have hcut : (list.take size).take m = list.take m := by
        rw [List.take_take, Nat.min_eq_left hle]
      conv_lhs => rw [← List.take_append_drop m (list.take size), hcut]
      exact List.drop_append_of_le_length hlength
    have hsize : (list.take size).filterMap event =
        (list.take m).filterMap event ++ ((list.take size).drop m).filterMap event := by
      rw [hsplit size m, List.take_take, Nat.min_eq_left hle]
    rw [hsplit m lower] at hmet
    rw [max_eq_right hle, hsize, hpiece, List.filterMap_append, List.foldl_append,
      List.foldl_append]
    congr 1
    rw [hsplit m lower]
    exact h.foldl_again hmet
  · have hmet := hprefix m
    have hcut : (list.take m).take size = list.take size := by
      rw [List.take_take, Nat.min_eq_left hle]
    rw [max_eq_left hle]
    rcases htimely with hnone | hne
    · have hall : (list.take m).filterMap event = (list.take size).filterMap event := by
        rw [hsplit m size, hnone, List.append_nil, hcut]
      have hmet' := hprefix size
      rw [hsplit size lower] at hmet'
      rw [hall, hsplit size lower]
      exact h.foldl_again hmet'
    · apply h.foldl_late hmet _ hne
      have hsub : ((list.take size).drop lower).Sublist (list.take m) := by
        rw [← hcut]
        exact (List.drop_sublist _ _).trans (List.take_sublist _ _)
      exact (hsub.filterMap event).subset

end Register

end Ledger

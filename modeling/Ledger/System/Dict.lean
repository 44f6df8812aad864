import Mathlib.Data.List.Basic
import Mathlib.Tactic

/-! Dictionaries in order of insertion, queues of bounded length, and folds that meet one element
twice. -/
namespace Ledger
variable {κ ν : Type*} [DecidableEq κ]

/-- A dictionary in order of insertion. -/
abbrev Dict (κ ν : Type*) := List (κ × ν)

namespace Dict

def get (d : Dict κ ν) (k : κ) : Option ν :=
  match d with
  | [] => none
  | (l, w) :: d => if k = l then some w else get d k

/-- A new key goes to the end, a known one keeps its place. -/
def set (d : Dict κ ν) (k : κ) (v : ν) : Dict κ ν :=
  match d with
  | [] => [(k, v)]
  | (l, w) :: d => if k = l then (k, v) :: d else (l, w) :: set d k v

@[simp] theorem get_set_self (d : Dict κ ν) (k : κ) (v : ν) : (d.set k v).get k = some v := by
  induction d with
  | nil => simp [set, get]
  | cons m d ih =>
    rw [set]
    split_ifs with h
    · simp [get]
    · rw [get, if_neg h]
      exact ih

theorem get_set_of_ne {d : Dict κ ν} {k l : κ} (h : l ≠ k) (v : ν) :
    (d.set k v).get l = d.get l := by
  induction d with
  | nil => simp [set, get, h]
  | cons m d ih =>
    rw [set]
    split_ifs with hk
    · obtain ⟨m, w⟩ := m
      obtain rfl : k = m := hk
      rw [get, get, if_neg h, if_neg h]
    · rw [get, get, ih]

theorem mem_keys_iff {d : Dict κ ν} {k : κ} : k ∈ d.map Prod.fst ↔ (d.get k).isSome := by
  induction d with
  | nil => simp [get]
  | cons m d ih =>
    rw [List.map_cons, List.mem_cons, ih, get]
    split_ifs with h
    · simp [h]
    · simp [h]

theorem nodup_keys_set {d : Dict κ ν} (h : (d.map Prod.fst).Nodup) (k : κ) (v : ν) :
    ((d.set k v).map Prod.fst).Nodup := by
  induction d with
  | nil => exact List.nodup_singleton k
  | cons m d ih =>
    rw [List.map_cons, List.nodup_cons] at h
    rw [set]
    split_ifs with hk
    · rw [List.map_cons, List.nodup_cons, hk]
      exact h
    · rw [List.map_cons, List.nodup_cons, mem_keys_iff, get_set_of_ne (Ne.symm hk), ← mem_keys_iff]
      exact ⟨h.1, ih h.2⟩

theorem set_of_get {d : Dict κ ν} {k : κ} {v : ν} (h : d.get k = some v) : d.set k v = d := by
  induction d with
  | nil => cases h
  | cons m d ih =>
    rw [get] at h
    rw [set]
    split_ifs at h ⊢ with hk
    · obtain ⟨l, w⟩ := m
      obtain rfl : w = v := Option.some.inj h
      rw [hk]
    · rw [ih h]

end Dict

/-- `deque(maxlen).append`: the oldest elements make room. -/
def pushBounded {α : Type*} (maxlen : ℕ) (q : List α) (x : α) : List α :=
  (q ++ [x]).drop (q.length + 1 - maxlen)

theorem pushBounded_twice {α : Type*} {maxlen : ℕ} (h : maxlen ≤ 1) (q : List α) (x : α) :
    pushBounded maxlen (pushBounded maxlen q x) x = pushBounded maxlen q x := by
  rcases Nat.le_one_iff_eq_zero_or_eq_one.mp h with rfl | rfl
  · simp [pushBounded]
  · simp [pushBounded]

/-- A view of a folded state that only some elements change is a fold over those. -/
theorem foldl_view {σ α β ε : Type*} {f : σ → α → σ} (view : σ → β) {event : α → Option ε}
    {g : β → ε → β} (h : ∀ s a, view (f s a) = (event a).elim (view s) (g (view s))) (s : σ)
    (l : List α) : view (l.foldl f s) = (l.filterMap event).foldl g (view s) := by
  induction l generalizing s with
  | nil => rfl
  | cons a l ih =>
    rw [List.foldl_cons, ih, h]
    cases he : event a with
    | none => rw [List.filterMap_cons_none he, Option.elim_none]
    | some e => rw [List.filterMap_cons_some he, List.foldl_cons, Option.elim_some]

theorem getLast?_filterMap_cons {α β : Type*} (f : α → Option β) (x : α) (xs : List α) :
    ((x :: xs).filterMap f).getLast? = (xs.filterMap f).getLast?.or (f x) := by
  cases h : f x with
  | none => rw [List.filterMap_cons_none h, Option.or_none]
  | some y =>
    rw [List.filterMap_cons_some h, List.getLast?_cons]
    cases (xs.filterMap f).getLast? <;> rfl

theorem getLast?_filterMap {α β : Type*} (f : α → Option β) (xs : List α) :
    (xs.filterMap f).getLast? = (xs.filter fun x => (f x).isSome).getLast?.bind f := by
  induction xs using List.reverseRecOn with
  | nil => rfl
  | append_singleton xs x ih =>
    rw [List.filterMap_append, List.filter_append, List.getLast?_append, List.getLast?_append, ih]
    cases h : f x with
    | none => simp [h]
    | some y => simp [h]

theorem getLast?_or_of_suffix {α : Type*} {xs ys : List α} (h : xs <:+ ys) :
    xs.getLast?.or ys.getLast? = ys.getLast? := by
  obtain ⟨zs, rfl⟩ := h
  rw [List.getLast?_append]
  cases xs.getLast? <;> rfl

/-- Going back one element in a fold is harmless where the step does nothing the second time. -/
theorem foldl_resume {σ α : Type*} {f : σ → α → σ} {s : σ} {l : List α} {n : ℕ}
    (h : ∀ a, l[n]? = some a → f ((l.take (n + 1)).foldl f s) a = (l.take (n + 1)).foldl f s) :
    (l.drop n).foldl f ((l.take (n + 1)).foldl f s) = l.foldl f s := by
  rcases Nat.lt_or_ge n l.length with hn | hn
  · rw [List.drop_eq_getElem_cons hn, List.foldl_cons, h _ (List.getElem?_eq_getElem hn),
      ← List.foldl_append, List.take_append_drop]
  · rw [List.drop_of_length_le hn, List.take_of_length_le (by omega)]
    rfl

end Ledger

import Mathlib.Data.List.Basic
import Mathlib.Data.List.Induction
import Mathlib.Data.List.Nodup
import Mathlib.Data.Set.Function

/-! Hash chains over records of any kind: every record names the hash of the one before it. -/
namespace Ledger.HashChain
variable {R D : Type*} (prev hash : R → D)

/-- The hash a record appended to a chain must name. -/
def lastHash (genesis : D) (xs : List R) : D :=
  (xs.getLast?.map hash).getD genesis

/-- Every record names the hash of its predecessor, the first one `genesis`. -/
def Linked (genesis : D) : List R → Prop
  | [] => True
  | r :: xs => prev r = genesis ∧ Linked (hash r) xs

variable {prev hash}

@[simp] theorem lastHash_nil (genesis : D) : lastHash hash genesis [] = genesis := rfl

@[simp] theorem lastHash_append_singleton (genesis : D) (xs : List R) (r : R) :
    lastHash hash genesis (xs ++ [r]) = hash r := by
  simp [lastHash]

theorem lastHash_cons (genesis : D) (r : R) (xs : List R) :
    lastHash hash genesis (r :: xs) = lastHash hash (hash r) xs := by
  cases xs with
  | nil => rfl
  | cons s xs =>
    obtain ⟨x, hx⟩ := Option.isSome_iff_exists.mp (List.getLast?_isSome.mpr (List.cons_ne_nil s xs))
    rw [lastHash, lastHash, List.getLast?_cons_cons, hx]
    rfl

theorem linked_append_singleton {genesis : D} {xs : List R} {r : R} :
    Linked prev hash genesis (xs ++ [r]) ↔
      Linked prev hash genesis xs ∧ prev r = lastHash hash genesis xs := by
  induction xs generalizing genesis with
  | nil => simp [Linked]
  | cons s xs ih => rw [List.cons_append, Linked, ih, Linked, lastHash_cons, and_assoc]

/-- The last hash determines the whole chain, if hashes determine records and none of them
is the value the first record names. -/
theorem Linked.eq_of_lastHash_eq {genesis : D} {xs ys : List R}
    (hx : Linked prev hash genesis xs) (hy : Linked prev hash genesis ys)
    (hinj : ∀ r ∈ xs, ∀ s ∈ ys, hash r = hash s → r = s)
    (hgx : ∀ r ∈ xs, hash r ≠ genesis) (hgy : ∀ s ∈ ys, hash s ≠ genesis)
    (h : lastHash hash genesis xs = lastHash hash genesis ys) : xs = ys := by
  induction xs using List.reverseRecOn generalizing ys with
  | nil =>
    induction ys using List.reverseRecOn with
    | nil => rfl
    | append_singleton ys s _ =>
      rw [lastHash_append_singleton] at h
      exact absurd h.symm (hgy s (by simp))
  | append_singleton xs r ih =>
    induction ys using List.reverseRecOn with
    | nil =>
      rw [lastHash_append_singleton] at h
      exact absurd h (hgx r (by simp))
    | append_singleton ys s _ =>
      rw [lastHash_append_singleton, lastHash_append_singleton] at h
      obtain ⟨hx', hpx⟩ := linked_append_singleton.mp hx
      obtain ⟨hy', hpy⟩ := linked_append_singleton.mp hy
      have hrs : r = s := hinj r (by simp) s (by simp) h
      rw [hrs] at hpx ⊢
      rw [ih hx' hy' (fun a ha b hb => hinj a (by simp [ha]) b (by simp [hb]))
        (fun a ha => hgx a (by simp [ha])) (fun b hb => hgy b (by simp [hb])) (hpx.symm.trans hpy)]

theorem Linked.prev_mem {genesis : D} {xs : List R} (h : Linked prev hash genesis xs) {r : R}
    (hr : r ∈ xs) : prev r = genesis ∨ ∃ s ∈ xs, prev r = hash s := by
  induction xs generalizing genesis with
  | nil => cases hr
  | cons s xs ih =>
    rcases List.mem_cons.mp hr with rfl | hr
    · exact Or.inl h.1
    · rcases ih h.2 hr with hs | ⟨t, ht, hp⟩
      · exact Or.inr ⟨s, by simp, hs⟩
      · exact Or.inr ⟨t, by simp [ht], hp⟩

theorem lastHash_append (genesis : D) (xs ys : List R) :
    lastHash hash genesis (xs ++ ys) = lastHash hash (lastHash hash genesis xs) ys := by
  induction xs generalizing genesis with
  | nil => rfl
  | cons r xs ih => rw [List.cons_append, lastHash_cons, ih, lastHash_cons]

theorem exists_lastHash_eq (genesis : D) {xs : List R} (hne : xs ≠ []) :
    ∃ r ∈ xs, lastHash hash genesis xs = hash r := by
  rcases List.eq_nil_or_concat' xs with rfl | ⟨xs, r, rfl⟩
  · exact absurd rfl hne
  · exact ⟨r, by simp, lastHash_append_singleton ..⟩

theorem linked_append_cons {genesis : D} {xs ys : List R} {r : R} :
    Linked prev hash genesis (xs ++ r :: ys) ↔
      Linked prev hash genesis xs ∧ prev r = lastHash hash genesis xs ∧
        Linked prev hash (hash r) ys := by
  induction xs generalizing genesis with
  | nil => simp [Linked]
  | cons s xs ih => rw [List.cons_append, Linked, ih, Linked, lastHash_cons, and_assoc]

/-- No hash repeats along a chain whose hashes determine what a record names: two equal hashes
would lead back to one that equals `genesis`. -/
theorem Linked.nodup_hash {genesis : D} {xs : List R} (h : Linked prev hash genesis xs)
    (hprev : ∀ r ∈ xs, ∀ s ∈ xs, hash r = hash s → prev r = prev s)
    (hg : ∀ r ∈ xs, hash r ≠ genesis) : (xs.map hash).Nodup := by
  induction xs using List.reverseRecOn with
  | nil => exact List.nodup_nil
  | append_singleton xs r ih =>
    obtain ⟨hx, hp⟩ := linked_append_singleton.mp h
    have hnodup := ih hx (fun a ha b hb => hprev a (by simp [ha]) b (by simp [hb]))
      (fun a ha => hg a (by simp [ha]))
    have hfresh : hash r ∉ xs.map hash := by
      intro hmem
      obtain ⟨s, hs, hsr⟩ := List.mem_map.mp hmem
      obtain ⟨ys, zs, rfl⟩ := List.append_of_mem hs
      have hps : prev s = lastHash hash genesis ys := (linked_append_cons.mp hx).2.1
      have hlast : lastHash hash genesis (ys ++ s :: zs) = lastHash hash genesis ys := by
        rw [← hp, ← hps]
        exact hprev r (by simp) s (by simp) hsr.symm
      rw [lastHash_append] at hlast
      obtain ⟨t, ht, hlt⟩ : ∃ t ∈ s :: zs, lastHash hash (lastHash hash genesis ys) (s :: zs) =
        hash t := exists_lastHash_eq _ (List.cons_ne_nil s zs)
      rw [hlast] at hlt
      -- the record before `s` carries the hash of one behind it, or is not there
      rcases List.eq_nil_or_concat' ys with rfl | ⟨ys, u, rfl⟩
      · exact hg t (List.mem_append_left _ ht) hlt.symm
      · rw [lastHash_append_singleton] at hlt
        rw [List.map_append, List.nodup_append] at hnodup
        exact hnodup.2.2 (hash u) (by simp) (hash t) (List.mem_map_of_mem ht) hlt
    rw [List.map_append, List.map_singleton, List.nodup_append]
    refine ⟨hnodup, List.nodup_singleton _, fun a ha b hb hab => hfresh ?_⟩
    rwa [← List.mem_singleton.mp hb, ← hab]

end Ledger.HashChain

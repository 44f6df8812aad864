import Ledger.System.Dict

/-! A cache of lookups: what a lookup found is served again as long as it is young, and a lookup
that fails leaves nothing. -/
namespace Ledger.TtlCache
variable {κ ν τ : Type*} [DecidableEq κ]

/-- An access at a time, with what a lookup would find, or `none` where it would fail. -/
structure Access (κ ν τ : Type*) where
  key : κ
  now : τ
  found : Option ν

variable (young : τ → τ → Prop) [DecidableRel young]

/-- What is served without a lookup. -/
def cached (cache : Dict κ (τ × ν)) (k : κ) (now : τ) : Option ν :=
  (cache.get k).bind fun entry => if young now entry.1 then some entry.2 else none

/-- A lookup is made for the access. -/
def LooksUp (cache : Dict κ (τ × ν)) (a : Access κ ν τ) : Prop :=
  cached young cache a.key a.now = none

/-- What the access returns; `none` if its lookup failed. -/
def result (cache : Dict κ (τ × ν)) (a : Access κ ν τ) : Option ν :=
  (cached young cache a.key a.now).or a.found

def access (cache : Dict κ (τ × ν)) (a : Access κ ν τ) : Dict κ (τ × ν) :=
  match cached young cache a.key a.now, a.found with
  | none, some v => cache.set a.key (a.now, v)
  | _, _ => cache

def after (accesses : List (Access κ ν τ)) : Dict κ (τ × ν) :=
  accesses.foldl (access young) []

variable {young} {cache : Dict κ (τ × ν)} {a : Access κ ν τ}

theorem access_of_cached (h : ¬LooksUp young cache a) : access young cache a = cache := by
  unfold access
  cases hc : cached young cache a.key a.now with
  | none => exact absurd hc h
  | some v => rfl

theorem access_of_failed (h : a.found = none) : access young cache a = cache := by
  unfold access
  rw [h]
  cases cached young cache a.key a.now <;> rfl

theorem access_of_found (h : LooksUp young cache a) {v : ν} (hv : a.found = some v) :
    access young cache a = cache.set a.key (a.now, v) := by
  unfold access
  rw [show cached young cache a.key a.now = none from h, hv]

theorem result_of_looksUp (h : LooksUp young cache a) : result young cache a = a.found := by
  rw [result, show cached young cache a.key a.now = none from h, Option.none_or]

theorem get_access_of_ne {k : κ} (h : a.key ≠ k) : (access young cache a).get k = cache.get k := by
  unfold access
  split
  · exact Dict.get_set_of_ne (Ne.symm h) _
  · rfl

theorem get_access_congr {cache' : Dict κ (τ × ν)} {k : κ} (h : cache.get k = cache'.get k) :
    (access young cache a).get k = (access young cache' a).get k := by
  by_cases hk : a.key = k
  · subst hk
    have hcached : cached young cache a.key a.now = cached young cache' a.key a.now := by
      rw [cached, cached, h]
    unfold access
    rw [hcached]
    split
    · rw [Dict.get_set_self, Dict.get_set_self]
    · exact h
  · rw [get_access_of_ne hk, get_access_of_ne hk, h]

theorem result_congr {cache' : Dict κ (τ × ν)} (h : cache.get a.key = cache'.get a.key) :
    result young cache a = result young cache' a := by
  rw [result, result, cached, cached, h]

variable (young) in
theorem after_append_singleton (accesses : List (Access κ ν τ)) (a : Access κ ν τ) :
    after young (accesses ++ [a]) = access young (after young accesses) a := by
  rw [after, after, List.foldl_concat]

theorem exists_of_get {accesses : List (Access κ ν τ)} {k : κ} {now : τ} {v : ν}
    (h : (after young accesses).get k = some (now, v)) :
    ∃ earlier b later, accesses = earlier ++ b :: later ∧ LooksUp young (after young earlier) b ∧
      b = ⟨k, now, some v⟩ := by
  induction accesses using List.reverseRecOn with
  | nil => cases h
  | append_singleton accesses a ih =>
    rw [after_append_singleton] at h
    have extend (h : (after young accesses).get k = some (now, v)) :
        ∃ earlier b later, accesses ++ [a] = earlier ++ b :: later ∧
          LooksUp young (after young earlier) b ∧ b = ⟨k, now, some v⟩ := by
      obtain ⟨earlier, b, later, rfl, hb⟩ := ih h
      exact ⟨earlier, b, later ++ [a], by simp, hb⟩
    by_cases hk : a.key = k
    · by_cases hlooks : LooksUp young (after young accesses) a
      · cases hfound : a.found with
        | none =>
          rw [access_of_failed hfound] at h
          exact extend h
        | some w =>
          rw [access_of_found hlooks hfound, hk, Dict.get_set_self] at h
          obtain ⟨hnow, hv⟩ := Prod.mk.inj (Option.some.inj h)
          rw [hv] at hfound
          refine ⟨accesses, a, [], rfl, hlooks, ?_⟩
          rw [← hk, ← hnow, ← hfound]
      · rw [access_of_cached hlooks] at h
        exact extend h
    · rw [get_access_of_ne hk] at h
      exact extend h

/-- What an access returns was found by its own lookup, or by one for the same key that is young. -/
theorem exists_of_result {accesses : List (Access κ ν τ)} {v : ν}
    (h : result young (after young accesses) a = some v) :
    (LooksUp young (after young accesses) a ∧ a.found = some v) ∨
      ∃ earlier b later, accesses = earlier ++ b :: later ∧ LooksUp young (after young earlier) b ∧
        b.key = a.key ∧ b.found = some v ∧ young a.now b.now := by
  by_cases hlooks : LooksUp young (after young accesses) a
  · left
    rw [result_of_looksUp hlooks] at h
    exact ⟨hlooks, h⟩
  · right
    obtain ⟨w, hw⟩ := Option.ne_none_iff_exists'.mp hlooks
    rw [result, hw, Option.some_or] at h
    obtain rfl := Option.some.inj h
    obtain ⟨⟨time, value⟩, hget, hyoung⟩ := Option.bind_eq_some_iff.mp hw
    dsimp only at hyoung
    split_ifs at hyoung with hy
    obtain rfl := Option.some.inj hyoung
    obtain ⟨earlier, b, later, hsplit, hb, rfl⟩ := exists_of_get hget
    exact ⟨earlier, _, later, hsplit, hb, rfl, rfl, hy⟩

variable (young) in
theorem get_after_filter (accesses : List (Access κ ν τ)) (k : κ) :
    (after young accesses).get k = (after young (accesses.filter fun a => a.key = k)).get k := by
  induction accesses using List.reverseRecOn with
  | nil => rfl
  | append_singleton accesses a ih =>
    rw [after_append_singleton, List.filter_append]
    by_cases hk : a.key = k
    · rw [List.filter_cons_of_pos (by simpa using hk), List.filter_nil, after_append_singleton]
      exact get_access_congr ih
    · rw [List.filter_cons_of_neg (by simpa using hk), List.filter_nil, List.append_nil,
        get_access_of_ne hk, ih]

end Ledger.TtlCache

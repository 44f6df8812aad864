import Mathlib.Algebra.BigOperators.Group.Finset.Basic
import Mathlib.Data.Fintype.Basic
import Mathlib.Tactic

/-! Threads that wait on a condition variable for units of something to take, and the wake-ups
under way for them. -/
namespace Ledger.WaitSet
variable {ι T : Type*} [Fintype ι]

section Tally
variable (p : T → Prop) [DecidablePred p]

/-- How many threads stand in one kind of place. -/
def tally (threads : ι → T) : ℕ :=
  ∑ i, if p (threads i) then 1 else 0

variable {p}

theorem tally_pos_iff {threads : ι → T} : 0 < tally p threads ↔ ∃ i, p (threads i) := by
  simp [tally, Finset.card_pos, Finset.filter_nonempty_iff]

theorem tally_update [DecidableEq ι] (threads : ι → T) (i : ι) (t : T) :
    tally p (Function.update threads i t) + (if p (threads i) then 1 else 0) =
      tally p threads + if p t then 1 else 0 := by
  have hrest : ∑ j ∈ Finset.univ.erase i, (if p (Function.update threads i t j) then 1 else 0) =
      ∑ j ∈ Finset.univ.erase i, if p (threads j) then 1 else 0 := by
    apply Finset.sum_congr rfl
    intro j hj
    rw [Function.update_of_ne (Finset.ne_of_mem_erase hj)]
  unfold tally
  rw [← Finset.add_sum_erase Finset.univ _ (Finset.mem_univ i), hrest, Function.update_self,
    ← Finset.add_sum_erase Finset.univ (fun j => if p (threads j) then 1 else 0)
      (Finset.mem_univ i)]
  omega

theorem tally_update_of_iff [DecidableEq ι] {threads : ι → T} {i : ι} {t : T}
    (h : p (threads i) ↔ p t) : tally p (Function.update threads i t) = tally p threads := by
  have htally := tally_update (p := p) threads i t
  rw [if_congr h rfl rfl] at htally
  omega

theorem tally_update_enter [DecidableEq ι] {threads : ι → T} {i : ι} {t : T}
    (h : ¬p (threads i)) (ht : p t) :
    tally p (Function.update threads i t) = tally p threads + 1 := by
  have htally := tally_update (p := p) threads i t
  rwa [if_neg h, if_pos ht] at htally

theorem tally_update_leave [DecidableEq ι] {threads : ι → T} {i : ι} {t : T}
    (h : p (threads i)) (ht : ¬p t) :
    tally p (Function.update threads i t) + 1 = tally p threads := by
  have htally := tally_update (p := p) threads i t
  rwa [if_pos h, if_neg ht] at htally

omit [Fintype ι] in
theorem exists_of_update [DecidableEq ι] {p : T → Prop} {threads : ι → T} {i : ι} {t : T}
    (ht : ¬p t) (h : ∃ j, p (Function.update threads i t j)) : ∃ j, p (threads j) := by
  obtain ⟨j, hj⟩ := h
  have hji : j ≠ i := by
    rintro rfl
    rw [Function.update_self] at hj
    exact ht hj
  rw [Function.update_of_ne hji] at hj
  exact ⟨j, hj⟩

end Tally

variable (parked notified : T → Prop) [DecidablePred notified]

/-- While a thread is parked there is a wake-up under way for every unit: a thread that was
notified and does not run yet, or a notification still owed. -/
def Covered (threads : ι → T) (units owed : ℕ) : Prop :=
  (∃ i, parked (threads i)) → units ≤ tally notified threads + owed

variable {parked notified} {threads : ι → T} {units owed : ℕ}

theorem Covered.of_none (h : ∀ i, ¬parked (threads i)) :
    Covered parked notified threads units owed :=
  fun ⟨i, hi⟩ => absurd hi (h i)

theorem covered_zero : Covered parked notified threads 0 owed :=
  fun _ => Nat.zero_le _

theorem Covered.release (h : Covered parked notified threads units owed) :
    Covered parked notified threads (units + 1) (owed + 1) :=
  fun hp => by
    have := h hp
    omega

/-- A thread moves, but does not park: it may take a unit, and a notification may reach it. -/
theorem Covered.update [DecidableEq ι] (h : Covered parked notified threads units owed)
    {i : ι} {t : T} (ht : ¬parked t) {units' owed' : ℕ}
    (hle : units' + (if notified (threads i) then 1 else 0) + owed ≤
      units + (if notified t then 1 else 0) + owed') :
    Covered parked notified (Function.update threads i t) units' owed' := by
  intro hparked
  have hcovered := h (exists_of_update ht hparked)
  have htally := tally_update (p := notified) threads i t
  omega

theorem Covered.move [DecidableEq ι] (h : Covered parked notified threads units owed)
    {i : ι} {t : T} (hi : ¬notified (threads i)) (ht : ¬parked t) :
    Covered parked notified (Function.update threads i t) units owed := by
  apply h.update ht
  rw [if_neg hi]
  omega

/-- A thread takes a unit; whatever wake-up it used up, it is no more than one. -/
theorem Covered.take [DecidableEq ι] (h : Covered parked notified threads units owed)
    {i : ι} {t : T} (ht : ¬parked t) {units' : ℕ} (hunits : units' + 1 = units) :
    Covered parked notified (Function.update threads i t) units' owed := by
  apply h.update ht
  split_ifs <;> omega

theorem Covered.deliver [DecidableEq ι] (h : Covered parked notified threads units owed)
    {i : ι} {t : T} (hi : ¬notified (threads i)) (ht : ¬parked t) (hnotified : notified t)
    {owed' : ℕ} (howed : owed' + 1 = owed) :
    Covered parked notified (Function.update threads i t) units owed' := by
  apply h.update ht
  rw [if_neg hi, if_pos hnotified]
  omega

/-- A parked thread that could take a unit has a wake-up under way. -/
theorem Covered.pending (h : Covered parked notified threads units owed) (hpos : 0 < units)
    (hparked : ∃ i, parked (threads i)) : (∃ i, notified (threads i)) ∨ 0 < owed := by
  have hcovered := h hparked
  rw [← tally_pos_iff (p := notified)]
  omega

end Ledger.WaitSet

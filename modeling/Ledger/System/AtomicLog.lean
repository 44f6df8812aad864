import Ledger.System.Simulation
import Mathlib.Logic.Function.Basic

/-! A log whose appends and reads take effect one at a time, and what its clients can rely on. -/
namespace Ledger
variable {ρ α ε : Type*}

/-- A call, its answer, and what is read. -/
inductive Observation (ρ α ε : Type*)
  | call (id : ℕ) (request : ρ)
  | answer (id : ℕ) (reply : Except ε α)
  | look (items : List α)

namespace AtomicLog

/-- How far the append of a client is. -/
inductive Client (ρ α ε : Type*)
  | idle
  | invoked (request : ρ)
  | decided (reply : Except ε α)
  | returned

/-- The items appended, each with the client that it is from. -/
structure State (ρ α ε : Type*) where
  committed : List (ℕ × α)
  clients : ℕ → Client ρ α ε

/-- What a reader gets behind the first items. -/
def State.read (items : List α) (s : State ρ α ε) : List α :=
  items ++ s.committed.map Prod.snd

theorem State.length_read (items : List α) (s : State ρ α ε) :
    (s.read items).length = items.length + s.committed.length := by
  rw [read, List.length_append, List.length_map]

def State.ids (s : State ρ α ε) : List ℕ :=
  s.committed.map Prod.fst

variable (made : List α → ρ → α → Prop) (items : List α)

/-- An append takes effect at one moment between its call and its answer. `made` is what a request
may become at the end of a log. -/
inductive Step : State ρ α ε → Option (Observation ρ α ε) → State ρ α ε → Prop
  | call (s : State ρ α ε) (id : ℕ) (r : ρ) (h : s.clients id = .idle) :
    Step s (some (.call id r)) { s with clients := Function.update s.clients id (.invoked r) }
  | commit (s : State ρ α ε) (id : ℕ) (r : ρ) (a : α) (h : s.clients id = .invoked r)
      (ha : made (s.read items) r a) :
    Step s none ⟨s.committed ++ [(id, a)], Function.update s.clients id (.decided (.ok a))⟩
  | fail (s : State ρ α ε) (id : ℕ) (r : ρ) (e : ε) (h : s.clients id = .invoked r) :
    Step s none { s with clients := Function.update s.clients id (.decided (.error e)) }
  | answer (s : State ρ α ε) (id : ℕ) (x : Except ε α) (h : s.clients id = .decided x) :
    Step s (some (.answer id x)) { s with clients := Function.update s.clients id .returned }
  | look (s : State ρ α ε) : Step s (some (.look (s.read items))) s

end AtomicLog

open AtomicLog

/-- The log behind its first items. -/
def atomicLog (made : List α → ρ → α → Prop) (items : List α) :
    LTS (AtomicLog.State ρ α ε) (Observation ρ α ε) where
  init s := s = ⟨[], fun _ => .idle⟩
  step := Step made items

/-- What the clients of one log can rely on, from what they see alone. -/
structure Guarantees (made : List α → ρ → α → Prop) (items : List α) (place : α → ℕ)
    (trace : List (Observation ρ α ε)) : Prop where
  /-- A read goes on where the reads before it ended. -/
  monotone : ∀ xs ys read read', trace = xs ++ .look read :: ys → .look read' ∈ ys → read <+: read'
  /-- A read behind an answer has the item answered in its place. -/
  durable : ∀ xs ys id a read, trace = xs ++ .answer id (.ok a) :: ys → .look read ∈ ys →
    read[place a]? = some a
  /-- A call behind an answer is placed behind it. -/
  ordered : ∀ xs ys zs id a id' r b,
    trace = xs ++ .answer id (.ok a) :: (ys ++ .call id' r :: zs) → .answer id' (.ok b) ∈ zs →
      place a < place b
  /-- Each item read is from a call of its own, every append answered is among them, and none that
  is ever answered with an error. -/
  accounted : ∀ xs ys read, trace = xs ++ .look read :: ys → ∃ committed : List (ℕ × α),
    read = items ++ committed.map Prod.snd ∧ (committed.map Prod.fst).Nodup ∧
    (∀ p ∈ committed, ∃ r, .call p.1 r ∈ xs ∧ ∃ before, made before r p.2) ∧
    (∀ id a, .answer id (.ok a) ∈ xs → (id, a) ∈ committed) ∧
    ∀ id e, .answer id (.error e) ∈ trace → id ∉ committed.map Prod.fst

namespace AtomicLog

/-- What has been seen agrees with what the clients and the log have become. -/
structure Accounted (made : List α → ρ → α → Prop) (trace : List (Observation ρ α ε))
    (s : State ρ α ε) : Prop where
  nodup : s.ids.Nodup
  called : ∀ p ∈ s.committed, ∃ r, .call p.1 r ∈ trace ∧ ∃ before, made before r p.2
  idle : ∀ id, s.clients id = .idle → id ∉ s.ids
  invoked : ∀ id r, s.clients id = .invoked r → .call id r ∈ trace ∧ id ∉ s.ids
  decided : ∀ id a, s.clients id = .decided (.ok a) → (id, a) ∈ s.committed
  failed : ∀ id e, s.clients id = .decided (.error e) → id ∉ s.ids
  answered : ∀ id a, .answer id (.ok a) ∈ trace → (id, a) ∈ s.committed
  rejected : ∀ id e, .answer id (.error e) ∈ trace → s.clients id = .returned ∧ id ∉ s.ids

variable {made : List α → ρ → α → Prop} {items : List α} {s t : State ρ α ε}
  {trace : List (Observation ρ α ε)}

theorem Step.run {o : Option (Observation ρ α ε)} (h : Step made items s o t) :
    (atomicLog made items).Run s o.toList t :=
  .of_step h

theorem accounted_boot : Accounted made [] (⟨[], fun _ => .idle⟩ : State ρ α ε) where
  nodup := List.nodup_nil
  called p hp := by cases hp
  idle _ _ := List.not_mem_nil
  invoked id r h := by cases h
  decided id a h := by cases h
  failed id e h := by cases h
  answered id a h := by cases h
  rejected id e h := by cases h

private theorem of_update {clients : ℕ → Client ρ α ε} {id id' : ℕ} {c c' : Client ρ α ε}
    (h : Function.update clients id c id' = c') (hne : c ≠ c') :
    id' ≠ id ∧ clients id' = c' := by
  by_cases heq : id' = id
  · rw [heq, Function.update_self] at h
    exact absurd h hne
  · rw [Function.update_of_ne heq] at h
    exact ⟨heq, h⟩

theorem Accounted.step (hs : Accounted made trace s) {o : Option (Observation ρ α ε)}
    (h : Step made items s o t) : Accounted made (trace ++ o.toList) t := by
  obtain ⟨nodup, called, idle, invoked, decided, failed, answered, rejected⟩ := hs
  cases h with
  | call id r h =>
    refine ⟨nodup, fun p hp => ?_, fun i hi => ?_, fun i r' hi => ?_, fun i a hi => ?_,
      fun i e hi => ?_, fun i a hi => ?_, fun i e hi => ?_⟩
    · obtain ⟨r', hr, hmade⟩ := called p hp
      exact ⟨r', List.mem_append_left _ hr, hmade⟩
    · exact idle i (of_update hi (by simp)).2
    · by_cases heq : i = id
      · subst heq
        rw [show r' = r by simpa [eq_comm] using hi]
        exact ⟨by simp, idle i h⟩
      · obtain ⟨hcall, hids⟩ := invoked i r' ((Function.update_of_ne heq ..).symm.trans hi)
        exact ⟨List.mem_append_left _ hcall, hids⟩
    · exact decided i a (of_update hi (by simp)).2
    · exact failed i e (of_update hi (by simp)).2
    · exact answered i a (by simpa using hi)
    · obtain ⟨hret, hids⟩ := rejected i e (by simpa using hi)
      have hne : i ≠ id := by
        rintro rfl
        cases hret.symm.trans h
      exact ⟨(Function.update_of_ne hne ..).trans hret, hids⟩
  | commit id r a h ha =>
    obtain ⟨hcall, hfresh⟩ := invoked id r h
    have hids : ∀ i, i ∉ s.ids → i ≠ id → i ∉ (s.committed ++ [(id, a)]).map Prod.fst := by
      intro i hi hne
      rw [List.map_append, List.mem_append]
      rintro (hmem | hmem)
      · exact hi hmem
      · exact hne (List.mem_singleton.mp hmem)
    rw [Option.toList_none, List.append_nil]
    refine ⟨?_, fun p hp => ?_, fun i hi => ?_, fun i r' hi => ?_, fun i b hi => ?_,
      fun i e hi => ?_, fun i b hi => List.mem_append_left _ (answered i b hi), fun i e hi => ?_⟩
    · rw [State.ids, List.map_append]
      refine List.nodup_append.mpr ⟨nodup, by simp, fun i hi j hj hij => ?_⟩
      rw [hij, List.mem_singleton.mp hj] at hi
      exact hfresh hi
    · rcases List.mem_append.mp hp with hp | hp
      · exact called p hp
      · rw [List.mem_singleton.mp hp]
        exact ⟨r, hcall, _, ha⟩
    · obtain ⟨hne, hi⟩ := of_update hi (by simp)
      exact hids i (idle i hi) hne
    · obtain ⟨hne, hi⟩ := of_update hi (by simp)
      exact ⟨(invoked i r' hi).1, hids i (invoked i r' hi).2 hne⟩
    · by_cases heq : i = id
      · subst heq
        rw [show b = a by simpa [eq_comm] using hi]
        exact List.mem_append_right _ (List.mem_singleton_self _)
      · exact List.mem_append_left _ (decided i b ((Function.update_of_ne heq ..).symm.trans hi))
    · obtain ⟨hne, hi⟩ := of_update hi (by simp)
      exact hids i (failed i e hi) hne
    · obtain ⟨hret, hi⟩ := rejected i e hi
      have hne : i ≠ id := by
        rintro rfl
        cases hret.symm.trans h
      exact ⟨(Function.update_of_ne hne ..).trans hret, hids i hi hne⟩
  | fail id r e h =>
    obtain ⟨-, hfresh⟩ := invoked id r h
    rw [Option.toList_none, List.append_nil]
    refine ⟨nodup, called, fun i hi => idle i (of_update hi (by simp)).2,
      fun i r' hi => invoked i r' (of_update hi (by simp)).2,
      fun i a hi => decided i a (of_update hi (by simp)).2, fun i e' hi => ?_, answered,
      fun i e' hi => ?_⟩
    · by_cases heq : i = id
      · rwa [heq]
      · exact failed i e' ((Function.update_of_ne heq ..).symm.trans hi)
    · obtain ⟨hret, hi⟩ := rejected i e' hi
      have hne : i ≠ id := by
        rintro rfl
        cases hret.symm.trans h
      exact ⟨(Function.update_of_ne hne ..).trans hret, hi⟩
  | answer id x h =>
    refine ⟨nodup, fun p hp => ?_, fun i hi => idle i (of_update hi (by simp)).2,
      fun i r hi => ?_, fun i a hi => decided i a (of_update hi (by simp)).2,
      fun i e hi => failed i e (of_update hi (by simp)).2, fun i a hi => ?_, fun i e hi => ?_⟩
    · obtain ⟨r, hr, hmade⟩ := called p hp
      exact ⟨r, List.mem_append_left _ hr, hmade⟩
    · obtain ⟨hcall, hids⟩ := invoked i r (of_update hi (by simp)).2
      exact ⟨List.mem_append_left _ hcall, hids⟩
    · rcases List.mem_append.mp hi with hi | hi
      · exact answered i a hi
      · cases List.mem_singleton.mp hi
        exact decided id a h
    · rcases List.mem_append.mp hi with hi | hi
      · obtain ⟨hret, hids⟩ := rejected i e hi
        refine ⟨?_, hids⟩
        by_cases heq : i = id
        · rw [heq]
          exact Function.update_self ..
        · exact (Function.update_of_ne heq ..).trans hret
      · cases List.mem_singleton.mp hi
        exact ⟨Function.update_self .., failed id e h⟩
  | look =>
    refine ⟨nodup, fun p hp => ?_, idle, fun i r hi => ?_, decided, failed,
      fun i a hi => answered i a (by simpa using hi), fun i e hi => rejected i e (by simpa using hi)⟩
    · obtain ⟨r, hr, hmade⟩ := called p hp
      exact ⟨r, List.mem_append_left _ hr, hmade⟩
    · obtain ⟨hcall, hids⟩ := invoked i r hi
      exact ⟨List.mem_append_left _ hcall, hids⟩

theorem Accounted.run {xs ys : List (Observation ρ α ε)} (hs : Accounted made xs s)
    (h : (atomicLog made items).Run s ys t) : Accounted made (xs ++ ys) t := by
  induction h with
  | nil => rwa [List.append_nil]
  | snoc _ hstep ih =>
    rw [← List.append_assoc]
    exact ih.step hstep

theorem committed_grows (h : (atomicLog made items).Run s trace t) :
    s.committed <+: t.committed := by
  induction h with
  | nil => exact List.prefix_rfl
  | snoc _ hstep ih =>
    cases hstep with
    | commit id r a => exact ih.trans (List.prefix_append _ _)
    | call | fail | answer | look => exact ih

theorem exists_read (h : (atomicLog made items).Run s trace t) {read : List α}
    (hread : .look read ∈ trace) :
    ∃ (u : State ρ α ε) (xs : List (Observation ρ α ε)), u.read items = read ∧
      (atomicLog made items).Run s xs u := by
  obtain ⟨xs, ys, rfl⟩ := List.append_of_mem hread
  obtain ⟨u, v, hu, hstep, -⟩ := h.split_cons
  cases hstep
  exact ⟨u, xs, rfl, hu⟩

/-- The items stand where `place` says. -/
def Placed (items : List α) (place : α → ℕ) (s : State ρ α ε) : Prop :=
  ∀ i p, s.committed[i]? = some p → place p.2 = items.length + i

theorem Placed.run {place : α → ℕ} (hmade : ∀ before r a, made before r a → place a = before.length)
    (hs : Placed items place s) (h : (atomicLog made items).Run s trace t) :
    Placed items place t := by
  induction h with
  | nil => exact hs
  | snoc _ hstep ih =>
    cases hstep with
    | call | fail | answer | look => exact ih
    | commit id r a h ha =>
      intro i p hp
      rw [List.getElem?_append] at hp
      split_ifs at hp with hlt
      · exact ih i p hp
      · obtain ⟨hi, rfl⟩ := List.getElem?_eq_some_iff.mp hp
        simp only [List.length_singleton] at hi
        simp only [List.getElem_singleton]
        rw [hmade _ r a ha, State.length_read]
        omega

theorem Placed.getElem? {place : α → ℕ} (hs : Placed items place s) {p : ℕ × α}
    (hp : p ∈ s.committed) : (s.read items)[place p.2]? = some p.2 := by
  obtain ⟨i, hi⟩ := List.mem_iff_getElem?.mp hp
  rw [hs i p hi, State.read, List.getElem?_append_right (Nat.le_add_right _ _),
    Nat.add_sub_cancel_left, List.getElem?_map, hi]
  rfl

theorem Placed.lt_of_grown {place : α → ℕ} (hs : Placed items place s)
    {before rest : List (ℕ × α)} (h : before ++ rest = s.committed) {p q : ℕ × α}
    (hp : p ∈ before) (hq : q ∈ s.committed) (hfresh : q.1 ∉ before.map Prod.fst) :
    place p.2 < place q.2 := by
  obtain ⟨i, hi⟩ := List.mem_iff_getElem?.mp hp
  obtain ⟨j, hj⟩ := List.mem_iff_getElem?.mp hq
  have hilt := (List.getElem?_eq_some_iff.mp hi).1
  have hle : before.length ≤ j := by
    by_contra hlt
    rw [← h, List.getElem?_append_left (Nat.lt_of_not_le hlt)] at hj
    exact hfresh (List.mem_map_of_mem (List.mem_of_getElem? hj))
  rw [hs i p (by rw [← h, List.getElem?_append_left hilt, hi]), hs j q hj]
  omega

end AtomicLog

section Guarantees
variable {made : List α → ρ → α → Prop} {items : List α} {place : α → ℕ}
  {trace : List (Observation ρ α ε)}

/-- Every client of an atomic log can rely on it. -/
theorem guarantees_of_trace (hmade : ∀ before r a, made before r a → place a = before.length)
    (h : (atomicLog made items).Trace trace) : Guarantees made items place trace := by
  obtain ⟨s, t, rfl, hrun⟩ := h
  have hplaced : Placed items place (⟨[], fun _ => .idle⟩ : AtomicLog.State ρ α ε) :=
    fun i p hp => by cases hp
  have hend := accounted_boot.run hrun
  constructor
  · rintro xs ys read read' rfl hread'
    obtain ⟨u, v, -, hstep, hys⟩ := hrun.split_cons
    cases hstep
    obtain ⟨w, zs, rfl, hw⟩ := exists_read hys hread'
    exact (List.prefix_append_right_inj items).mpr ((committed_grows hw).map _)
  · rintro xs ys id a read rfl hread
    obtain ⟨u, v, hu, hstep, hys⟩ := hrun.split_cons
    have hanswered := ((accounted_boot.run hu).step hstep).answered id a (by simp)
    obtain ⟨w, zs, rfl, hw⟩ := exists_read hys hread
    have hmem : (id, a) ∈ w.committed := (committed_grows hw).subset hanswered
    exact ((hplaced.run hmade (hu.snoc hstep)).run hmade hw).getElem? hmem
  · rintro xs ys zs id a id' r b rfl hb
    obtain ⟨u, v, hu, hstep, hrest⟩ := hrun.split_cons
    have hanswered := ((accounted_boot.run hu).step hstep).answered id a (by simp)
    obtain ⟨w, w', hw, hcall, hzs⟩ := hrest.split_cons
    have hidle : id' ∉ w.ids := by
      cases hcall with
      | call _ _ h => exact (accounted_boot.run ((hu.snoc hstep).trans hw)).idle id' h
    obtain ⟨rest, hrest'⟩ := committed_grows ((LTS.Run.of_step hcall).trans hzs)
    exact (hplaced.run hmade hrun).lt_of_grown hrest'
      ((committed_grows hw).subset hanswered) (hend.answered id' b (by simp [hb])) hidle
  · rintro xs ys read rfl
    obtain ⟨u, v, hu, hstep, hys⟩ := hrun.split_cons
    have hacc := accounted_boot.run hu
    cases hstep
    refine ⟨u.committed, rfl, hacc.nodup, hacc.called, hacc.answered, fun id e he hmem => ?_⟩
    exact (hend.rejected id e he).2 (((committed_grows hys).map Prod.fst).subset hmem)

end Guarantees

end Ledger

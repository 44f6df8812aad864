import Ledger.Core.Writer

/-! Replies: each accepted request gets exactly one, and the writer always gets to it. -/
namespace Ledger
open Text Json
variable {F : Type} [NumberFloat F] {sha256 : Bytes → Digest} {capacity : ℕ} {Log : Type}
  {append : Log → Block F → Except WriteError Unit → Log → Prop}

def Writer.rank : Writer F → ℕ
  | .stopped => 0
  | .popping => 1
  | .replying .. => 2
  | .publishing .. => 3
  | .pushing .. => 4
  | .appending .. => 5
  | .building _ => 6

def State.work (s : State F Log) : ℕ :=
  7 * s.queue.length + s.writer.rank

theorem Step.work_le {s t : State F Log} (h : Step sha256 capacity append s t)
    (hacc : t.accepted = s.accepted) : t.work ≤ s.work := by
  cases h with
  | arrive | refuse | close | receive | read => exact le_rfl
  | accept id r h hc hq => simp at hacc
  | pop r rest h hq => simp [State.work, h, hq, Writer.rank]; omega
  | drained h => simp [State.work, h, Writer.rank]
  | build r now h => simp [State.work, h, Writer.rank]
  | persist id b log h => simp [State.work, h, Writer.rank]
  | persistFailed id b e log h => simp [State.work, h, Writer.rank]
  | push id b h => simp [State.work, h, Writer.rank]
  | publish id b h => simp [State.work, h, Writer.rank]
  | reply id x h => simp [State.work, h, Writer.rank]
  | satisfied id x h => simp [State.work, h, Writer.rank]

/-- The writer is never blocked, except at an empty queue that is open. -/
theorem writer_progress {s : State F Log} (happ : ∀ log b, ∃ result log', append log b result log')
    (hmem : s.chain.size + 1 < 2 ^ 64) (hs : s.writer ≠ .stopped)
    (hpop : s.writer = .popping → s.queue ≠ [] ∨ s.closed = true) :
    ∃ t, Step sha256 capacity append s t ∧ t.accepted = s.accepted ∧ t.closed = s.closed ∧
      t.work < s.work ∧ t.chain.size ≤ s.chain.size + 1 := by
  cases h : s.writer with
  | stopped => exact absurd h hs
  | popping =>
    cases hq : s.queue with
    | nil =>
      have hc : s.closed = true := (hpop h).resolve_left fun hne => hne hq
      exact ⟨_, .drained s h hq hc, rfl, rfl, by simp [State.work, h, Writer.rank], by simp⟩
    | cons r rest =>
      refine ⟨_, .pop s r rest h hq, rfl, rfl, ?_, by simp⟩
      simp only [State.work, h, hq, Writer.rank, List.length_cons]
      omega
  | building r =>
    exact ⟨_, .build s r ⟨0, 0, 0, 0, 0, 0⟩ h, rfl, rfl, by simp [State.work, h, Writer.rank],
      by simp⟩
  | appending id b =>
    obtain ⟨e | ⟨⟨⟩⟩, log', ha⟩ := happ s.log b
    · exact ⟨_, .persistFailed s id b e log' h ha, rfl, rfl, by simp [State.work, h, Writer.rank],
        by simp⟩
    · exact ⟨_, .persist s id b log' h ha, rfl, rfl, by simp [State.work, h, Writer.rank], by simp⟩
  | pushing id b =>
    exact ⟨_, .push s id b h hmem, rfl, rfl, by simp [State.work, h, Writer.rank], by simp⟩
  | publishing id b =>
    exact ⟨_, .publish s id b h, rfl, rfl, by simp [State.work, h, Writer.rank], by simp⟩
  | replying id x =>
    by_cases hp : s.promises id = none
    · exact ⟨_, .reply s id x h hp, rfl, rfl, by simp [State.work, h, Writer.rank], by simp⟩
    · exact ⟨_, .satisfied s id x h hp, rfl, rfl, by simp [State.work, h, Writer.rank], by simp⟩

/-- Once the queue is closed the writer can run to its end. -/
theorem exists_drained {s : State F Log} (happ : ∀ log b, ∃ result log', append log b result log')
    (hc : s.closed = true) (hmem : s.chain.size + s.work < 2 ^ 64) :
    ∃ t, Relation.ReflTransGen (Step sha256 capacity append) s t ∧ t.writer = .stopped ∧
      t.accepted = s.accepted := by
  induction hw : s.work using Nat.strong_induction_on generalizing s with
  | _ n ih =>
    by_cases hs : s.writer = .stopped
    · exact ⟨s, .refl, hs, rfl⟩
    · have hpos : 0 < s.work := by
        cases h : s.writer <;> simp [State.work, h, Writer.rank] at hs ⊢
      obtain ⟨t, hstep, hacc, hclosed, hlt, hsize⟩ : ∃ t, Step sha256 capacity append s t ∧ _ :=
        writer_progress happ (by omega) hs fun _ => Or.inr hc
      obtain ⟨u, hrun, hu, hacc'⟩ := ih t.work (by omega) (hclosed.trans hc) (by omega) rfl
      exact ⟨u, .head hstep hrun, hu, hacc'.trans hacc⟩

/-- The writer waits, and from handler `id` on nothing is under way. -/
structure Ready (s : State F Log) (id : ℕ) : Prop where
  opened : s.closed = false
  queue : s.queue = []
  writer : s.writer = .popping
  handlers : ∀ i, id ≤ i → s.handlers i = .idle
  promises : ∀ i, id ≤ i → s.promises i = none

theorem ready_boot (log : Log) (chain : Chain F) (id : ℕ) : Ready (State.boot log chain) id where
  opened := rfl
  queue := rfl
  writer := rfl
  handlers _ _ := rfl
  promises _ _ := rfl

/-- A request that comes to a waiting writer is answered as its write goes, and leaves it waiting. -/
theorem Ready.answer {s : State F Log} {id : ℕ} (hs : Ready s id) (event : EventPayload F)
    (now : Tm) {result : Except WriteError Unit} {log' : Log} (hcap : 0 < capacity)
    (hmem : s.chain.size + 1 < 2 ^ 64)
    (happ : append s.log (buildNext sha256 now s.chain event) result log') :
    ∃ t, Relation.ReflTransGen (Step sha256 capacity append) s t ∧ Ready t (id + 1) ∧
      t.log = log' ∧ t.created = s.created ++ [(id, buildNext sha256 now s.chain event)] ∧
      t.replies = s.replies ++ [(id, result.map fun _ => buildNext sha256 now s.chain event)] ∧
      t.chain = (result.toOption.elim s.chain fun _ =>
        s.chain.pushPersisted (buildNext sha256 now s.chain event)) ∧
      t.published = s.published ++ (result.toOption.elim [] fun _ =>
        [buildNext sha256 now s.chain event]) := by
  have hne : ∀ i, id + 1 ≤ i → i ≠ id := fun i hi => by omega
  have hnone : s.promises id = none := hs.promises id le_rfl
  have hidle {handler : Handler F} {i : ℕ} (hi : id + 1 ≤ i) : Function.update
      (Function.update s.handlers id handler) id .waiting i = .idle :=
    (Function.update_of_ne (hne i hi) ..).trans ((Function.update_of_ne (hne i hi) ..).trans
      (hs.handlers i (by omega)))
  have hfresh {x : Option (Reply F)} {i : ℕ} (hi : id + 1 ≤ i) :
      Function.update s.promises id x i = none :=
    (Function.update_of_ne (hne i hi) ..).trans (hs.promises i (by omega))
  have hbuilt : ∃ t, Relation.ReflTransGen (Step sha256 capacity append) s t ∧ t.log = s.log ∧
      t.created = s.created ++ [(id, buildNext sha256 now s.chain event)] ∧
      t.replies = s.replies ∧ t.promises = s.promises ∧ t.chain = s.chain ∧
      t.published = s.published ∧ t.closed = false ∧ t.queue = [] ∧
      (∀ i, id + 1 ≤ i → t.handlers i = .idle) ∧
      t.writer = .appending id (buildNext sha256 now s.chain event) :=
    ⟨_, .head (.arrive s id event (hs.handlers id le_rfl)) (.head (.accept _ id ⟨event, id⟩
      (Function.update_self ..) hs.opened (by simpa [hs.queue] using hcap))
      (.head (.pop _ ⟨event, id⟩ [] hs.writer (by simp [hs.queue])) (.single (.build _ _ now rfl)))),
      rfl, rfl, rfl, rfl, rfl, rfl, hs.opened, rfl, fun i hi => hidle hi, rfl⟩
  obtain ⟨t, hrun, hlog, hcreated, hreplies, hpromises, hchain, hpublished, hopen, hqueue, hrest,
    hwriter⟩ := hbuilt
  rw [← hlog] at happ
  rw [← hpromises] at hnone hfresh
  rw [← hcreated, ← hreplies, ← hpublished]
  rcases result with e | ⟨⟨⟩⟩
  · exact ⟨_, hrun.trans (.head (.persistFailed t id _ e log' hwriter happ)
      (.single (.reply _ id _ rfl hnone))), ⟨hopen, hqueue, rfl, hrest, fun i hi => hfresh hi⟩,
      rfl, rfl, rfl, hchain, (List.append_nil _).symm⟩
  · exact ⟨_, hrun.trans (.head (.persist t id _ log' hwriter happ)
      (.head (.push _ id _ rfl (hchain ▸ hmem)) (.head (.publish _ id _ rfl)
        (.single (.reply _ id _ rfl hnone))))), ⟨hopen, hqueue, rfl, hrest, fun i hi => hfresh hi⟩,
      rfl, rfl, rfl, congrArg (Chain.pushPersisted · _) hchain, rfl⟩

/-- What a run owes the handlers: one reply for each accepted request, in the order of `push`,
and nothing taken from a handler that was refused. -/
structure ExactlyOnce (sha256 : Bytes → Digest) (capacity : ℕ)
    (append : Log → Block F → Except WriteError Unit → Log → Prop) (boot : Chain F)
    (s : State F Log) : Prop where
  requested_once : (s.requested.map WriteRequest.respondTo).Nodup
  accepted_once : (s.accepted.map WriteRequest.respondTo).Nodup ∧ s.accepted ⊆ s.requested
  accepted_of_pushed : ∀ id, s.handlers id = .waiting ∨ (∃ x, s.handlers id = .replied x) →
    ∃ r ∈ s.accepted, r.respondTo = id
  popped_once : s.accepted = s.popped ++ s.queue
  replied_once : s.popped.map WriteRequest.respondTo = s.replies.map Prod.fst ++ s.writer.inService
  fulfilled : ∀ id x, s.promises id = some x ↔ (id, x) ∈ s.replies
  unsatisfied : ∀ id x, s.writer = .replying id x → s.promises id = none
  received : ∀ id x, s.handlers id = .replied x → (id, x) ∈ s.replies
  own_event : ∀ id b, (id, .ok b) ∈ s.replies → ∃ r ∈ s.accepted, r.respondTo = id ∧
    b.event = r.event
  consecutive : ∀ i p, (successes s.replies)[i]? = some p → p.2.index.toNat = boot.size + i
  distinct : ((successes s.replies).map Prod.snd).Nodup
  drained : s.writer = .stopped → s.closed = true ∧
    s.replies.map Prod.fst = s.accepted.map WriteRequest.respondTo
  refused : ∀ id r, s.handlers id = .refused r → r.respondTo = id ∧ r ∈ s.requested ∧
    r ∉ s.accepted ∧ s.promises id = none
  progress : (∀ log b, ∃ result log', append log b result log') → s.chain.size + 1 < 2 ^ 64 →
    s.writer ≠ .stopped → (s.writer = .popping → s.queue ≠ [] ∨ s.closed = true) →
    ∃ t, Step sha256 capacity append s t ∧ t.accepted = s.accepted ∧ t.closed = s.closed ∧
      t.work < s.work ∧ t.chain.size ≤ s.chain.size + 1
  bounded : ∀ t, Step sha256 capacity append s t → t.accepted = s.accepted → t.work ≤ s.work

theorem Copies.mem_persisted {boot : Chain F} {s : State F Log} (h : Copies boot s)
    {p : ℕ × Block F} (hp : p ∈ s.persisted) :
    ∃ r ∈ s.popped, r.respondTo = p.1 ∧ p.2.event = r.event := by
  have hc : p ∈ s.created := h.persisted_sublist.subset (List.mem_append_left _ hp)
  refine ⟨⟨p.2.event, p.1⟩, ?_, rfl, rfl⟩
  rw [h.created]
  exact List.mem_append_left _ (List.mem_map_of_mem hc)

theorem Copies.successes_prefix {boot : Chain F} {s : State F Log} (h : Copies boot s) :
    successes s.replies <+: s.appended :=
  ⟨s.writer.unreplied ++ s.writer.unpublished, by rw [h.appended, List.append_assoc]⟩

private theorem nodup_of_indices {ps : List (ℕ × Block F)} {n : ℕ}
    (h : ∀ i p, ps[i]? = some p → p.2.index.toNat = n + i) : (ps.map Prod.snd).Nodup := by
  rw [List.nodup_iff_getElem?_ne_getElem?]
  intro i j hij hj heq
  simp only [List.length_map] at hj
  have hi := h i ps[i] (List.getElem?_eq_getElem (by omega))
  have hj' := h j ps[j] (List.getElem?_eq_getElem hj)
  simp only [List.getElem?_map, List.getElem?_eq_getElem hj,
    List.getElem?_eq_getElem (hij.trans hj), Option.map_some, Option.some.injEq] at heq
  rw [heq] at hi
  omega

/-- Each accepted request gets one reply, its own, in the order of acceptance. -/
theorem accepted_requests_answered_once {log : Log} {boot : Chain F} {s : State F Log}
    (h : Reachable sha256 capacity append log boot s) :
    ExactlyOnce sha256 capacity append boot s := by
  have hq := h.queueing
  have hv := h.serving
  have hc := h.copies
  have hindex : ∀ i p, (successes s.replies)[i]? = some p → p.2.index.toNat = boot.size + i := by
    intro i p hp
    obtain ⟨rest, hrest⟩ := hc.successes_prefix
    refine h.index (hrest ▸ ?_)
    rw [List.getElem?_append_left (List.getElem?_eq_some_iff.mp hp).1, hp]
  refine ⟨hq.requested_nodup, ⟨hq.accepted_nodup, hq.accepted_subset⟩, fun id hid => ?_, hq.fifo,
    hv.order, hv.promises, fun id x hw => ?_, fun id x hx => ?_, fun id b hb => ?_, hindex,
    nodup_of_indices hindex, fun hw => ?_, fun id r hr => ?_, writer_progress,
    fun t => Step.work_le⟩
  · have hok := hq.handlers id
    rw [← List.mem_map]
    rcases hid with hid | ⟨x, hid⟩ <;> simpa only [State.HandlerOk, hid] using hok
  · exact hv.unsatisfied hq (by simp [hw, Writer.inService])
  · exact (hv.promises id x).mp (hv.received id x hx)
  · have hmem : (id, b) ∈ s.persisted := by
      rw [hc.persisted]
      exact List.mem_append_left _ (hc.successes_prefix.subset (mem_successes.mpr hb))
    obtain ⟨r, hr, hid, he⟩ := hc.mem_persisted hmem
    exact ⟨r, hq.fifo ▸ List.mem_append_left _ hr, hid, he⟩
  · obtain ⟨hclosed, hempty⟩ := hq.stopped hw
    have horder := hv.order
    rw [hw, Writer.inService, List.append_nil] at horder
    exact ⟨hclosed, by rw [← horder, hq.fifo, hempty, List.append_nil]⟩
  · have hok := hq.handlers id
    simp only [State.HandlerOk, hr] at hok
    obtain ⟨rfl, hreq, hacc⟩ := hok
    refine ⟨rfl, hreq, fun hmem => hacc (List.mem_map_of_mem hmem), ?_⟩
    rw [Option.eq_none_iff_forall_ne_some]
    intro x hx
    have hrep : r.respondTo ∈ s.popped.map WriteRequest.respondTo := by
      rw [hv.order]
      exact List.mem_append_left _ (List.mem_map.mpr ⟨_, (hv.promises _ x).mp hx, rfl⟩)
    exact hacc (by rw [hq.fifo, List.map_append]; exact List.mem_append_left _ hrep)

def reliableDisk (_ : Unit) (_ : Block Numeral) (result : Except WriteError Unit) (_ : Unit) :
    Prop :=
  result = .ok ()

theorem accepted_requests_answered_once_sample :
    ∃ s : State Numeral Unit, s.writer = .stopped ∧ s.replies.map Prod.fst = [8, 7] ∧
      ExactlyOnce sampleSha256 2 reliableDisk (.fresh sampleSha256 sampleClock) s := by
  have happ : ∀ log b, ∃ result log', reliableDisk log b result log' := fun log _ => ⟨_, log, rfl⟩
  obtain ⟨s, hrun, hclosed, hmem, hs⟩ : ∃ s, Reachable sampleSha256 2 reliableDisk ()
      (.fresh sampleSha256 sampleClock) s ∧ s.closed = true ∧ s.chain.size + s.work < 2 ^ 64 ∧
      s.accepted = [⟨sampleEvent, 8⟩, ⟨sampleEvent, 7⟩] :=
    ⟨_, .tail (.tail (.tail (.tail (.single (.arrive _ 7 sampleEvent rfl))
      (.arrive _ 8 sampleEvent rfl)) (.accept _ 8 ⟨sampleEvent, 8⟩ rfl rfl (by decide)))
      (.accept _ 7 ⟨sampleEvent, 7⟩ rfl rfl (by decide))) (.close _), rfl, by decide, rfl⟩
  obtain ⟨t, hdrain, hstop, hacc⟩ := exists_drained happ hclosed hmem
  have honce := accepted_requests_answered_once (hrun.trans hdrain)
  exact ⟨t, hstop, by rw [(honce.drained hstop).2, hacc, hs]; rfl, honce⟩

end Ledger

import Ledger.Core.Storage
import Mathlib.Logic.Relation

/-! The write path: handlers push requests on a bounded queue, one writer takes them off. Each
step is one region under a mutex or one action of a thread between two of them. -/
namespace Ledger
open Text
variable {F : Type} [NumberFloat F]

/-- One pending append. `respondTo` names the promise, and with it the handler. -/
structure WriteRequest (F : Type) [NumberFloat F] where
  event : EventPayload F
  respondTo : ℕ

/-- What a promise is fulfilled with: `set_value` or `set_exception`. -/
abbrev Reply (F : Type) [NumberFloat F] := Except WriteError (Block F)

/-- Where a handler of `POST /events` stands. -/
inductive Handler (F : Type) [NumberFloat F]
  | idle
  /-- Inside `push`, still owning the request. -/
  | pushing (request : WriteRequest F)
  /-- `push` returned false. -/
  | refused (request : WriteRequest F)
  /-- `push` returned true; blocked in `result.get()`. -/
  | waiting
  | replied (reply : Reply F)

/-- Where `writer_loop` stands. -/
inductive Writer (F : Type) [NumberFloat F]
  | popping
  | building (request : WriteRequest F)
  | appending (respondTo : ℕ) (created : Block F)
  | pushing (respondTo : ℕ) (created : Block F)
  | publishing (respondTo : ℕ) (reply : Block F)
  | replying (respondTo : ℕ) (reply : Reply F)
  | stopped

/-- The shared state, the threads, and from `requested` on the history of the run. -/
structure State (F : Type) [NumberFloat F] (Log : Type) where
  queue : List (WriteRequest F)
  closed : Bool
  handlers : ℕ → Handler F
  writer : Writer F
  log : Log
  chain : Chain F
  promises : ℕ → Option (Reply F)
  published : List (Block F)
  requested : List (WriteRequest F)
  accepted : List (WriteRequest F)
  popped : List (WriteRequest F)
  created : List (ℕ × Block F)
  persisted : List (ℕ × Block F)
  appended : List (ℕ × Block F)
  replies : List (ℕ × Reply F)
  snapshots : List (List (Block F))

def State.boot {Log : Type} (log : Log) (chain : Chain F) : State F Log where
  queue := []
  closed := false
  handlers _ := .idle
  writer := .popping
  log
  chain
  promises _ := none
  published := []
  requested := []
  accepted := []
  popped := []
  created := []
  persisted := []
  appended := []
  replies := []
  snapshots := []

def buildNext (sha256 : Bytes → Digest) (now : Tm) (c : Chain F) (event : EventPayload F) :
    Block F :=
  makeBlock sha256 now (UInt64.ofNat c.size) event c.latest.hash

variable (sha256 : Bytes → Digest) (capacity : ℕ) {Log : Type}
  (append : Log → Block F → Except WriteError Unit → Log → Prop)

/-- The steps of the threads. `append` is what `append_block` may do to the log. A vector that
cannot grow any more is left out: `push` needs room for one block. -/
inductive Step : State F Log → State F Log → Prop
  | arrive (s : State F Log) (id : ℕ) (event : EventPayload F) (h : s.handlers id = .idle) :
    Step s { s with
      handlers := Function.update s.handlers id (.pushing ⟨event, id⟩)
      requested := s.requested ++ [⟨event, id⟩] }
  | accept (s : State F Log) (id : ℕ) (r : WriteRequest F) (h : s.handlers id = .pushing r)
      (hc : s.closed = false) (hq : s.queue.length < capacity) :
    Step s { s with
      handlers := Function.update s.handlers id .waiting
      queue := s.queue ++ [r]
      accepted := s.accepted ++ [r] }
  | refuse (s : State F Log) (id : ℕ) (r : WriteRequest F) (h : s.handlers id = .pushing r)
      (hc : s.closed = true) :
    Step s { s with handlers := Function.update s.handlers id (.refused r) }
  | close (s : State F Log) : Step s { s with closed := true }
  | pop (s : State F Log) (r : WriteRequest F) (rest : List (WriteRequest F))
      (h : s.writer = .popping) (hq : s.queue = r :: rest) :
    Step s { s with queue := rest, writer := .building r, popped := s.popped ++ [r] }
  | drained (s : State F Log) (h : s.writer = .popping) (hq : s.queue = [])
      (hc : s.closed = true) :
    Step s { s with writer := .stopped }
  | build (s : State F Log) (r : WriteRequest F) (now : Tm) (h : s.writer = .building r) :
    Step s { s with
      writer := .appending r.respondTo (buildNext sha256 now s.chain r.event)
      created := s.created ++ [(r.respondTo, buildNext sha256 now s.chain r.event)] }
  | persist (s : State F Log) (id : ℕ) (b : Block F) (log : Log) (h : s.writer = .appending id b)
      (ha : append s.log b (.ok ()) log) :
    Step s { s with log := log, writer := .pushing id b, persisted := s.persisted ++ [(id, b)] }
  | persistFailed (s : State F Log) (id : ℕ) (b : Block F) (e : WriteError) (log : Log)
      (h : s.writer = .appending id b) (ha : append s.log b (.error e) log) :
    Step s { s with log := log, writer := .replying id (.error e) }
  | push (s : State F Log) (id : ℕ) (b : Block F) (h : s.writer = .pushing id b)
      (hmem : s.chain.size + 1 < 2 ^ 64) :
    Step s { s with
      chain := s.chain.pushPersisted b
      writer := .publishing id b
      appended := s.appended ++ [(id, b)] }
  | publish (s : State F Log) (id : ℕ) (b : Block F) (h : s.writer = .publishing id b) :
    Step s { s with writer := .replying id (.ok b), published := s.published ++ [b] }
  | reply (s : State F Log) (id : ℕ) (x : Reply F) (h : s.writer = .replying id x)
      (hp : s.promises id = none) :
    Step s { s with
      writer := .popping
      promises := Function.update s.promises id (some x)
      replies := s.replies ++ [(id, x)] }
  /-- `promise_already_satisfied` is thrown twice and swallowed. -/
  | satisfied (s : State F Log) (id : ℕ) (x : Reply F) (h : s.writer = .replying id x)
      (hp : s.promises id ≠ none) :
    Step s { s with writer := .popping }
  | receive (s : State F Log) (id : ℕ) (x : Reply F) (h : s.handlers id = .waiting)
      (hp : s.promises id = some x) :
    Step s { s with handlers := Function.update s.handlers id (.replied x) }
  | read (s : State F Log) : Step s { s with snapshots := s.snapshots ++ [s.chain.blocks] }

/-- The states of the runs that start at boot. -/
abbrev Reachable (log : Log) (chain : Chain F) (s : State F Log) : Prop :=
  Relation.ReflTransGen (Step sha256 capacity append) (State.boot log chain) s

variable {sha256 capacity append}

/-- Where a handler stands and where its request is. -/
def State.HandlerOk (s : State F Log) (id : ℕ) : Prop :=
  match s.handlers id with
  | .idle => id ∉ s.requested.map WriteRequest.respondTo
  | .pushing r | .refused r =>
    r.respondTo = id ∧ r ∈ s.requested ∧ id ∉ s.accepted.map WriteRequest.respondTo
  | .waiting | .replied _ => id ∈ s.accepted.map WriteRequest.respondTo

/-- The queue holds what was accepted and not yet popped. -/
structure Queueing (s : State F Log) : Prop where
  fifo : s.accepted = s.popped ++ s.queue
  requested_nodup : (s.requested.map WriteRequest.respondTo).Nodup
  accepted_nodup : (s.accepted.map WriteRequest.respondTo).Nodup
  accepted_subset : s.accepted ⊆ s.requested
  handlers : ∀ id, s.HandlerOk id
  stopped : s.writer = .stopped → s.closed = true ∧ s.queue = []

theorem Queueing.boot (log : Log) (c : Chain F) : Queueing (State.boot log c) where
  fifo := rfl
  requested_nodup := List.nodup_nil
  accepted_nodup := List.nodup_nil
  accepted_subset := List.Subset.refl _
  handlers _ := List.not_mem_nil
  stopped h := by cases h

private theorem nodup_append_singleton {ids : List ℕ} {id : ℕ} (h : ids.Nodup) (hid : id ∉ ids) :
    (ids ++ [id]).Nodup := by
  refine List.nodup_append.mpr ⟨h, by simp, fun a ha b hb hab => hid ?_⟩
  rwa [← List.mem_singleton.mp hb, ← hab]

theorem State.HandlerOk.update {s : State F Log} (handlers : ∀ id, s.HandlerOk id) {id : ℕ}
    {handler : Handler F}
    (hid : State.HandlerOk { s with handlers := Function.update s.handlers id handler } id) :
    ∀ id', State.HandlerOk { s with handlers := Function.update s.handlers id handler } id' := by
  intro id'
  by_cases heq : id' = id
  · rwa [heq]
  · have hid' := handlers id'
    simpa only [State.HandlerOk, Function.update_of_ne heq] using hid'

theorem Queueing.step {s t : State F Log} (hs : Queueing s) (h : Step sha256 capacity append s t) :
    Queueing t := by
  obtain ⟨fifo, requested, accepted, subset, handlers, stopped⟩ := hs
  cases h with
  | arrive id event h =>
    have hid := handlers id
    simp only [State.HandlerOk, h] at hid
    have hsubset : s.accepted ⊆ s.requested ++ [⟨event, id⟩] :=
      List.Subset.trans subset (List.subset_append_left _ _)
    refine ⟨fifo, ?_, accepted, hsubset, fun id' => ?_, stopped⟩
    · rw [List.map_append]
      exact nodup_append_singleton requested hid
    · by_cases heq : id' = id
      · subst heq
        simp only [State.HandlerOk, Function.update_self]
        exact ⟨trivial, by simp, fun ha => hid (List.map_subset _ subset ha)⟩
      · have hid' := handlers id'
        simp only [State.HandlerOk, Function.update_of_ne heq] at hid' ⊢
        cases hh : s.handlers id' <;> simp only [hh] at hid' ⊢
        case idle => simpa [heq] using hid'
        case waiting | replied => exact hid'
        case pushing | refused => exact ⟨hid'.1, List.mem_append_left _ hid'.2.1, hid'.2.2⟩
  | accept id r h hc hq =>
    have hr := handlers id
    simp only [State.HandlerOk, h] at hr
    obtain ⟨hrid, hreq, hfresh⟩ := hr
    refine ⟨by rw [fifo, List.append_assoc], requested, ?_, ?_, fun id' => ?_, fun hw => ?_⟩
    · rw [List.map_append, List.map_singleton, hrid]
      exact nodup_append_singleton accepted hfresh
    · exact List.append_subset.mpr ⟨subset, by simpa using hreq⟩
    · by_cases heq : id' = id
      · subst heq
        simp [State.HandlerOk, hrid]
      · have hid' := handlers id'
        have hne : id' ∈ (s.accepted ++ [r]).map WriteRequest.respondTo ↔
            id' ∈ s.accepted.map WriteRequest.respondTo := by
          simp [hrid, heq]
        simp only [State.HandlerOk, Function.update_of_ne heq] at hid' ⊢
        cases hh : s.handlers id' <;> simp only [hh, hne] at hid' ⊢ <;> exact hid'
    · have := (stopped hw).1
      rw [hc] at this
      cases this
  | refuse id r h hc =>
    have hid := handlers id
    simp only [State.HandlerOk, h] at hid
    refine ⟨fifo, requested, accepted, subset, State.HandlerOk.update handlers ?_, stopped⟩
    simpa only [State.HandlerOk, Function.update_self] using hid
  | receive id x h hp =>
    have hid := handlers id
    simp only [State.HandlerOk, h] at hid
    refine ⟨fifo, requested, accepted, subset, State.HandlerOk.update handlers ?_, stopped⟩
    simpa only [State.HandlerOk, Function.update_self] using hid
  | close => exact ⟨fifo, requested, accepted, subset, handlers, fun hw => ⟨rfl, (stopped hw).2⟩⟩
  | pop r rest h hq =>
    refine ⟨?_, requested, accepted, subset, handlers, fun hw => by cases hw⟩
    simpa [hq] using fifo
  | drained h hq hc => exact ⟨fifo, requested, accepted, subset, handlers, fun _ => ⟨hc, hq⟩⟩
  | read => exact ⟨fifo, requested, accepted, subset, handlers, stopped⟩
  | build | persist | persistFailed | push | publish | reply | satisfied =>
    exact ⟨fifo, requested, accepted, subset, handlers, fun hw => by cases hw⟩

/-- The request the writer has popped and not answered. -/
def Writer.inService : Writer F → List ℕ
  | .popping | .stopped => []
  | .building r => [r.respondTo]
  | .appending id _ | .pushing id _ | .publishing id _ | .replying id _ => [id]

/-- Answers come in the order of the pops, and one promise takes one of them. -/
structure Serving (s : State F Log) : Prop where
  order : s.popped.map WriteRequest.respondTo = s.replies.map Prod.fst ++ s.writer.inService
  promises : ∀ id x, s.promises id = some x ↔ (id, x) ∈ s.replies
  received : ∀ id x, s.handlers id = .replied x → s.promises id = some x

theorem Serving.boot (log : Log) (c : Chain F) : Serving (State.boot log c) where
  order := rfl
  promises id x := by simp [State.boot]
  received id x h := by cases h

theorem Queueing.popped_nodup {s : State F Log} (hq : Queueing s) :
    (s.popped.map WriteRequest.respondTo).Nodup := by
  have h := hq.accepted_nodup
  rw [hq.fifo, List.map_append] at h
  exact h.of_append_left

/-- `set_value` and `set_exception` find the promise unsatisfied. -/
theorem Serving.unsatisfied {s : State F Log} (hq : Queueing s) (hs : Serving s) {id : ℕ}
    (h : id ∈ s.writer.inService) : s.promises id = none := by
  have hnodup := hq.popped_nodup
  rw [hs.order] at hnodup
  rw [Option.eq_none_iff_forall_ne_some]
  intro x hx
  have hmem : id ∈ s.replies.map Prod.fst := List.mem_map.mpr ⟨_, (hs.promises id x).mp hx, rfl⟩
  exact (List.nodup_append.mp hnodup).2.2 id hmem id h rfl

private theorem received_update {s : State F Log} {id : ℕ} {a : Handler F}
    (hr : ∀ id x, s.handlers id = .replied x → s.promises id = some x)
    (ha : ∀ x, a = .replied x → s.promises id = some x) (id' : ℕ) (x : Reply F)
    (h : Function.update s.handlers id a id' = .replied x) : s.promises id' = some x := by
  by_cases heq : id' = id
  · subst heq
    rw [Function.update_self] at h
    exact ha x h
  · rw [Function.update_of_ne heq] at h
    exact hr id' x h

theorem Serving.step {s t : State F Log} (hq : Queueing s) (hs : Serving s)
    (h : Step sha256 capacity append s t) : Serving t := by
  obtain ⟨order, promises, received⟩ := hs
  cases h with
  | arrive id event h =>
    exact ⟨order, promises, received_update received fun x hx => by cases hx⟩
  | accept id r h hc hcap =>
    exact ⟨order, promises, received_update received fun x hx => by cases hx⟩
  | refuse id r h hc =>
    exact ⟨order, promises, received_update received fun x hx => by cases hx⟩
  | close | read => exact ⟨order, promises, received⟩
  | pop r rest h hr =>
    rw [h] at order
    exact ⟨by simpa [Writer.inService] using order, promises, received⟩
  | drained h hr hc =>
    rw [h] at order
    exact ⟨order, promises, received⟩
  | build | persist | persistFailed | push | publish =>
    rename s.writer = _ => h
    rw [h] at order
    exact ⟨order, promises, received⟩
  | reply id x h hp =>
    rw [h] at order
    refine ⟨by simpa [Writer.inService] using order, fun id' x' => ?_, fun id' x' hx => ?_⟩
    · rw [List.mem_append, List.mem_singleton, Prod.mk.injEq, ← promises]
      by_cases heq : id' = id
      · subst heq
        simp only [Function.update_self, hp]
        simp [eq_comm]
      · simp [heq]
    · have := received id' x' hx
      by_cases heq : id' = id
      · subst heq
        rw [hp] at this
        cases this
      · exact (Function.update_of_ne heq ..).trans this
  | satisfied id x h hp =>
    exact absurd (Serving.unsatisfied hq ⟨order, promises, received⟩ (by simp [h, Writer.inService]))
      hp
  | receive id x h hp =>
    refine ⟨order, promises, received_update received fun y hy => ?_⟩
    cases hy
    exact hp

/-- The request without a block. -/
def Writer.unbuilt : Writer F → List (WriteRequest F)
  | .building r => [r]
  | _ => []

def Writer.unpersisted : Writer F → List (ℕ × Block F)
  | .appending id b => [(id, b)]
  | _ => []

def Writer.unpushed : Writer F → List (ℕ × Block F)
  | .pushing id b => [(id, b)]
  | _ => []

def Writer.unpublished : Writer F → List (ℕ × Block F)
  | .publishing id b => [(id, b)]
  | _ => []

def Writer.unreplied : Writer F → List (ℕ × Block F)
  | .replying id (.ok b) => [(id, b)]
  | _ => []

def successes (replies : List (ℕ × Reply F)) : List (ℕ × Block F) :=
  replies.filterMap fun p => p.2.toOption.map fun b => (p.1, b)

theorem successes_append_singleton (replies : List (ℕ × Reply F)) (id : ℕ) (x : Reply F) :
    successes (replies ++ [(id, x)]) = successes replies ++ (Writer.replying id x).unreplied := by
  rw [successes, List.filterMap_append]
  cases x <;> rfl

theorem mem_successes {replies : List (ℕ × Reply F)} {id : ℕ} {b : Block F} :
    (id, b) ∈ successes replies ↔ (id, .ok b) ∈ replies := by
  rw [successes, List.mem_filterMap]
  constructor
  · rintro ⟨⟨id', x | b'⟩, hmem, hx⟩
    · cases hx
    · cases hx; exact hmem
  · intro h
    exact ⟨_, h, rfl⟩

/-- Each copy of the ledger is behind the one written before it, by one block at most. -/
structure Copies (boot : Chain F) (s : State F Log) : Prop where
  created : s.popped = s.created.map (fun p => ⟨p.2.event, p.1⟩) ++ s.writer.unbuilt
  persisted_sublist : (s.persisted ++ s.writer.unpersisted).Sublist s.created
  persisted : s.persisted = s.appended ++ s.writer.unpushed
  chain : s.chain.blocks = boot.blocks ++ s.appended.map Prod.snd
  appended : s.appended = successes s.replies ++ s.writer.unreplied ++ s.writer.unpublished
  published : s.published = (successes s.replies ++ s.writer.unreplied).map Prod.snd
  snapshots : ∀ blocks ∈ s.snapshots, blocks <+: s.chain.blocks

theorem Copies.boot (log : Log) (c : Chain F) : Copies c (State.boot log c) where
  created := rfl
  persisted_sublist := .slnil
  persisted := rfl
  chain := (List.append_nil _).symm
  appended := rfl
  published := rfl
  snapshots _ h := by cases h

theorem Copies.step {boot : Chain F} {s t : State F Log} (hq : Queueing s) (hv : Serving s)
    (hs : Copies boot s) (h : Step sha256 capacity append s t) : Copies boot t := by
  obtain ⟨created, sub, persisted, chain, appended, published, snapshots⟩ := hs
  cases h with
  | arrive | accept | refuse | close | receive =>
    exact ⟨created, sub, persisted, chain, appended, published, snapshots⟩
  | satisfied id x h hp =>
    exact absurd (hv.unsatisfied hq (by simp [h, Writer.inService])) hp
  | pop r rest h hr =>
    rw [h] at created sub persisted appended published
    refine ⟨?_, sub, persisted, chain, appended, published, snapshots⟩
    simpa [Writer.unbuilt] using created
  | drained h hr hc =>
    rw [h] at created sub persisted appended published
    exact ⟨created, sub, persisted, chain, appended, published, snapshots⟩
  | build r now h =>
    rw [h] at created sub persisted appended published
    refine ⟨?_, ?_, persisted, chain, appended, published, snapshots⟩
    · rw [created]
      simp [Writer.unbuilt, buildNext, makeBlock]
    · simpa [Writer.unpersisted] using
        sub.append_right [(r.respondTo, buildNext sha256 now s.chain r.event)]
  | persist id b log h ha =>
    rw [h] at created sub persisted appended published
    refine ⟨created, ?_, ?_, chain, appended, published, snapshots⟩
    · simpa [Writer.unpersisted] using sub
    · simpa [Writer.unpushed] using persisted
  | persistFailed id b e log h ha =>
    rw [h] at created sub persisted appended published
    refine ⟨created, ?_, persisted, chain, appended, published, snapshots⟩
    simpa [Writer.unpersisted] using (List.sublist_append_left _ _).trans sub
  | push id b h hmem =>
    rw [h] at created sub persisted appended published
    refine ⟨created, sub, ?_, ?_, ?_, published, fun blocks hb => ?_⟩
    · simpa [Writer.unpushed] using persisted
    · simp [chain]
    · simpa [Writer.unpublished, Writer.unreplied] using appended
    · exact (snapshots blocks hb).trans (List.prefix_append _ _)
  | publish id b h =>
    rw [h] at created sub persisted appended published
    refine ⟨created, sub, persisted, chain, ?_, ?_, snapshots⟩
    · simpa [Writer.unpublished, Writer.unreplied] using appended
    · simpa [Writer.unreplied] using published
  | reply id x h hp =>
    rw [h] at created sub persisted appended published
    refine ⟨created, sub, persisted, chain, ?_, ?_, snapshots⟩
    · rw [successes_append_singleton, appended]
      simp [Writer.unpublished, Writer.unreplied]
    · rw [successes_append_singleton, published]
      simp [Writer.unreplied]
  | read =>
    refine ⟨created, sub, persisted, chain, appended, published, fun blocks hb => ?_⟩
    rcases List.mem_append.mp hb with hb | hb
    · exact snapshots blocks hb
    · rw [List.mem_singleton.mp hb]

theorem Copies.published_prefix {boot : Chain F} {s : State F Log} (hs : Copies boot s) :
    s.published <+: s.appended.map Prod.snd :=
  ⟨s.writer.unpublished.map Prod.snd, by rw [hs.published, hs.appended, ← List.map_append]⟩

/-- The block between `build_next` and `push_persisted`. -/
def Writer.held : Writer F → Option (Block F)
  | .appending _ b | .pushing _ b => some b
  | _ => none

variable (sha256) in
/-- Nothing moves the end of the chain under a block built on it. -/
structure Grown (P : Chain F → Prop) (s : State F Log) : Prop where
  chain : P s.chain
  held : ∀ b ∈ s.writer.held, ∃ now event, b = buildNext sha256 now s.chain event

variable {P : Chain F → Prop}

/-- `P` survives the growth of the chain by one block. -/
abbrev Grows (sha256 : Bytes → Digest) (P : Chain F → Prop) : Prop :=
  ∀ (c : Chain F) (now : Tm) (event : EventPayload F), c.size + 1 < 2 ^ 64 → P c →
    P (c.pushPersisted (buildNext sha256 now c event))

theorem Grown.step (hgrow : Grows sha256 P) {s t : State F Log}
    (hs : Grown sha256 P s) (h : Step sha256 capacity append s t) : Grown sha256 P t := by
  obtain ⟨chain, held⟩ := hs
  cases h with
  | arrive | accept | refuse | close | receive | read => exact ⟨chain, held⟩
  | pop | drained | persistFailed | publish | reply | satisfied =>
    exact ⟨chain, fun b hb => by cases hb⟩
  | build r now h =>
    refine ⟨chain, fun b hb => ⟨now, r.event, ?_⟩⟩
    exact (Option.mem_some_iff.mp hb).symm
  | persist id b log h ha =>
    rw [h] at held
    exact ⟨chain, held⟩
  | push id b h hmem =>
    rw [h] at held
    obtain ⟨now, event, rfl⟩ := held b rfl
    exact ⟨hgrow _ now event hmem chain, fun b hb => by cases hb⟩

section Run
variable {log : Log} {boot : Chain F} {s : State F Log}

theorem Reachable.queueing (h : Reachable sha256 capacity append log boot s) : Queueing s := by
  induction h with
  | refl => exact .boot log boot
  | tail _ hstep ih => exact ih.step hstep

theorem Reachable.serving (h : Reachable sha256 capacity append log boot s) : Serving s := by
  induction h with
  | refl => exact .boot log boot
  | tail hrun hstep ih => exact ih.step (Reachable.queueing hrun) hstep

theorem Reachable.copies (h : Reachable sha256 capacity append log boot s) : Copies boot s := by
  induction h with
  | refl => exact .boot log boot
  | tail hrun hstep ih => exact ih.step (Reachable.queueing hrun) (Reachable.serving hrun) hstep

theorem Reachable.grown (h : Reachable sha256 capacity append log boot s)
    (hgrow : Grows sha256 P) (hboot : P boot) : Grown sha256 P s := by
  induction h with
  | refl => exact ⟨hboot, fun b hb => by cases hb⟩
  | tail _ hstep ih => exact ih.step hgrow hstep

/-- The invariant rule for the chain. -/
theorem Reachable.chain (h : Reachable sha256 capacity append log boot s)
    (hgrow : Grows sha256 P) (hboot : P boot) : P s.chain :=
  (h.grown hgrow hboot).chain

/-- A block between `build_next` and `push_persisted` is built on the chain as it is. -/
theorem Reachable.held (h : Reachable sha256 capacity append log boot s) {b : Block F}
    (hb : b ∈ s.writer.held) : ∃ now event, b = buildNext sha256 now s.chain event :=
  (h.grown (P := fun _ => True) (fun _ _ _ _ _ => trivial) trivial).held b hb

/-- From position `n` on, the index of a block is its position. -/
def IndexedFrom (n : ℕ) (c : Chain F) : Prop :=
  ∀ i b, n ≤ i → c.blocks[i]? = some b → b.index.toNat = i

theorem IndexedFrom.pushPersisted {n : ℕ} {c : Chain F} (hc : IndexedFrom n c) (now : Tm)
    (event : EventPayload F) (hroom : c.size < 2 ^ 64) :
    IndexedFrom n (c.pushPersisted (buildNext sha256 now c event)) := by
  intro i b hi hb
  rw [Chain.pushPersisted_blocks, List.getElem?_append] at hb
  split_ifs at hb with hlt
  · exact hc i b hi hb
  · obtain ⟨hz, rfl⟩ := List.getElem?_eq_some_iff.mp hb
    have hi' : i = c.size := by
      simp only [List.length_singleton] at hz
      simp only [Chain.size]
      omega
    subst hi'
    have hidx : (buildNext sha256 now c event).index.toNat = c.size :=
      UInt64.toNat_ofNat_of_lt' hroom
    simpa using hidx

theorem indexedFrom_grows (sha256 : Bytes → Digest) (n : ℕ) :
    Grows (F := F) sha256 (IndexedFrom n) :=
  fun _ now event hmem hc => hc.pushPersisted now event (Nat.lt_of_succ_lt hmem)

/-- The index of a block pushed since boot is its position. -/
theorem Reachable.index (h : Reachable sha256 capacity append log boot s) {i : ℕ}
    {p : ℕ × Block F} (hp : s.appended[i]? = some p) : p.2.index.toNat = boot.size + i := by
  have hc : IndexedFrom boot.size s.chain := by
    refine h.chain (indexedFrom_grows sha256 boot.size) fun j b hj hb => ?_
    rw [List.getElem?_eq_none hj] at hb
    cases hb
  refine hc (boot.size + i) p.2 (by omega) ?_
  rw [h.copies.chain, List.getElem?_append_right (by simp [Chain.size])]
  simp [Chain.size, hp]

/-- Blocks are published in the order of their indices, and none is left out. -/
theorem Reachable.published_index (h : Reachable sha256 capacity append log boot s) {i : ℕ}
    {b : Block F} (hb : s.published[i]? = some b) : b.index.toNat = boot.size + i := by
  have hmem : (s.appended.map Prod.snd)[i]? = some b := by
    obtain ⟨rest, hrest⟩ := h.copies.published_prefix
    rw [← hrest, List.getElem?_append_left (List.getElem?_eq_some_iff.mp hb).1]
    exact hb
  rw [List.getElem?_map, Option.map_eq_some_iff] at hmem
  obtain ⟨p, hp, rfl⟩ := hmem
  exact h.index hp

end Run

end Ledger

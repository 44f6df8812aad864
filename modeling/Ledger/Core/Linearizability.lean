import Ledger.Core.WriteFailure
import Ledger.System.AtomicLog

/-! The write path refines an atomic log: a client that sees nothing but its own requests and
answers cannot tell the queue, the writer and the promises from one append at a time. -/
namespace Ledger
open Text Json
variable {F : Type} [NumberFloat F] {Log : Type}

/-- What `POST /events` throws behind the validation. -/
inductive AppendFailure
  | shuttingDown
  | write (e : WriteError)

def Handler.answer : Handler F → Option (Except AppendFailure (Block F))
  | .refused _ => some (.error .shuttingDown)
  | .replied x => some (x.mapError .write)
  | .idle | .pushing _ | .waiting => none

/-- What clients see of a step. `look` is what a reader gets under the shared lock. -/
inductive Seen (s t : State F Log) :
    Option (Observation (EventPayload F) (Block F) AppendFailure) → Prop
  | call (id : ℕ) (event : EventPayload F) (h : t.requested = s.requested ++ [⟨event, id⟩]) :
    Seen s t (some (.call id event))
  | answer (id : ℕ) (x : Except AppendFailure (Block F)) (h : (s.handlers id).answer = none)
      (h' : (t.handlers id).answer = some x) :
    Seen s t (some (.answer id x))
  | look (blocks : List (Block F)) (h : t.snapshots = s.snapshots ++ [blocks]) :
    Seen s t (some (.look blocks))
  | nothing (hrequested : t.requested = s.requested) (hsnapshots : t.snapshots = s.snapshots)
      (hanswer : ∀ id, (t.handlers id).answer = (s.handlers id).answer) :
    Seen s t none

section System
variable (sha256 : Bytes → Digest) (capacity : ℕ)
  (append : Log → Block F → Except WriteError Unit → Log → Prop)

/-- The write path as its clients see it. -/
def writePath (log : Log) (boot : Chain F) :
    LTS (State F Log) (Observation (EventPayload F) (Block F) AppendFailure) where
  init s := s = State.boot log boot
  step s o t := Step sha256 capacity append s t ∧ Seen s t o

/-- What an event may become at the end of the chain. -/
def Extends (blocks : List (Block F)) (event : EventPayload F) (b : Block F) : Prop :=
  b.event = event ∧ b.index.toNat = blocks.length ∧
    blocks.getLast?.map Block.hash = some b.prevHash ∧ b.Sealed sha256

end System

def Writer.decision : Writer F → ℕ → Option (Reply F)
  | .publishing id' b, id => if id' = id then some (.ok b) else none
  | .replying id' x, id => if id' = id then some x else none
  | .popping, _ | .building _, _ | .appending .., _ | .pushing .., _ | .stopped, _ => none

/-- How an append has gone, whether its handler knows or not. -/
def State.decision (s : State F Log) (id : ℕ) : Option (Reply F) :=
  (s.promises id).or (s.writer.decision id)

/-- Where an append stands in the atomic log. -/
inductive Stands (s : State F Log) (id : ℕ) :
    AtomicLog.Client (EventPayload F) (Block F) AppendFailure → Prop
  | idle (h : s.handlers id = .idle) : Stands s id .idle
  | pushing (r : WriteRequest F) (h : s.handlers id = .pushing r) : Stands s id (.invoked r.event)
  | waiting (event : EventPayload F) (h : s.handlers id = .waiting)
      (haccepted : ⟨event, id⟩ ∈ s.accepted) (hnone : s.decision id = none) :
    Stands s id (.invoked event)
  | decided (x : Reply F) (h : s.handlers id = .waiting) (hsome : s.decision id = some x) :
    Stands s id (.decided (x.mapError .write))
  | returned (x : Except AppendFailure (Block F)) (h : (s.handlers id).answer = some x) :
    Stands s id .returned

structure Refines (s : State F Log)
    (a : AtomicLog.State (EventPayload F) (Block F) AppendFailure) : Prop where
  committed : a.committed = s.appended
  clients : ∀ id, Stands s id (a.clients id)

section Simulation
variable {sha256 : Bytes → Digest} {capacity : ℕ}
  {append : Log → Block F → Except WriteError Unit → Log → Prop} {log : Log} {boot : Chain F}
  {s t : State F Log} {a : AtomicLog.State (EventPayload F) (Block F) AppendFailure}

theorem Stands.keep {id : ℕ} {c : AtomicLog.Client (EventPayload F) (Block F) AppendFailure}
    (h : Stands s id c) (hhandler : t.handlers id = s.handlers id)
    (haccepted : s.accepted ⊆ t.accepted) (hdecision : t.decision id = s.decision id) :
    Stands t id c := by
  cases h with
  | idle h => exact .idle (hhandler.trans h)
  | pushing r h => exact .pushing r (hhandler.trans h)
  | waiting event h hr hnone =>
    exact .waiting event (hhandler.trans h) (haccepted hr) (hdecision.trans hnone)
  | decided x h hsome => exact .decided x (hhandler.trans h) (hdecision.trans hsome)
  | returned x h => exact .returned x (hhandler ▸ h)

/-- The handlers and the decisions stay as they are. -/
theorem Refines.keep (h : Refines s a) (happended : t.appended = s.appended)
    (hhandlers : t.handlers = s.handlers) (haccepted : t.accepted = s.accepted)
    (hdecision : ∀ id, t.decision id = s.decision id) : Refines t a where
  committed := h.committed.trans happended.symm
  clients id := (h.clients id).keep (by rw [hhandlers]) (by rw [haccepted]; exact List.Subset.refl _)
    (hdecision id)

theorem Refines.update (h : Refines s a) {id : ℕ}
    {c : AtomicLog.Client (EventPayload F) (Block F) AppendFailure} {committed : List (ℕ × Block F)}
    (hcommitted : committed = t.appended) (haccepted : s.accepted ⊆ t.accepted)
    (hothers : ∀ id', id' ≠ id →
      t.handlers id' = s.handlers id' ∧ t.decision id' = s.decision id')
    (hc : Stands t id c) : Refines t ⟨committed, Function.update a.clients id c⟩ where
  committed := hcommitted
  clients id' := by
    by_cases heq : id' = id
    · subst heq
      simpa only [Function.update_self] using hc
    · simp only [Function.update_of_ne heq]
      exact (h.clients id').keep (hothers id' heq).1 haccepted (hothers id' heq).2

theorem State.decision_eq_none (hq : Queueing s) (hv : Serving s) {id : ℕ}
    (h : id ∉ s.accepted.map WriteRequest.respondTo) : s.decision id = none := by
  have hpopped : id ∉ s.popped.map WriteRequest.respondTo := fun hmem =>
    h (by rw [hq.fifo, List.map_append]; exact List.mem_append_left _ hmem)
  rw [hv.order, List.mem_append, not_or] at hpopped
  have hpromise : s.promises id = none := by
    rw [Option.eq_none_iff_forall_ne_some]
    intro x hx
    exact hpopped.1 (List.mem_map.mpr ⟨_, (hv.promises id x).mp hx, rfl⟩)
  rw [State.decision, hpromise, Option.none_or]
  cases hw : s.writer with
  | publishing id' b | replying id' x =>
    have hne : id ≠ id' := by simpa [hw, Writer.inService] using hpopped.2
    exact if_neg hne.symm
  | popping | building | appending | pushing | stopped => rfl

theorem waiting_of_inService (hq : Queueing s) (hv : Serving s) {id : ℕ}
    (h : id ∈ s.writer.inService) : s.handlers id = .waiting := by
  have hnone := hv.unsatisfied hq h
  have hmem : id ∈ s.accepted.map WriteRequest.respondTo := by
    have hpopped : id ∈ s.popped.map WriteRequest.respondTo := by
      rw [hv.order]
      exact List.mem_append_right _ h
    rw [hq.fifo, List.map_append]
    exact List.mem_append_left _ hpopped
  have hok := hq.handlers id
  cases hh : s.handlers id with
  | waiting => rfl
  | replied x => cases (hv.received id x hh).symm.trans hnone
  | idle =>
    simp only [State.HandlerOk, hh] at hok
    exact absurd (List.map_subset _ hq.accepted_subset hmem) hok
  | pushing r | refused r =>
    simp only [State.HandlerOk, hh] at hok
    exact absurd hmem hok.2.2

theorem Refines.invoked (h : Refines s a) (hq : Queueing s) (hv : Serving s)
    (hc : Copies boot s) {id : ℕ} {b : Block F}
    (hw : s.writer = .appending id b ∨ s.writer = .pushing id b) :
    s.handlers id = .waiting ∧ a.clients id = .invoked b.event := by
  have hin : id ∈ s.writer.inService := by rcases hw with hw | hw <;> simp [hw, Writer.inService]
  have hwaiting := waiting_of_inService hq hv hin
  have hnone : s.decision id = none := by
    rw [State.decision, hv.unsatisfied hq hin]
    rcases hw with hw | hw <;> rw [hw] <;> rfl
  have hcreated : (id, b) ∈ s.created := by
    apply hc.persisted_sublist.subset
    rcases hw with hw | hw
    · simp [hw, Writer.unpersisted]
    · simp [hc.persisted, hw, Writer.unpushed]
  have hmem : (⟨b.event, id⟩ : WriteRequest F) ∈ s.accepted := by
    rw [hq.fifo, hc.created]
    refine List.mem_append_left _ (List.mem_append_left _ ?_)
    exact List.mem_map.mpr ⟨(id, b), hcreated, rfl⟩
  refine ⟨hwaiting, ?_⟩
  have hclient := h.clients id
  generalize a.clients id = c at hclient
  cases hclient with
  | idle hidle => cases hidle.symm.trans hwaiting
  | pushing r hpushing => cases hpushing.symm.trans hwaiting
  | waiting event _ haccepted =>
    have hinj := List.inj_on_of_nodup_map hq.accepted_nodup haccepted hmem rfl
    rw [(WriteRequest.mk.inj hinj).1]
  | decided x _ hsome => cases hsome.symm.trans hnone
  | returned x hanswer => rw [hwaiting] at hanswer; cases hanswer

theorem Seen.of_call {id : ℕ} {event : EventPayload F} (hstep : Step sha256 capacity append s t)
    (h : Seen s t (some (.call id event))) :
    s.handlers id = .idle ∧ t = { s with
      handlers := Function.update s.handlers id (.pushing ⟨event, id⟩)
      requested := s.requested ++ [⟨event, id⟩] } := by
  cases h with
  | call _ _ h =>
    cases hstep with
    | arrive id' event' hidle =>
      obtain ⟨rfl, rfl⟩ : event' = event ∧ id' = id := by simpa using h
      exact ⟨hidle, rfl⟩
    | _ => simp at h

theorem Seen.of_look {blocks : List (Block F)} (hstep : Step sha256 capacity append s t)
    (h : Seen s t (some (.look blocks))) :
    blocks = s.chain.blocks ∧ t = { s with snapshots := s.snapshots ++ [s.chain.blocks] } := by
  cases h with
  | look _ h =>
    cases hstep with
    | read =>
      obtain rfl : s.chain.blocks = blocks := by simpa using h
      exact ⟨rfl, rfl⟩
    | _ => simp at h

theorem answer_of_update {handlers : ℕ → Handler F} {id id' : ℕ} {handler : Handler F}
    {x : Except AppendFailure (Block F)} (h : (handlers id).answer = none)
    (h' : (Function.update handlers id' handler id).answer = some x) :
    id' = id ∧ handler.answer = some x := by
  by_cases heq : id = id'
  · subst heq
    rw [Function.update_self] at h'
    exact ⟨rfl, h'⟩
  · rw [Function.update_of_ne heq, h] at h'
    cases h'

theorem Seen.of_answer {id : ℕ} {x : Except AppendFailure (Block F)}
    (hstep : Step sha256 capacity append s t) (h : Seen s t (some (.answer id x))) :
    (∃ r, s.handlers id = .pushing r ∧ x = .error .shuttingDown ∧
      t = { s with handlers := Function.update s.handlers id (.refused r) }) ∨
    ∃ y, s.handlers id = .waiting ∧ s.promises id = some y ∧ x = y.mapError .write ∧
      t = { s with handlers := Function.update s.handlers id (.replied y) } := by
  cases h with
  | answer _ _ h h' =>
    cases hstep with
    | refuse id' r hr hc =>
      obtain ⟨rfl, hx⟩ := answer_of_update h h'
      exact Or.inl ⟨r, hr, (Option.some.inj hx).symm, rfl⟩
    | receive id' y hw hp =>
      obtain ⟨rfl, hx⟩ := answer_of_update h h'
      exact Or.inr ⟨y, hw, hp, (Option.some.inj hx).symm, rfl⟩
    | arrive | accept => cases (answer_of_update h h').2
    | _ => cases h.symm.trans h'

/-- What is not seen is a step of the writer, an accepted request, or the closing of the queue. -/
theorem Seen.of_nothing (h : Seen s t none) :
    t.requested = s.requested ∧ t.snapshots = s.snapshots ∧
      ∀ id, (t.handlers id).answer = (s.handlers id).answer := by
  cases h with
  | nothing hrequested hsnapshots hanswer => exact ⟨hrequested, hsnapshots, hanswer⟩

theorem Refines.silent (hs : Reachable sha256 capacity append log boot s) (h : Refines s a)
    (hstep : Step sha256 capacity append s t) (hseen : Seen s t none) :
    ∃ b, (atomicLog (Extends sha256) boot.blocks).Run a [] b ∧ Refines t b := by
  obtain ⟨hrequested, hsnapshots, hanswer⟩ := hseen.of_nothing
  have hq := hs.queueing
  have hv := hs.serving
  cases hstep with
  | arrive id event hidle => simp at hrequested
  | read => simp at hsnapshots
  | refuse id r hr =>
    have := hanswer id
    simp [Handler.answer, hr] at this
  | receive id x hw =>
    have := hanswer id
    simp [Handler.answer, hw] at this
  | accept id r hr hc hroom =>
    have hok := hq.handlers id
    simp only [State.HandlerOk, hr] at hok
    have hclient := h.clients id
    have hnone := State.decision_eq_none hq hv hok.2.2
    refine ⟨⟨a.committed, Function.update a.clients id (.invoked r.event)⟩, ?_,
      h.update h.committed (List.subset_append_left _ _)
        (fun id' hne => ⟨Function.update_of_ne hne .., rfl⟩)
        (.waiting r.event (Function.update_self ..) ?_ hnone)⟩
    · have hsame : Function.update a.clients id (.invoked r.event) = a.clients := by
        rw [Function.update_eq_self_iff]
        generalize a.clients id = c at hclient
        cases hclient with
        | pushing r' hr' => cases hr.symm.trans hr'; rfl
        | idle h' | waiting _ h' | decided _ h' => cases hr.symm.trans h'
        | returned x hx => rw [hr] at hx; cases hx
      rw [hsame]
      exact .nil
    · rw [← hok.1]
      exact List.mem_append_right _ (List.mem_singleton_self _)
  | close => exact ⟨a, .nil, h.keep rfl rfl rfl fun _ => rfl⟩
  | pop r rest hw =>
    exact ⟨a, .nil, h.keep rfl rfl rfl fun id => by simp [State.decision, hw, Writer.decision]⟩
  | drained hw =>
    exact ⟨a, .nil, h.keep rfl rfl rfl fun id => by simp [State.decision, hw, Writer.decision]⟩
  | build r now hw =>
    exact ⟨a, .nil, h.keep rfl rfl rfl fun id => by simp [State.decision, hw, Writer.decision]⟩
  | persist id b log' hw =>
    exact ⟨a, .nil, h.keep rfl rfl rfl fun id => by simp [State.decision, hw, Writer.decision]⟩
  | publish id b hw =>
    exact ⟨a, .nil, h.keep rfl rfl rfl fun id => by simp [State.decision, hw, Writer.decision]⟩
  | satisfied id x hw hp => exact absurd (hv.unsatisfied hq (by simp [hw, Writer.inService])) hp
  | reply id x hw hp =>
    refine ⟨a, .nil, h.keep rfl rfl rfl fun id' => ?_⟩
    by_cases heq : id' = id
    · subst heq
      simp [State.decision, hw, hp, Writer.decision]
    · simp [State.decision, hw, Writer.decision, Function.update_of_ne heq, Ne.symm heq]
  | persistFailed id b e log' hw =>
    obtain ⟨hwaiting, hinvoked⟩ := h.invoked hq hv hs.copies (Or.inl hw)
    have hnone : s.promises id = none := hv.unsatisfied hq (by simp [hw, Writer.inService])
    refine ⟨_, AtomicLog.Step.run (.fail a id _ (.write e) hinvoked), h.update h.committed
      (List.Subset.refl _) (fun id' hne => ⟨rfl, ?_⟩) (.decided (.error e) hwaiting ?_)⟩
    · simp [State.decision, hw, Writer.decision, hne.symm]
    · simp [State.decision, Writer.decision, hnone]
  | push id b hw hmem =>
    obtain ⟨hwaiting, hinvoked⟩ := h.invoked hq hv hs.copies (Or.inr hw)
    have hnone : s.promises id = none := hv.unsatisfied hq (by simp [hw, Writer.inService])
    have hread : a.read boot.blocks = s.chain.blocks := by
      rw [AtomicLog.State.read, h.committed, hs.copies.chain]
    obtain ⟨now, event, rfl⟩ := hs.held (b := b) (by rw [hw]; rfl)
    have hextends : Extends sha256 (a.read boot.blocks)
        (buildNext sha256 now s.chain event).event (buildNext sha256 now s.chain event) := by
      rw [hread]
      refine ⟨rfl, UInt64.toNat_ofNat_of_lt' (Nat.lt_of_succ_lt hmem), ?_, makeBlock_sealed ..⟩
      rw [List.getLast?_eq_getLast_of_ne_nil s.chain.ne_nil]
      rfl
    refine ⟨_, AtomicLog.Step.run (.commit a id _ _ hinvoked hextends),
      h.update (congrArg (· ++ _) h.committed)
      (List.Subset.refl _) (fun id' hne => ⟨rfl, ?_⟩) (.decided (.ok _) hwaiting ?_)⟩
    · simp [State.decision, hw, Writer.decision, hne.symm]
    · simp [State.decision, Writer.decision, hnone]

theorem Refines.step (hs : Reachable sha256 capacity append log boot s) (h : Refines s a)
    {o : Option (Observation (EventPayload F) (Block F) AppendFailure)}
    (hstep : Step sha256 capacity append s t) (hseen : Seen s t o) :
    ∃ b, (atomicLog (Extends sha256) boot.blocks).Run a o.toList b ∧ Refines t b := by
  rcases o with _ | ⟨id, event⟩ | ⟨id, x⟩ | blocks
  · exact h.silent hs hstep hseen
  · obtain ⟨hidle, rfl⟩ := hseen.of_call hstep
    have hclient : a.clients id = .idle := by
      have hstands := h.clients id
      generalize a.clients id = c at hstands
      cases hstands with
      | idle => rfl
      | pushing _ h' | waiting _ h' | decided _ h' => cases hidle.symm.trans h'
      | returned x hx => rw [hidle] at hx; cases hx
    exact ⟨_, AtomicLog.Step.run (.call a id event hclient), h.update h.committed (List.Subset.refl _)
      (fun id' hne => ⟨Function.update_of_ne hne .., rfl⟩)
      (.pushing ⟨event, id⟩ (Function.update_self ..))⟩
  · rcases hseen.of_answer hstep with ⟨r, hpushing, rfl, rfl⟩ | ⟨y, hwaiting, hpromise, rfl, rfl⟩
    · have hclient : a.clients id = .invoked r.event := by
        have hstands := h.clients id
        generalize a.clients id = c at hstands
        cases hstands with
        | pushing r' h' => cases hpushing.symm.trans h'; rfl
        | idle h' | waiting _ h' | decided _ h' => cases hpushing.symm.trans h'
        | returned x hx => rw [hpushing] at hx; cases hx
      have hfail : AtomicLog.Step (Extends sha256) boot.blocks a none _ :=
        .fail a id r.event .shuttingDown hclient
      have hrun := hfail.run.snoc (.answer _ id (.error .shuttingDown) (Function.update_self ..))
      rw [Function.update_idem] at hrun
      exact ⟨_, hrun, h.update h.committed (List.Subset.refl _)
        (fun id' hne => ⟨Function.update_of_ne hne .., rfl⟩)
        (.returned (.error .shuttingDown) (by simp [Handler.answer]))⟩
    · have hdecision : s.decision id = some y := by rw [State.decision, hpromise, Option.some_or]
      have hclient : a.clients id = .decided (y.mapError .write) := by
        have hstands := h.clients id
        generalize a.clients id = c at hstands
        cases hstands with
        | decided x _ hsome => cases hsome.symm.trans hdecision; rfl
        | waiting _ _ _ hnone => cases hnone.symm.trans hdecision
        | idle h' | pushing _ h' => cases hwaiting.symm.trans h'
        | returned x hx => rw [hwaiting] at hx; cases hx
      exact ⟨_, AtomicLog.Step.run (.answer a id _ hclient), h.update h.committed (List.Subset.refl _)
        (fun id' hne => ⟨Function.update_of_ne hne .., rfl⟩)
        (.returned (y.mapError .write) (by simp [Handler.answer]))⟩
  · obtain ⟨rfl, rfl⟩ := hseen.of_look hstep
    have hread : a.read boot.blocks = s.chain.blocks := by
      rw [AtomicLog.State.read, h.committed, hs.copies.chain]
    exact ⟨a, hread ▸ AtomicLog.Step.run (.look a), h.keep rfl rfl rfl fun _ => rfl⟩

theorem writePath_simulates (log : Log) (boot : Chain F) :
    (writePath sha256 capacity append log boot).Simulates
      (atomicLog (Extends sha256) boot.blocks)
      fun s a => Reachable sha256 capacity append log boot s ∧ Refines s a where
  init := by
    rintro s rfl
    exact ⟨_, rfl, .refl, rfl, fun _ => .idle rfl⟩
  step s a o t h hstep := by
    obtain ⟨b, hrun, hb⟩ := h.2.step h.1 hstep.1 hstep.2
    exact ⟨b, hrun, h.1.tail hstep.1, hb⟩

/-- Whatever clients see of the write path, an atomic log could have shown them, whatever the disk
does. -/
theorem writePath_linearizable {trace : List (Observation (EventPayload F) (Block F) AppendFailure)}
    (h : (writePath sha256 capacity append log boot).Trace trace) :
    (atomicLog (Extends sha256) boot.blocks).Trace trace :=
  (writePath_simulates log boot).trace h

/-- So reads never go back, a block answered is in every later read at its index, a later append
has a later index, and the blocks read are those of the requests, each once, without any request
that is answered with an error. -/
theorem writePath_guarantees {trace : List (Observation (EventPayload F) (Block F) AppendFailure)}
    (h : (writePath sha256 capacity append log boot).Trace trace) :
    Guarantees (Extends sha256) boot.blocks (fun b => b.index.toNat) trace :=
  guarantees_of_trace (fun _ _ _ hb => hb.2.1) ((writePath_simulates log boot).trace h)

theorem Step.exists_seen (h : Step sha256 capacity append s t) : ∃ o, Seen s t o := by
  have hupdate : ∀ {id : ℕ} {handler : Handler F},
      handler.answer = none → (s.handlers id).answer = none →
      ∀ id', (Function.update s.handlers id handler id').answer = (s.handlers id').answer := by
    intro id handler hnone hid id'
    by_cases heq : id' = id
    · rw [heq, Function.update_self, hnone, hid]
    · rw [Function.update_of_ne heq]
  cases h with
  | arrive id event h => exact ⟨_, .call id event rfl⟩
  | accept id r h => exact ⟨_, .nothing rfl rfl (hupdate rfl (by rw [h]; rfl))⟩
  | refuse id r h =>
    exact ⟨_, .answer id (.error .shuttingDown) (by rw [h]; rfl) (by simp [Handler.answer])⟩
  | receive id x h =>
    exact ⟨_, .answer id (x.mapError .write) (by rw [h]; rfl) (by simp [Handler.answer])⟩
  | read => exact ⟨_, .look _ rfl⟩
  | _ => exact ⟨_, .nothing rfl rfl fun _ => rfl⟩

theorem Reachable.exists_trace (h : Reachable sha256 capacity append log boot s) :
    ∃ trace, (writePath sha256 capacity append log boot).Run (State.boot log boot) trace s := by
  induction h with
  | refl => exact ⟨[], .nil⟩
  | tail _ hstep ih =>
    obtain ⟨trace, hrun⟩ := ih
    obtain ⟨o, ho⟩ := hstep.exists_seen
    exact ⟨_, hrun.snoc ⟨hstep, ho⟩⟩

end Simulation

/-- Two requests at once: what came last is appended first, and the write of the other fails. -/
theorem writePath_overlap {sha256 : Bytes → Digest} {log log' log'' : Log} {boot : Chain F}
    {append : Log → Block F → Except WriteError Unit → Log → Prop} {event : EventPayload F}
    {now : Tm} {b : Block F} {e : WriteError} (hb : b = buildNext sha256 now boot event)
    (hroom : boot.size + 1 < 2 ^ 64) (happ : append log b (.ok ()) log')
    (hfail : append log' (buildNext sha256 now (boot.pushPersisted b) event) (.error e) log'') :
    (writePath sha256 2 append log boot).Trace
      [.call 7 event, .call 8 event, .look boot.blocks, .answer 8 (.ok b),
        .look (boot.blocks ++ [b]), .answer 7 (.error (.write e))] := by
  subst hb
  have hrun : (writePath sha256 2 append log boot).Run (State.boot log boot) [] _ := .nil
  have hcall := hrun.snoc ⟨.arrive _ 7 event rfl, .call 7 event rfl⟩
  have hcall' := hcall.snoc ⟨.arrive _ 8 event rfl, .call 8 event rfl⟩
  have haccept' := hcall'.silent ⟨.accept _ 8 ⟨event, 8⟩ rfl rfl zero_lt_two,
    .nothing rfl rfl fun id => by by_cases h : id = 8 <;> simp [h, Handler.answer]⟩
  have haccept := haccept'.silent ⟨.accept _ 7 ⟨event, 7⟩ rfl rfl one_lt_two,
    .nothing rfl rfl fun id => by by_cases h : id = 7 <;> simp [h, Handler.answer]⟩
  have hpop := haccept.silent ⟨.pop _ ⟨event, 8⟩ [⟨event, 7⟩] rfl rfl, .nothing rfl rfl fun _ => rfl⟩
  have hbuild := hpop.silent ⟨.build _ _ now rfl, .nothing rfl rfl fun _ => rfl⟩
  have hpersist := hbuild.silent ⟨.persist _ 8 _ _ rfl happ, .nothing rfl rfl fun _ => rfl⟩
  have hearly := hpersist.snoc ⟨.read _, .look _ rfl⟩
  have hpush := hearly.silent ⟨.push _ 8 _ rfl hroom, .nothing rfl rfl fun _ => rfl⟩
  have hpublish := hpush.silent ⟨.publish _ 8 _ rfl, .nothing rfl rfl fun _ => rfl⟩
  have hreply := hpublish.silent ⟨.reply _ 8 _ rfl rfl, .nothing rfl rfl fun _ => rfl⟩
  have hanswer := hreply.snoc ⟨.receive _ 8 _ rfl rfl, .answer 8 _ rfl rfl⟩
  have hlook := hanswer.snoc ⟨.read _, .look _ rfl⟩
  have hpop' := hlook.silent ⟨.pop _ ⟨event, 7⟩ [] rfl rfl, .nothing rfl rfl fun _ => rfl⟩
  have hbuild' := hpop'.silent ⟨.build _ _ now rfl, .nothing rfl rfl fun _ => rfl⟩
  have hfailed := hbuild'.silent ⟨.persistFailed _ 7 _ e _ rfl hfail, .nothing rfl rfl fun _ => rfl⟩
  have hreply' := hfailed.silent ⟨.reply _ 7 _ rfl rfl, .nothing rfl rfl fun _ => rfl⟩
  have hanswer' := hreply'.snoc ⟨.receive _ 7 _ rfl rfl, .answer 7 _ rfl rfl⟩
  exact ⟨_, _, rfl, hanswer'⟩

def sampleTrace : List (Observation (EventPayload Numeral) (Block Numeral) AppendFailure) :=
  [.call 7 sampleEvent, .call 8 sampleEvent, .look [sampleGenesis], .answer 8 (.ok sampleBlock),
    .look [sampleGenesis, sampleBlock], .answer 7 (.error (.write (.storage appendFailed)))]

theorem writePath_sampleTrace :
    (writePath sampleSha256 2 (Appends AnyOutcome) ⟨sampleGenesis.line, none⟩ sampleChain).Trace
      sampleTrace := by
  have happ : Appends AnyOutcome ⟨sampleGenesis.line, none⟩ sampleBlock (.ok ())
      ⟨sampleLedger, none⟩ :=
    .of_appendBlock trivial (appendBlock_complete sampleBlock_wellFormed rfl)
  have hnext : (buildNext sampleSha256 sampleClock (sampleChain.pushPersisted sampleBlock)
      sampleEvent).WellFormed :=
    makeBlock_wellFormed _ _ _ _ sampleBlock_wellFormed.hash
  have hfail : Appends AnyOutcome ⟨sampleLedger, none⟩ _ _ _ :=
    .of_appendBlock trivial (appendBlock_cut hnext rfl 0)
  exact writePath_overlap rfl (show sampleChain.size + 1 < 2 ^ 64 by decide) happ hfail

theorem writePath_linearizable_sample :
    (atomicLog (Extends sampleSha256) [sampleGenesis]).Trace sampleTrace :=
  writePath_linearizable writePath_sampleTrace

theorem writePath_guarantees_sample :
    Guarantees (Extends sampleSha256) [sampleGenesis] (fun b => b.index.toNat) sampleTrace :=
  writePath_guarantees writePath_sampleTrace

end Ledger

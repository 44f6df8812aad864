import Ledger.Core.Block
import Ledger.System.DropOldest

/-! The live feed: one broadcaster and any number of subscriptions. Each event is one region under
a mutex. -/
namespace Ledger
open Text Json
variable {F : Type} [NumberFloat F]

abbrev Item (F : Type) [NumberFloat F] := Delivery (Block F)

structure Subscription (F : Type) [NumberFloat F] extends DropOldest (Block F) where
  capacity : ℕ
  closed : Bool

namespace Subscription

def new (capacity : ℕ) : Subscription F :=
  ⟨.empty, capacity, false⟩

def push (s : Subscription F) (block : Block F) : Subscription F :=
  if s.closed then s else { s with toDropOldest := s.toDropOldest.push s.capacity block }

def tryNext (s : Subscription F) : Option (Item F) × Subscription F :=
  (s.pop.1, { s with toDropOldest := s.pop.2 })

/-- `none` while the caller waits. -/
def next (s : Subscription F) : Option (Option (Item F) × Subscription F) :=
  if s.closed || !s.buffer.isEmpty then some s.tryNext else none

def close (s : Subscription F) : Subscription F :=
  { s with closed := true }

end Subscription

/-- A subscription, whether some `shared_ptr` to it is left, and what it has delivered. -/
structure Handle (F : Type) [NumberFloat F] where
  subscription : Subscription F
  held : Bool
  delivered : List (Item F)

/-- A handle with its history: how many blocks had been published when the subscription was opened
and when it was closed or dropped, and what was pushed on it. -/
structure Client (F : Type) [NumberFloat F] extends Handle F where
  opened : ℕ
  ended : Option ℕ
  pushed : List (Block F)

/-- Who holds the mutex of the subscriber list: `publish` in its loop, with the entries it has kept
and those ahead of it, or `close_all`. -/
inductive Fanout (F : Type) [NumberFloat F]
  | idle
  | publishing (block : Block F) (kept rest : List ℕ)
  | closing (rest : List ℕ)

/-- `subscribers` holds the `weak_ptr`s, `published` is the history of `publish`. -/
structure Feed (F : Type) [NumberFloat F] where
  clients : ℕ → Option (Client F)
  subscribers : List ℕ
  fanout : Fanout F
  published : List (Block F)

def Feed.initial : Feed F :=
  ⟨fun _ => none, [], .idle, []⟩

/-- `i` names a subscription. -/
inductive FeedEvent (F : Type) [NumberFloat F]
  | subscribe (i capacity : ℕ)
  /-- `publish` takes the mutex. -/
  | publish (block : Block F)
  /-- `close_all` takes the mutex. -/
  | closeAll
  /-- The loop of either one gets to `i`. -/
  | visit (i : ℕ)
  /-- Either one is done. -/
  | unlock
  | next (i : ℕ)
  | tryNext (i : ℕ)
  | close (i : ℕ)
  /-- The last handle goes. -/
  | drop (i : ℕ)

namespace Handle

def fresh (capacity : ℕ) : Handle F :=
  ⟨.new capacity, true, []⟩

def push (h : Handle F) (block : Block F) : Handle F :=
  { h with subscription := h.subscription.push block }

def take (h : Handle F) (result : Option (Item F) × Subscription F) : Handle F :=
  { h with subscription := result.2, delivered := h.delivered ++ result.1.toList }

def close (h : Handle F) : Handle F :=
  { h with subscription := h.subscription.close }

def drop (h : Handle F) : Handle F :=
  { h with held := false }

end Handle

namespace Client

def fresh (capacity opened : ℕ) : Client F :=
  ⟨.fresh capacity, opened, none, []⟩

def push (c : Client F) (block : Block F) : Client F :=
  { c with
    toHandle := c.toHandle.push block
    pushed := if c.subscription.closed then c.pushed else c.pushed ++ [block] }

def take (c : Client F) (result : Option (Item F) × Subscription F) : Client F :=
  { c with toHandle := c.toHandle.take result }

def close (c : Client F) (published : ℕ) : Client F :=
  { c with toHandle := c.toHandle.close, ended := some (c.ended.getD published) }

def drop (c : Client F) (published : ℕ) : Client F :=
  { c with toHandle := c.toHandle.drop, ended := some (c.ended.getD published) }

theorem eq_of_next {c c' : Client F} (h : c.subscription.next.map c.take = some c') :
    c' = c.take c.subscription.tryNext := by
  rw [Option.map_eq_some_iff] at h
  obtain ⟨r, hr, rfl⟩ := h
  rw [Subscription.next, Option.ite_none_right_eq_some] at hr
  rw [← Option.some.inj hr.2]

def account (c : Client F) : ℕ × List (Item F) :=
  (c.opened, c.delivered)

end Client

namespace Feed

def held (s : Feed F) (i : ℕ) : Bool :=
  match s.clients i with
  | some c => c.held
  | none => false

def setClient (s : Feed F) (i : ℕ) (c : Client F) : Feed F :=
  { s with clients := Function.update s.clients i (some c) }

/-- How many blocks have been published to `i`: a fan-out ahead of it does not count yet. -/
def reached (s : Feed F) (i : ℕ) : ℕ :=
  match s.fanout with
  | .publishing _ _ rest => if i ∈ rest then s.published.length - 1 else s.published.length
  | _ => s.published.length

def call (s : Feed F) (i : ℕ) (f : Client F → Option (Client F)) : Option (Feed F) :=
  match s.clients i with
  | some c => if c.held then (f c).map (s.setClient i) else none
  | none => none

def visit (s : Feed F) (i : ℕ) : Option (Feed F) :=
  match s.fanout with
  | .publishing block kept (j :: rest) =>
    if i ≠ j then none
    else if s.held i then
      some { s with
        clients := Function.update s.clients i ((s.clients i).map (·.push block))
        fanout := .publishing block (kept ++ [i]) rest }
    else some { s with fanout := .publishing block kept rest }
  | .closing (j :: rest) =>
    if i ≠ j then none
    else if s.held i then
      some { s with
        clients := Function.update s.clients i ((s.clients i).map (·.close (s.reached i)))
        fanout := .closing rest }
    else some { s with fanout := .closing rest }
  | _ => none

/-- `none` when the event is not possible here. A block is published after a vector of the process
has taken it, so there are fewer than `2 ^ 64`. -/
def step (s : Feed F) : FeedEvent F → Option (Feed F)
  | .subscribe i capacity =>
    match s.fanout, s.clients i with
    | .idle, none =>
      some { s.setClient i (.fresh capacity s.published.length) with
        subscribers := s.subscribers.filter s.held ++ [i] }
    | _, _ => none
  | .publish block =>
    match s.fanout with
    | .idle =>
      if s.published.length + 1 < 2 ^ 64 then
        some { s with
          fanout := .publishing block [] s.subscribers, published := s.published ++ [block] }
      else none
    | _ => none
  | .closeAll =>
    match s.fanout with
    | .idle => some { s with fanout := .closing s.subscribers }
    | _ => none
  | .visit i => s.visit i
  | .unlock =>
    match s.fanout with
    | .publishing _ kept [] => some { s with subscribers := kept, fanout := .idle }
    | .closing [] => some { s with subscribers := [], fanout := .idle }
    | _ => none
  | .next i => s.call i fun c => c.subscription.next.map c.take
  | .tryNext i => s.call i fun c => some (c.take c.subscription.tryNext)
  | .close i => s.call i fun c => some (c.close (s.reached i))
  | .drop i => s.call i fun c => some (c.drop (s.reached i))

def run (s : Feed F) (events : List (FeedEvent F)) : Option (Feed F) :=
  events.foldlM step s

/-- What a step can do. -/
inductive StepTo (s : Feed F) : FeedEvent F → Feed F → Prop
  | subscribe {i capacity : ℕ} (hidle : s.fanout = .idle) (hi : s.clients i = none) :
      StepTo s (.subscribe i capacity)
        { s.setClient i (.fresh capacity s.published.length) with
          subscribers := s.subscribers.filter s.held ++ [i] }
  | publish {block : Block F} (hidle : s.fanout = .idle)
      (hroom : s.published.length + 1 < 2 ^ 64) :
      StepTo s (.publish block) { s with
        fanout := .publishing block [] s.subscribers, published := s.published ++ [block] }
  | closeAll (hidle : s.fanout = .idle) :
      StepTo s .closeAll { s with fanout := .closing s.subscribers }
  | push {i : ℕ} {c : Client F} {block : Block F} {kept rest : List ℕ}
      (hf : s.fanout = .publishing block kept (i :: rest)) (hc : s.clients i = some c)
      (hheld : c.held = true) :
      StepTo s (.visit i) { s with
        clients := Function.update s.clients i (some (c.push block))
        fanout := .publishing block (kept ++ [i]) rest }
  | prune {i : ℕ} {block : Block F} {kept rest : List ℕ}
      (hf : s.fanout = .publishing block kept (i :: rest)) (hheld : s.held i = false) :
      StepTo s (.visit i) { s with fanout := .publishing block kept rest }
  | shut {i : ℕ} {c : Client F} {rest : List ℕ} (hf : s.fanout = .closing (i :: rest))
      (hc : s.clients i = some c) (hheld : c.held = true) :
      StepTo s (.visit i) { s with
        clients := Function.update s.clients i (some (c.close (s.reached i)))
        fanout := .closing rest }
  | pass {i : ℕ} {rest : List ℕ} (hf : s.fanout = .closing (i :: rest))
      (hheld : s.held i = false) : StepTo s (.visit i) { s with fanout := .closing rest }
  | published {block : Block F} {kept : List ℕ} (hf : s.fanout = .publishing block kept []) :
      StepTo s .unlock { s with subscribers := kept, fanout := .idle }
  | closed (hf : s.fanout = .closing []) :
      StepTo s .unlock { s with subscribers := [], fanout := .idle }
  | next {i : ℕ} {c : Client F} (hc : s.clients i = some c) :
      StepTo s (.next i) (s.setClient i (c.take c.subscription.tryNext))
  | tryNext {i : ℕ} {c : Client F} (hc : s.clients i = some c) :
      StepTo s (.tryNext i) (s.setClient i (c.take c.subscription.tryNext))
  | close {i : ℕ} {c : Client F} (hc : s.clients i = some c) :
      StepTo s (.close i) (s.setClient i (c.close (s.reached i)))
  | drop {i : ℕ} {c : Client F} (hc : s.clients i = some c) :
      StepTo s (.drop i) (s.setClient i (c.drop (s.reached i)))

theorem exists_of_held {s : Feed F} {i : ℕ} (h : s.held i = true) :
    ∃ c, s.clients i = some c ∧ c.held = true := by
  unfold held at h
  split at h
  · rename_i c hc
    exact ⟨c, hc, h⟩
  · cases h

theorem call_eq {s t : Feed F} {i : ℕ} {f : Client F → Option (Client F)}
    (h : s.call i f = some t) :
    ∃ c c', s.clients i = some c ∧ f c = some c' ∧ t = s.setClient i c' := by
  unfold call at h
  split at h
  · rename_i c hc
    rw [Option.ite_none_right_eq_some, Option.map_eq_some_iff] at h
    obtain ⟨-, c', hfc, rfl⟩ := h
    exact ⟨c, c', hc, hfc, rfl⟩
  · cases h

theorem visit_cases {s t : Feed F} {i : ℕ} (h : s.visit i = some t) : s.StepTo (.visit i) t := by
  unfold visit at h
  split at h
  · rename_i block kept j rest hf
    rw [Option.ite_none_left_eq_some, not_ne_iff] at h
    obtain ⟨rfl, h⟩ := h
    split_ifs at h with hheld
    · obtain ⟨c, hc, hheld⟩ := exists_of_held hheld
      rw [← Option.some.inj h, hc, Option.map_some]
      exact .push hf hc hheld
    · rw [← Option.some.inj h]
      exact .prune hf (Bool.not_eq_true _ ▸ hheld)
  · rename_i j rest hf
    rw [Option.ite_none_left_eq_some, not_ne_iff] at h
    obtain ⟨rfl, h⟩ := h
    split_ifs at h with hheld
    · obtain ⟨c, hc, hheld⟩ := exists_of_held hheld
      rw [← Option.some.inj h, hc, Option.map_some]
      exact .shut hf hc hheld
    · rw [← Option.some.inj h]
      exact .pass hf (Bool.not_eq_true _ ▸ hheld)
  · cases h

theorem step_cases {s t : Feed F} {e : FeedEvent F} (h : s.step e = some t) : s.StepTo e t := by
  cases e with
  | subscribe i capacity =>
    simp only [step] at h
    split at h
    · rename_i hidle hi
      rw [← Option.some.inj h]
      exact .subscribe hidle hi
    · cases h
  | publish block =>
    simp only [step] at h
    split at h
    · rename_i hidle
      rw [Option.ite_none_right_eq_some] at h
      rw [← Option.some.inj h.2]
      exact .publish hidle h.1
    · cases h
  | closeAll =>
    simp only [step] at h
    split at h
    · rename_i hidle
      rw [← Option.some.inj h]
      exact .closeAll hidle
    · cases h
  | visit i => exact visit_cases h
  | unlock =>
    simp only [step] at h
    split at h
    · rename_i hf
      rw [← Option.some.inj h]
      exact .published hf
    · rename_i hf
      rw [← Option.some.inj h]
      exact .closed hf
    · cases h
  | next i =>
    obtain ⟨c, c', hc, hnext, rfl⟩ := call_eq h
    rw [Client.eq_of_next hnext]
    exact .next hc
  | tryNext i =>
    obtain ⟨c, c', hc, htry, rfl⟩ := call_eq h
    rw [← Option.some.inj htry]
    exact .tryNext hc
  | close i =>
    obtain ⟨c, c', hc, hclose, rfl⟩ := call_eq h
    rw [← Option.some.inj hclose]
    exact .close hc
  | drop i =>
    obtain ⟨c, c', hc, hdrop, rfl⟩ := call_eq h
    rw [← Option.some.inj hdrop]
    exact .drop hc

end Feed

namespace Client

/-- What a client has to do with the blocks published so far, the first `reached` of them to it,
and with the list of subscribers. -/
structure Inv (published : List (Block F)) (reached : ℕ) (listed : Prop) (c : Client F) : Prop where
  capacity_pos : 0 < c.subscription.capacity
  queue : c.subscription.Inv c.subscription.capacity c.pushed c.delivered
  segment : c.pushed = (published.take (c.ended.getD reached)).drop c.opened
  opened_le : c.opened ≤ c.ended.getD reached
  ended_le : ∀ n, c.ended = some n → n ≤ published.length
  ended_none_iff : c.ended = none ↔ c.held = true ∧ c.subscription.closed = false
  listed : c.ended = none → listed

variable {published : List (Block F)} {n : ℕ} {listed : Prop} {c : Client F}

theorem inv_fresh (published : List (Block F)) {capacity : ℕ} (hpos : 0 < capacity)
    (hlisted : listed) :
    (fresh capacity published.length : Client F).Inv published published.length listed where
  capacity_pos := hpos
  queue := DropOldest.inv_empty
  segment := by simp [fresh]
  opened_le := le_rfl
  ended_le _ h := by simp [fresh] at h
  ended_none_iff := by simp [fresh, Handle.fresh, Subscription.new]
  listed _ := hlisted

theorem Inv.of_ended (hc : c.Inv published n listed) (hne : c.ended ≠ none) (m : ℕ) (l : Prop) :
    c.Inv published m l := by
  obtain ⟨k, hk⟩ := Option.ne_none_iff_exists'.mp hne
  have hseg := hc.segment
  have hop := hc.opened_le
  rw [hk, Option.getD_some] at hseg hop
  exact { hc with
    segment := by rw [hk, Option.getD_some, hseg]
    opened_le := by rw [hk, Option.getD_some]; exact hop
    listed := fun h => absurd h hne }

theorem Inv.ended_ne_none (hc : c.Inv published n listed) (hh : c.held = false) :
    c.ended ≠ none := by
  intro h
  rw [(hc.ended_none_iff.mp h).1] at hh
  exact Bool.noConfusion hh

theorem Inv.publish (hc : c.Inv published n listed) (hn : n ≤ published.length) (b : Block F) :
    c.Inv (published ++ [b]) n listed := by
  have hle : c.ended.getD n ≤ published.length := by
    cases he : c.ended with
    | none => exact hn
    | some k => exact hc.ended_le k he
  exact { hc with
    segment := by rw [List.take_append_of_le_length hle]; exact hc.segment
    ended_le := fun k hk => by
      rw [List.length_append]
      exact (hc.ended_le k hk).trans (Nat.le_add_right ..) }

theorem Inv.push {b : Block F} (hc : c.Inv (published ++ [b]) published.length listed)
    (hh : c.held = true) :
    (c.push b).Inv (published ++ [b]) (published.length + 1) listed := by
  cases hcl : c.subscription.closed with
  | true =>
    have hne : c.ended ≠ none := fun h => by
      rw [(hc.ended_none_iff.mp h).2] at hcl
      exact Bool.noConfusion hcl
    have hp : c.push b = c := by simp [Client.push, Handle.push, Subscription.push, hcl]
    rw [hp]
    exact hc.of_ended hne _ _
  | false =>
    have he : c.ended = none := hc.ended_none_iff.mpr ⟨hh, hcl⟩
    have hseg := hc.segment
    have hop := hc.opened_le
    rw [he, Option.getD_none] at hseg hop
    rw [List.take_left' rfl] at hseg
    have hp : c.push b = { c with
        subscription := { c.subscription with
          toDropOldest := c.subscription.toDropOldest.push c.subscription.capacity b }
        pushed := c.pushed ++ [b] } := by
      simp [Client.push, Handle.push, Subscription.push, hcl]
    rw [hp]
    exact {
      capacity_pos := hc.capacity_pos
      queue := hc.queue.push hc.capacity_pos b
      segment := by
        rw [he, Option.getD_none, List.take_of_length_le (by simp), hseg,
          List.drop_append_of_le_length hop]
      opened_le := by rw [he, Option.getD_none]; exact hop.trans (Nat.le_succ _)
      ended_le := hc.ended_le
      ended_none_iff := hc.ended_none_iff
      listed := hc.listed }

theorem Inv.take (hc : c.Inv published n listed) :
    (c.take c.subscription.tryNext).Inv published n listed :=
  { hc with queue := hc.queue.pop }

theorem Inv.close (hc : c.Inv published n listed) (hn : n ≤ published.length) (m : ℕ) (l : Prop) :
    (c.close n).Inv published m l where
  capacity_pos := hc.capacity_pos
  queue := hc.queue
  segment := hc.segment
  opened_le := hc.opened_le
  ended_le k hk := by
    cases he : c.ended with
    | none =>
      rw [Client.close, he] at hk
      exact (Option.some.inj hk) ▸ hn
    | some j =>
      rw [Client.close, he] at hk
      exact hc.ended_le k (he.trans hk)
  ended_none_iff := by simp [Client.close, Handle.close, Subscription.close]
  listed h := by simp [Client.close] at h

theorem Inv.drop (hc : c.Inv published n listed) (hn : n ≤ published.length) (m : ℕ) (l : Prop) :
    (c.drop n).Inv published m l :=
  { hc.close hn m l with ended_none_iff := by simp [Client.drop, Handle.drop] }

end Client

namespace Feed
variable {s t : Feed F} {i : ℕ}

def listed (s : Feed F) : List ℕ :=
  match s.fanout with
  | .idle => s.subscribers
  | .publishing _ kept rest => kept ++ rest
  | .closing rest => rest

structure Inv (s : Feed F) : Prop where
  nodup : s.listed.Nodup
  known : ∀ i ∈ s.listed, s.clients i ≠ none
  block : ∀ b kept rest, s.fanout = .publishing b kept rest → ∃ init, s.published = init ++ [b]
  client : ∀ i c, s.clients i = some c → c.Inv s.published (s.reached i) (i ∈ s.listed)
  length_lt : s.published.length < 2 ^ 64

theorem inv_initial : (initial : Feed F).Inv where
  nodup := List.nodup_nil
  known i hi := by simp [listed, initial] at hi
  block b kept rest h := by simp [initial] at h
  client i c h := by simp [initial] at h
  length_lt := Nat.two_pow_pos 64

theorem reached_le (s : Feed F) (i : ℕ) : s.reached i ≤ s.published.length := by
  unfold reached
  split
  · split_ifs <;> omega
  · exact le_rfl

theorem held_eq {c : Client F} (h : s.clients i = some c) : s.held i = c.held := by
  simp [held, h]

theorem reached_publishing {b : Block F} {kept rest : List ℕ}
    (h : s.fanout = .publishing b kept rest) (i : ℕ) :
    s.reached i = if i ∈ rest then s.published.length - 1 else s.published.length := by
  rw [reached, h]

theorem Inv.setClient {c : Client F} (hs : s.Inv)
    (hc : c.Inv s.published (s.reached i) (i ∈ s.listed)) : (s.setClient i c).Inv := by
  refine ⟨hs.nodup, fun j hj => ?_, hs.block, fun j d hd => ?_, hs.length_lt⟩
  · simp only [Feed.setClient, Function.update_apply]
    split_ifs
    · exact Option.some_ne_none _
    · exact hs.known j hj
  · simp only [Feed.setClient, Function.update_apply] at hd
    split_ifs at hd with hj
    · subst hj
      rw [← Option.some.inj hd]
      exact hc
    · exact hs.client j d hd

theorem Inv.subscribe {capacity : ℕ} (hs : s.Inv) (hpos : 0 < capacity) (hidle : s.fanout = .idle)
    (hi : s.clients i = none) :
    ({ s.setClient i (.fresh capacity s.published.length) with
      subscribers := s.subscribers.filter s.held ++ [i] } : Feed F).Inv := by
  have hl : s.listed = s.subscribers := by rw [listed, hidle]
  have hi' : i ∉ s.subscribers := fun hmem => hs.known i (hl ▸ hmem) hi
  have hr : ∀ j, s.reached j = s.published.length := fun j => by rw [reached, hidle]
  refine ⟨?_, fun j hj => ?_, fun b kept rest hb => ?_, fun j c hc => ?_, hs.length_lt⟩
  · simp only [listed, Feed.setClient, hidle]
    refine List.Nodup.append ((hl ▸ hs.nodup).filter _) (List.nodup_singleton i) ?_
    rw [List.disjoint_singleton]
    exact fun hmem => hi' (List.mem_of_mem_filter hmem)
  · simp only [Feed.setClient, Function.update_apply]
    split_ifs with hji
    · exact Option.some_ne_none _
    · simp only [listed, Feed.setClient, hidle, List.mem_append, List.mem_filter,
        List.mem_singleton, hji, or_false] at hj
      exact hs.known j (hl ▸ hj.1)
  · simp [Feed.setClient, hidle] at hb
  · simp only [Feed.setClient, Function.update_apply] at hc
    simp only [listed, reached, Feed.setClient, hidle, List.mem_append, List.mem_filter,
      List.mem_singleton]
    split_ifs at hc with hji
    · rw [← Option.some.inj hc]
      exact Client.inv_fresh _ hpos (.inr hji)
    · have hj := hs.client j c hc
      rw [hr, hl] at hj
      refine { hj with listed := fun he => .inl ⟨hj.listed he, ?_⟩ }
      rw [held_eq hc]
      exact (hj.ended_none_iff.mp he).1

theorem Inv.publish {b : Block F} (hs : s.Inv) (hidle : s.fanout = .idle)
    (hroom : s.published.length + 1 < 2 ^ 64) :
    ({ s with
      fanout := .publishing b [] s.subscribers, published := s.published ++ [b] } : Feed F).Inv := by
  have hl : s.listed = s.subscribers := by rw [listed, hidle]
  refine ⟨hl ▸ hs.nodup, fun j hj => hs.known j (hl ▸ hj), fun c kept rest hb => ?_,
    fun j c hc => ?_, by simpa using hroom⟩
  · simp only [Fanout.publishing.injEq] at hb
    exact ⟨s.published, by rw [hb.1]⟩
  · have hj := hs.client j c hc
    have hr : s.reached j = s.published.length := by rw [reached, hidle]
    rw [hr, hl] at hj
    have hp := hj.publish le_rfl b
    simp only [reached, listed, List.nil_append, List.length_append, List.length_singleton,
      Nat.add_sub_cancel]
    split_ifs with hmem
    · exact hp
    · exact hp.of_ended (fun he => hmem (hj.listed he)) _ _

theorem Inv.of_listed {subscribers : List ℕ} {fanout : Fanout F} (hs : s.Inv)
    (hpublishing : ∀ b kept rest, fanout ≠ .publishing b kept rest)
    (hlisted : ({ s with subscribers, fanout } : Feed F).listed = s.listed)
    (hreached : ∀ j, s.reached j = s.published.length) :
    ({ s with subscribers, fanout } : Feed F).Inv := by
  refine ⟨hlisted ▸ hs.nodup, fun j hj => hs.known j (hlisted ▸ hj),
    fun b kept rest hb => absurd hb (hpublishing b kept rest), fun j c hc => ?_, hs.length_lt⟩
  have hj := hs.client j c hc
  have hr : ({ s with subscribers, fanout } : Feed F).reached j = s.published.length := by
    unfold reached
    split
    · rename_i b kept rest hb
      exact absurd hb (hpublishing b kept rest)
    · rfl
  rw [hreached, ← hlisted] at hj
  rw [hr]
  exact hj

theorem Inv.visit_publishing {b : Block F} {kept rest kept' : List ℕ} (hs : s.Inv)
    (hf : s.fanout = .publishing b kept (i :: rest)) {clients : ℕ → Option (Client F)}
    (hclients : ∀ j, j ≠ i → clients j = s.clients j)
    (hkept : kept' = kept ∨ kept' = kept ++ [i] ∧ clients i ≠ none)
    (hi : ∀ c, clients i = some c →
      c.Inv s.published s.published.length (i ∈ kept' ++ rest)) :
    ({ s with clients := clients, fanout := .publishing b kept' rest } : Feed F).Inv := by
  have hl : s.listed = kept ++ i :: rest := by rw [listed, hf]
  have hnodup : (kept ++ i :: rest).Nodup := hl ▸ hs.nodup
  have hirest : i ∉ rest := (List.nodup_cons.mp (List.Nodup.of_append_right hnodup)).1
  have hmem : ∀ j, j ≠ i → (j ∈ kept' ++ rest ↔ j ∈ s.listed) := fun j hj => by
    rcases hkept with rfl | ⟨rfl, -⟩ <;> simp [hl, hj]
  refine ⟨?_, fun j hj => ?_, fun c k r hb => ?_, fun j c hc => ?_, hs.length_lt⟩
  · rcases hkept with rfl | ⟨rfl, -⟩
    · exact hnodup.sublist ((List.sublist_cons_self i rest).append_left kept')
    · simpa [listed] using hnodup
  · by_cases hji : j = i
    · subst hji
      rcases hkept with rfl | ⟨-, hne⟩
      · exact absurd hj fun hm => (List.mem_append.mp hm).elim
          (fun h => (List.disjoint_of_nodup_append hnodup) h List.mem_cons_self) hirest
      · exact hne
    · show clients j ≠ none
      rw [hclients j hji]
      exact hs.known j ((hmem j hji).mp hj)
  · simp only [Fanout.publishing.injEq] at hb
    obtain ⟨rfl, -, -⟩ := hb
    exact hs.block _ _ _ hf
  · by_cases hji : j = i
    · subst hji
      simp only [reached, if_neg hirest]
      exact hi c hc
    · have hj := hs.client j c ((hclients j hji).symm.trans hc)
      simp only [reached_publishing hf, List.mem_cons, or_iff_right hji] at hj
      simp only [reached]
      exact { hj with listed := fun he => (hmem j hji).mpr (hj.listed he) }

theorem Inv.visit_closing {rest : List ℕ} (hs : s.Inv) (hf : s.fanout = .closing (i :: rest))
    {clients : ℕ → Option (Client F)} (hclients : ∀ j, j ≠ i → clients j = s.clients j)
    (hi : ∀ c, clients i = some c → c.Inv s.published s.published.length (i ∈ rest)) :
    ({ s with clients := clients, fanout := .closing rest } : Feed F).Inv := by
  have hl : s.listed = i :: rest := by rw [listed, hf]
  have hnodup := List.nodup_cons.mp (hl ▸ hs.nodup)
  have hr : ∀ j, s.reached j = s.published.length := fun j => by rw [reached, hf]
  refine ⟨hnodup.2, fun j hj => ?_, fun c k r hb => ?_, fun j c hc => ?_, hs.length_lt⟩
  · have hji : j ≠ i := fun h => hnodup.1 (h ▸ hj)
    show clients j ≠ none
    rw [hclients j hji]
    exact hs.known j (hl ▸ List.mem_cons_of_mem i hj)
  · cases hb
  · by_cases hji : j = i
    · subst hji
      exact hi c hc
    · have hj := hs.client j c ((hclients j hji).symm.trans hc)
      rw [hr, hl, List.mem_cons, or_iff_right hji] at hj
      exact hj

theorem Inv.push {c : Client F} {b : Block F} {kept rest : List ℕ} (hs : s.Inv)
    (hf : s.fanout = .publishing b kept (i :: rest)) (hc : s.clients i = some c)
    (hheld : c.held = true) :
    ({ s with
      clients := Function.update s.clients i (some (c.push b))
      fanout := .publishing b (kept ++ [i]) rest } : Feed F).Inv := by
  obtain ⟨init, hinit⟩ := hs.block _ _ _ hf
  refine hs.visit_publishing hf (fun j hj => Function.update_of_ne hj _ _)
    (.inr ⟨rfl, by simp⟩) fun d hd => ?_
  rw [Function.update_self, Option.some.injEq] at hd
  have hci := hs.client i c hc
  rw [reached_publishing hf, if_pos List.mem_cons_self, hinit, List.length_append,
    List.length_singleton, Nat.add_sub_cancel] at hci
  rw [← hd, hinit, List.length_append, List.length_singleton]
  exact { hci.push hheld with listed := fun _ => by simp }

theorem Inv.step (hs : s.Inv) {e : FeedEvent F}
    (hpos : ∀ i capacity, e = .subscribe i capacity → 1 ≤ capacity) (h : s.step e = some t) :
    t.Inv := by
  have hended : ∀ {i c}, s.clients i = some c → s.held i = false → c.ended ≠ none := by
    intro i c hc hheld
    rw [held_eq hc] at hheld
    exact (hs.client i c hc).ended_ne_none hheld
  cases step_cases h with
  | @subscribe i capacity hidle hi => exact hs.subscribe (hpos i capacity rfl) hidle hi
  | publish hidle hroom => exact hs.publish hidle hroom
  | closeAll hidle =>
    apply hs.of_listed
    · rintro b kept rest ⟨⟩
    · rw [listed, listed, hidle]
    · intro j
      rw [reached, hidle]
  | push hf hc hheld => exact hs.push hf hc hheld
  | prune hf hheld =>
    refine hs.visit_publishing hf (fun _ _ => rfl) (.inl rfl) fun c hc => ?_
    exact (hs.client _ c hc).of_ended (hended hc hheld) _ _
  | @shut i c rest hf hc hheld =>
    refine hs.visit_closing hf (fun j hj => Function.update_of_ne hj _ _) fun d hd => ?_
    rw [Function.update_self, Option.some.injEq] at hd
    rw [← hd]
    exact (hs.client i c hc).close (reached_le s i) _ _
  | pass hf hheld =>
    refine hs.visit_closing hf (fun _ _ => rfl) fun c hc => ?_
    exact (hs.client _ c hc).of_ended (hended hc hheld) _ _
  | published hf =>
    apply hs.of_listed
    · rintro b kept rest ⟨⟩
    · rw [listed, listed, hf]
      exact (List.append_nil _).symm
    · intro j
      rw [reached_publishing hf, if_neg List.not_mem_nil]
  | closed hf =>
    apply hs.of_listed
    · rintro b kept rest ⟨⟩
    · rw [listed, listed, hf]
    · intro j
      rw [reached, hf]
  | @next i c hc | @tryNext i c hc => exact hs.setClient (hs.client i c hc).take
  | @close i c hc => exact hs.setClient ((hs.client i c hc).close (reached_le s i) _ _)
  | @drop i c hc => exact hs.setClient ((hs.client i c hc).drop (reached_le s i) _ _)

theorem Inv.run {events : List (FeedEvent F)} (hs : s.Inv)
    (hpos : ∀ i capacity, .subscribe i capacity ∈ events → 1 ≤ capacity)
    (h : s.run events = some t) : t.Inv := by
  induction events generalizing s with
  | nil => exact Option.some.inj h ▸ hs
  | cons e events ih =>
    rw [Feed.run, List.foldlM_cons, Option.bind_eq_bind, Option.bind_eq_some_iff] at h
    obtain ⟨u, hu, h⟩ := h
    refine ih (hs.step (fun i capacity he => ?_) hu) (fun i capacity he => ?_) h
    · exact hpos i capacity (he ▸ List.mem_cons_self)
    · exact hpos i capacity (List.mem_cons_of_mem e he)

end Feed

namespace Feed
variable {s t : Feed F} {i j : ℕ}

theorem step_published {e : FeedEvent F} (h : s.step e = some t) :
    s.published <+: t.published := by
  cases step_cases h with
  | publish => exact List.prefix_append _ _
  | subscribe | closeAll | push | prune | shut | pass | published | closed | next | tryNext | close
  | drop => exact List.prefix_rfl

theorem subscribe_eq {capacity : ℕ} (h : s.step (.subscribe i capacity) = some t) :
    t.published = s.published ∧ t.clients i = some (.fresh capacity s.published.length) := by
  cases step_cases h with
  | subscribe => exact ⟨rfl, Function.update_self ..⟩

theorem next_eq {c : Client F} (hc : s.clients i = some c) (h : s.step (.next i) = some t) :
    t.clients i = some (c.take c.subscription.tryNext) := by
  cases step_cases h with
  | next hd =>
    obtain rfl := Option.some.inj (hc.symm.trans hd)
    exact Function.update_self ..

theorem update_account {c d : Client F} (hc : s.clients j = some c)
    (hd : j = i → d.account = c.account) :
    (Function.update s.clients j (some d) i).map Client.account =
      (s.clients i).map Client.account := by
  by_cases hji : j = i
  · have hsame := hd hji
    subst hji
    rw [Function.update_self, hc, Option.map_some, Option.map_some, hsame]
  · rw [Function.update_of_ne (Ne.symm hji)]

/-- Only its own calls of `next` and `try_next` hand a client anything. -/
theorem step_account {e : FeedEvent F} (h : s.step e = some t) (hi : s.clients i ≠ none)
    (hnext : e ≠ .next i) (htry : e ≠ .tryNext i) :
    (t.clients i).map Client.account = (s.clients i).map Client.account := by
  cases step_cases h with
  | @subscribe j capacity _ hj =>
    have hji : i ≠ j := by
      rintro rfl
      exact hi hj
    simp [setClient, Function.update_of_ne hji]
  | publish | closeAll | prune | pass | published | closed => rfl
  | push _ hc _ | shut _ hc _ => exact update_account hc fun _ => rfl
  | next hc => exact update_account hc fun hj => absurd (congrArg _ hj) hnext
  | tryNext hc => exact update_account hc fun hj => absurd (congrArg _ hj) htry
  | close hc | drop hc => exact update_account hc fun _ => rfl

end Feed
end Ledger

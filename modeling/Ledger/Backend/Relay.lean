import Ledger.Backend.Hub
import Ledger.Core.Integrity

/-! The live feed on its way to the browsers: storage-core, the connection of the block feed, which
may be lost and opened again, and the hub. -/
namespace Ledger.Backend
open Text Json
variable {F : Type} [NumberFloat F]

def defaultCapacity : ℕ :=
  64

/-- A connection of `BlockFeed`: the client it is to storage-core, and the messages on the way. -/
structure Link where
  client : ℕ
  wire : List Bytes

/-- `told` is how far in `published` the frames broadcast since the last connect have come. -/
structure Relay (F : Type) [NumberFloat F] where
  feed : Feed F
  link : Option Link
  told : ℕ
  browsers : ℕ → Option (Browser F)

inductive RelayEvent (F : Type) [NumberFloat F]
  /-- An event of storage-core that is not one of the connection. -/
  | storage (e : FeedEvent F)
  /-- `BlockFeed` connects, and storage-core subscribes it as `client`. -/
  | connect (client : ℕ)
  /-- One turn of `pump_loop` for the connection. -/
  | pump
  /-- `BlockFeed` takes a message off the wire. -/
  | receive (device : Bytes → Json F)
  | disconnect
  | openSocket (i : ℕ)
  | closeSocket (i : ℕ)
  /-- One turn of the `pump` of a socket. -/
  | send (i : ℕ)

namespace Relay

def initial : Relay F :=
  ⟨.initial, none, 0, fun _ => none⟩

/-- `on_open` alone subscribes, and a connection's pump alone calls `next` for it. -/
def allows (s : Relay F) : FeedEvent F → Bool
  | .subscribe _ capacity => capacity = defaultCapacity
  | .next i | .tryNext i => s.link.all fun link => link.client ≠ i
  | _ => true

def pump (s : Relay F) (link : Link) : Option (Relay F) :=
  match s.feed.clients link.client with
  | some c => (s.feed.step (.next link.client)).map fun feed =>
      { s with
        feed
        link := some { link with
          wire := link.wire ++ c.subscription.tryNext.1.toList.flatMap pumpItem } }
  | none => none

def broadcast (s : Relay F) (frame : HubFrame F) : Relay F :=
  { s with
    told := s.told + frame.mark.width
    browsers := fun i => (s.browsers i).map (·.put frame) }

def receive (s : Relay F) (device : Bytes → Json F) (client : ℕ) (message : Bytes)
    (wire : List Bytes) : Relay F :=
  match dispatch device message with
  | .ignored => { s with link := some ⟨client, wire⟩ }
  | .broadcast frame => { s with link := some ⟨client, wire⟩ }.broadcast frame
  | .raised => { s with link := none }

/-- `none` when the event is not possible here. -/
def step (s : Relay F) : RelayEvent F → Option (Relay F)
  | .storage e =>
    if s.allows e then (s.feed.step e).map fun feed => { s with feed } else none
  | .connect client =>
    match s.link with
    | none => (s.feed.step (.subscribe client defaultCapacity)).map fun feed =>
        { s with feed, link := some ⟨client, []⟩, told := s.feed.published.length }
    | some _ => none
  | .pump => s.link.bind s.pump
  | .receive device =>
    match s.link with
    | some ⟨client, message :: wire⟩ => some (s.receive device client message wire)
    | _ => none
  | .disconnect => s.link.map fun _ => { s with link := none }
  | .openSocket i =>
    match s.browsers i with
    | none => some { s with browsers := Function.update s.browsers i (some .fresh) }
    | some _ => none
  | .closeSocket i => some { s with browsers := Function.update s.browsers i none }
  | .send i => ((s.browsers i).bind Browser.send).map fun b =>
      { s with browsers := Function.update s.browsers i (some b) }

def run (s : Relay F) (events : List (RelayEvent F)) : Option (Relay F) :=
  events.foldlM step s

/-- `P` holds of the state before each event of the run. -/
def Throughout (P : Relay F → RelayEvent F → Prop) : Relay F → List (RelayEvent F) → Prop
  | _, [] => True
  | s, e :: events => P s e ∧ ∀ t, s.step e = some t → Throughout P t events

/-- What a step can do. -/
inductive StepTo (s : Relay F) : RelayEvent F → Relay F → Prop
  | storage {e : FeedEvent F} {feed : Feed F} (hallows : s.allows e = true)
      (hfeed : s.feed.step e = some feed) : StepTo s (.storage e) { s with feed }
  | connect {client : ℕ} {feed : Feed F} (hlink : s.link = none)
      (hfeed : s.feed.step (.subscribe client defaultCapacity) = some feed) :
      StepTo s (.connect client)
        { s with feed, link := some ⟨client, []⟩, told := s.feed.published.length }
  | pump {link : Link} {c : Client F} {feed : Feed F} (hlink : s.link = some link)
      (hc : s.feed.clients link.client = some c)
      (hfeed : s.feed.step (.next link.client) = some feed) :
      StepTo s .pump { s with
        feed
        link := some { link with
          wire := link.wire ++ c.subscription.tryNext.1.toList.flatMap pumpItem } }
  | receive {device : Bytes → Json F} {client : ℕ} {message : Bytes} {wire : List Bytes}
      (hlink : s.link = some ⟨client, message :: wire⟩) :
      StepTo s (.receive device) (s.receive device client message wire)
  | disconnect : StepTo s .disconnect { s with link := none }
  | openSocket {i : ℕ} (hi : s.browsers i = none) :
      StepTo s (.openSocket i) { s with browsers := Function.update s.browsers i (some .fresh) }
  | closeSocket {i : ℕ} :
      StepTo s (.closeSocket i) { s with browsers := Function.update s.browsers i none }
  | send {i : ℕ} {b b' : Browser F} (hb : s.browsers i = some b) (hsend : b.send = some b') :
      StepTo s (.send i) { s with browsers := Function.update s.browsers i (some b') }

theorem step_cases {s t : Relay F} {e : RelayEvent F} (h : s.step e = some t) :
    s.StepTo e t := by
  cases e with
  | storage e =>
    simp only [step, Option.ite_none_right_eq_some, Option.map_eq_some_iff] at h
    obtain ⟨hallows, feed, hfeed, rfl⟩ := h
    exact .storage hallows hfeed
  | connect client =>
    simp only [step] at h
    split at h
    · rename_i hlink
      rw [Option.map_eq_some_iff] at h
      obtain ⟨feed, hfeed, rfl⟩ := h
      exact .connect hlink hfeed
    · cases h
  | pump =>
    simp only [step, Option.bind_eq_some_iff] at h
    obtain ⟨link, hlink, h⟩ := h
    unfold Relay.pump at h
    split at h
    · rename_i c hc
      rw [Option.map_eq_some_iff] at h
      obtain ⟨feed, hfeed, rfl⟩ := h
      exact .pump hlink hc hfeed
    · cases h
  | receive device =>
    simp only [step] at h
    split at h
    · rename_i hlink
      rw [← Option.some.inj h]
      exact .receive hlink
    · cases h
  | disconnect =>
    rw [step, Option.map_eq_some_iff] at h
    obtain ⟨link, -, rfl⟩ := h
    exact .disconnect
  | openSocket i =>
    simp only [step] at h
    split at h
    · rename_i hi
      rw [← Option.some.inj h]
      exact .openSocket hi
    · cases h
  | closeSocket i =>
    rw [← Option.some.inj h]
    exact .closeSocket
  | send i =>
    rw [step, Option.map_eq_some_iff] at h
    obtain ⟨b', hb', rfl⟩ := h
    obtain ⟨b, hb, hsend⟩ := Option.bind_eq_some_iff.mp hb'
    exact .send hb hsend

end Relay

/-- How far in `published` a client has been taken by what it has been handed. -/
def reach (c : Client F) : ℕ :=
  c.opened + (c.delivered.map fun d => d.lagged + 1).sum

theorem reach_eq_of_account {c d : Client F} (h : c.account = d.account) : reach c = reach d := by
  obtain ⟨hopened, hdelivered⟩ := Prod.mk.inj h
  rw [reach, reach, hopened, hdelivered]

section Reach
variable {published : List (Block F)} {n : ℕ} {listed : Prop} {c : Client F}

theorem reach_le (hc : c.Inv published n listed) (hn : n ≤ published.length) :
    reach c ≤ published.length := by
  have hended : c.ended.getD n ≤ published.length := by
    cases he : c.ended with
    | none => exact hn
    | some k => exact hc.ended_le k he
  have hlen : c.pushed.length = (c.delivered.map fun d => d.lagged + 1).sum +
      (c.subscription.lagged + c.subscription.buffer.length) := hc.queue.accounts_left
  have hopened := hc.opened_le
  rw [hc.segment, List.length_drop, List.length_take] at hlen
  unfold reach
  omega

theorem getElem?_reach (hc : c.Inv published n listed) {item : Item F}
    (h : c.subscription.tryNext.1 = some item) :
    published[reach c + item.lagged]? = some item.value := by
  obtain ⟨gap, -, hacc⟩ := hc.take.queue.accounts
  have hdelivered : (c.take c.subscription.tryNext).delivered = c.delivered ++ [item] := by
    simp only [Client.take, Handle.take]
    rw [h]
    rfl
  rw [hdelivered] at hacc
  have hlast := hacc.getElem?_last
  rw [show (c.take c.subscription.tryNext).pushed = c.pushed from rfl, hc.segment,
    List.getElem?_drop, ← Nat.add_assoc] at hlast
  rw [List.getElem?_take, Option.ite_none_right_eq_some] at hlast
  exact hlast.2

theorem reach_take {item : Item F} (h : c.subscription.tryNext.1 = some item) :
    reach (c.take c.subscription.tryNext) = reach c + (item.lagged + 1) := by
  unfold reach
  simp only [Client.take, Handle.take]
  rw [h]
  simp only [Option.toList_some, List.map_append, List.map_cons, List.map_nil, List.sum_append,
    List.sum_cons, List.sum_nil]
  omega

theorem reach_take_none (h : c.subscription.tryNext.1 = none) :
    reach (c.take c.subscription.tryNext) = reach c := by
  unfold reach
  simp only [Client.take, Handle.take]
  rw [h, Option.toList_none, List.append_nil]

end Reach

namespace Relay
variable {s t : Relay F}

/-- The messages on the wire take the backend from what it has been told to what storage-core has
handed over. -/
structure Inv (s : Relay F) : Prop where
  feed : s.feed.Inv
  link : ∀ link, s.link = some link → ∃ c marks, s.feed.clients link.client = some c ∧
    link.wire = marks.map frameText ∧ Follows s.feed.published s.told marks (reach c)

theorem inv_initial : (initial : Relay F).Inv where
  feed := Feed.inv_initial
  link link h := by cases h

theorem Inv.storage (hs : s.Inv) {e : FeedEvent F} {feed : Feed F} (hallows : s.allows e = true)
    (hfeed : s.feed.step e = some feed) : ({ s with feed } : Relay F).Inv := by
  constructor
  · apply hs.feed.step _ hfeed
    rintro i capacity rfl
    have hcapacity : capacity = defaultCapacity := by simpa [allows] using hallows
    rw [hcapacity]
    decide
  · intro link hlink
    obtain ⟨c, marks, hc, hwire, hmarks⟩ := hs.link link hlink
    have hnot : ∀ i, e = .next i ∨ e = .tryNext i → link.client ≠ i := by
      rintro i (rfl | rfl) <;> simpa [allows, show s.link = some link from hlink] using hallows
    have haccount := Feed.step_account hfeed (i := link.client) (by simp [hc])
      (fun he => hnot _ (.inl he) rfl) (fun he => hnot _ (.inr he) rfl)
    rw [hc, Option.map_some, Option.map_eq_some_iff] at haccount
    obtain ⟨d, hd, haccount⟩ := haccount
    refine ⟨d, marks, hd, hwire, ?_⟩
    rw [reach_eq_of_account haccount]
    exact hmarks.grow (Feed.step_published hfeed)

theorem Inv.connect (hs : s.Inv) {client : ℕ} {feed : Feed F}
    (hfeed : s.feed.step (.subscribe client defaultCapacity) = some feed) :
    ({ s with feed, link := some ⟨client, []⟩, told := s.feed.published.length } : Relay F).Inv := by
  obtain ⟨hpublished, hclient⟩ := Feed.subscribe_eq hfeed
  constructor
  · apply hs.feed.step _ hfeed
    rintro i capacity ⟨⟩
    decide
  · rintro link ⟨⟩
    exact ⟨_, [], hclient, rfl, .nil _⟩

theorem Inv.pump (hs : s.Inv) (hwf : ∀ b ∈ s.feed.published, b.WellFormed) {link : Link}
    {c : Client F} {feed : Feed F} (hlink : s.link = some link)
    (hc : s.feed.clients link.client = some c)
    (hfeed : s.feed.step (.next link.client) = some feed) :
    ({ s with
      feed
      link := some { link with
        wire := link.wire ++ c.subscription.tryNext.1.toList.flatMap pumpItem } } : Relay F).Inv := by
  obtain ⟨d, marks, hd, hwire, hmarks⟩ := hs.link link hlink
  obtain rfl := Option.some.inj (hc.symm.trans hd)
  have htaken : feed.clients link.client = some (c.take c.subscription.tryNext) :=
    Feed.next_eq hc hfeed
  have hpublished := Feed.step_published hfeed
  constructor
  · exact hs.feed.step (fun i capacity he => by cases he) hfeed
  · rintro link' ⟨⟩
    cases hitem : c.subscription.tryNext.1 with
    | none =>
      refine ⟨_, marks, htaken, ?_, ?_⟩
      · simpa using hwire
      · rw [reach_take_none hitem]
        exact hmarks.grow hpublished
    | some item =>
      have hvalue := getElem?_reach (hs.feed.client _ c hc) hitem
      have hlt : item.lagged < 2 ^ 64 := by
        have hlen := (List.getElem?_eq_some_iff.mp hvalue).1
        have hlong := hs.feed.length_lt
        omega
      refine ⟨_, marks ++ item.marks, htaken, ?_, ?_⟩
      · rw [List.map_append, ← pumpItem_eq (hwf _ (List.mem_of_getElem? hvalue)) hlt, hwire]
        simp
      · rw [reach_take hitem]
        exact (hmarks.append (.delivery hvalue)).grow hpublished

/-- What a message does: the hub broadcasts what the first mark on the wire says. -/
structure Received (s t : Relay F) (frame : HubFrame F) : Prop where
  inv : t.Inv
  feed : t.feed = s.feed
  browsers : t.browsers = fun i => (s.browsers i).map (·.put frame)
  follows : Follows (s.feed.published.map Block.members) s.told [frame.mark] t.told

theorem Inv.receive [LawfulNumberFloat F] (hs : s.Inv)
    (hwf : ∀ b ∈ s.feed.published, b.WellFormed) (device : Bytes → Json F) {client : ℕ}
    {message : Bytes} {wire : List Bytes} (hlink : s.link = some ⟨client, message :: wire⟩) :
    ∃ frame, Received s (s.receive device client message wire) frame := by
  obtain ⟨c, marks, hc, hwire, hmarks⟩ := hs.link _ hlink
  obtain ⟨m, rest, rfl, rfl, rfl⟩ := List.map_eq_cons_iff.mp hwire.symm
  have hreach : reach c < 2 ^ 64 :=
    (reach_le (hs.feed.client _ c hc) (Feed.reached_le ..)).trans_lt hs.feed.length_lt
  obtain ⟨frame, hdispatch, hmark⟩ := dispatch_frameText device hwf hreach hmarks
  obtain ⟨hfirst, hrest⟩ := Follows.cons_iff.mp hmarks
  have hwidth : frame.mark.width = m.width := by rw [hmark, Mark.width_map]
  rw [Relay.receive, hdispatch]
  refine ⟨frame, ⟨hs.feed, ?_⟩, rfl, rfl, ?_⟩
  · rintro link ⟨⟩
    refine ⟨c, rest, hc, rfl, ?_⟩
    rw [← hwidth] at hrest
    exact hrest
  · have hmapped := hfirst.map Block.members
    rw [List.map_singleton, ← hmark, ← hwidth] at hmapped
    exact hmapped

theorem Inv.step [LawfulNumberFloat F] (hs : s.Inv) (hwf : ∀ b ∈ s.feed.published, b.WellFormed)
    {e : RelayEvent F} (h : s.step e = some t) : t.Inv := by
  cases step_cases h with
  | storage hallows hfeed => exact hs.storage hallows hfeed
  | connect _ hfeed => exact hs.connect hfeed
  | pump hlink hc hfeed => exact hs.pump hwf hlink hc hfeed
  | @receive device _ _ _ hlink =>
    obtain ⟨frame, hreceived⟩ := hs.receive hwf device hlink
    exact hreceived.inv
  | disconnect => exact ⟨hs.feed, fun link h => by cases h⟩
  | openSocket | closeSocket | send => exact ⟨hs.feed, hs.link⟩

theorem step_published {e : RelayEvent F} (h : s.step e = some t) :
    s.feed.published <+: t.feed.published := by
  cases step_cases h with
  | storage _ hfeed | connect _ hfeed | pump _ _ hfeed => exact Feed.step_published hfeed
  | @receive device client message wire =>
    have hfeed : (s.receive device client message wire).feed = s.feed := by
      unfold Relay.receive
      split <;> rfl
    rw [hfeed]
  | disconnect | openSocket | closeSocket | send => exact List.prefix_rfl

theorem run_published {events : List (RelayEvent F)} (h : s.run events = some t) :
    s.feed.published <+: t.feed.published := by
  induction events generalizing s with
  | nil => rw [← Option.some.inj h]
  | cons e events ih =>
    rw [Relay.run, List.foldlM_cons, Option.bind_eq_bind, Option.bind_eq_some_iff] at h
    obtain ⟨u, hu, h⟩ := h
    exact (step_published hu).trans (ih h)

end Relay

namespace Relay
variable {s t : Relay F} {i : ℕ}

/-- From its first block on, the frames of a browser leave nothing out that they do not count. -/
def Served (i : ℕ) (s : Relay F) : Prop :=
  ∀ b, s.browsers i = some b →
    Settled (s.feed.published.map Block.members) (b.frames.map HubFrame.mark) s.told

/-- The event loses nothing behind the back of browser `i`. Two may: a message, where the queue of
the browser is full and it has got a block, and a connect behind blocks that no frame has told of,
where the browser has got a block or is to get one. -/
def Lossless (i : ℕ) (s : Relay F) : RelayEvent F → Prop
  | .receive _ => ∀ b, s.browsers i = some b →
      b.subscription.queue.length < queueCapacity ∨ ∀ frame ∈ b.received, frame.IsNotice
  | .connect _ => ∀ b, s.browsers i = some b →
      s.told = s.feed.published.length ∨ ∀ frame ∈ b.frames, frame.IsNotice
  | _ => True

theorem served_initial (i : ℕ) : (initial : Relay F).Served i := by
  intro b hb
  cases hb

theorem Served.of_eq (hs : s.Served i) (hpublished : s.feed.published <+: t.feed.published)
    (htold : t.told = s.told) (hbrowsers : t.browsers i = s.browsers i) : t.Served i := by
  intro b hb
  rw [hbrowsers] at hb
  rw [htold]
  exact (hs b hb).grow (hpublished.map _)

theorem Served.connect (hs : s.Served i) {client : ℕ} (hl : s.Lossless i (.connect client))
    {feed : Feed F} (hfeed : s.feed.step (.subscribe client defaultCapacity) = some feed) :
    ({ s with feed, link := some ⟨client, []⟩, told := s.feed.published.length } : Relay F).Served
      i := by
  intro b hb
  rw [show Feed.published feed = s.feed.published from (Feed.subscribe_eq hfeed).1]
  rcases hl b hb with htold | hnotices
  · show Settled _ _ s.feed.published.length
    rw [← htold]
    exact hs b hb
  · exact .of_gaps (HubFrame.mark_of_isNotice hnotices) _

theorem Served.receive (hs : s.Served i) {frame : HubFrame F} {device : Bytes → Json F}
    (hl : s.Lossless i (.receive device)) (h : Received s t frame) : t.Served i := by
  intro b' hb'
  rw [h.browsers, Option.map_eq_some_iff] at hb'
  obtain ⟨b, hb, rfl⟩ := hb'
  rw [h.feed]
  exact Browser.settled_put (hs b hb) h.follows (hl b hb)

theorem Served.update (hs : s.Served i) {j : ℕ} {b? : Option (Browser F)}
    (h : ∀ b, b? = some b → i = j →
      Settled (s.feed.published.map Block.members) (b.frames.map HubFrame.mark) s.told) :
    ({ s with browsers := Function.update s.browsers j b? } : Relay F).Served i := by
  intro b hb
  simp only [Function.update_apply] at hb
  split_ifs at hb with hij
  · exact h b hb hij
  · exact hs b hb

theorem Served.step [LawfulNumberFloat F] (hinv : s.Inv) (hs : s.Served i)
    (hwf : ∀ b ∈ s.feed.published, b.WellFormed) {e : RelayEvent F} (hl : s.Lossless i e)
    (h : s.step e = some t) : t.Served i := by
  have hpublished := step_published h
  cases step_cases h with
  | storage | pump | disconnect => exact hs.of_eq hpublished rfl rfl
  | connect _ hfeed => exact hs.connect hl hfeed
  | @receive device _ _ _ hlink =>
    obtain ⟨frame, hreceived⟩ := hinv.receive hwf device hlink
    exact hs.receive hl hreceived
  | openSocket =>
    apply hs.update
    rintro b ⟨⟩ -
    exact .of_gaps (fun m hm => by cases hm) _
  | closeSocket =>
    apply hs.update
    rintro b ⟨⟩
  | @send _ b _ hb hsend =>
    apply hs.update
    rintro c ⟨⟩ rfl
    rw [Browser.frames_send hsend]
    exact hs b hb

theorem Served.run [LawfulNumberFloat F] {events : List (RelayEvent F)} (hinv : s.Inv)
    (hs : s.Served i) (hl : s.Throughout (Lossless i) events) (h : s.run events = some t)
    (hwf : ∀ b ∈ t.feed.published, b.WellFormed) : t.Served i := by
  induction events generalizing s with
  | nil => exact Option.some.inj h ▸ hs
  | cons e events ih =>
    have hwf' : ∀ b ∈ s.feed.published, b.WellFormed := fun b hb =>
      hwf b ((run_published h).subset hb)
    rw [Relay.run, List.foldlM_cons, Option.bind_eq_bind, Option.bind_eq_some_iff] at h
    obtain ⟨u, hu, h⟩ := h
    exact ih (hinv.step hwf' hu) (hs.step hinv hwf' hl.1 hu) (hl.2 u hu) h

end Relay

namespace Relay
variable {s u : Relay F} {P : Relay F → RelayEvent F → Prop}

/-- A run with `P` before each of its events, to a state where `Q` holds. -/
theorem run_cons {Q : Relay F → Prop} {e : RelayEvent F} {events : List (RelayEvent F)}
    (hP : P s e) (h : s.step e = some u)
    (hrest : ∃ t, u.run events = some t ∧ u.Throughout P events ∧ Q t) :
    ∃ t, s.run (e :: events) = some t ∧ s.Throughout P (e :: events) ∧ Q t := by
  obtain ⟨t, hrun, hthroughout, hQ⟩ := hrest
  refine ⟨t, ?_, ⟨hP, fun v hv => ?_⟩, hQ⟩
  · rw [run, List.foldlM_cons, h]
    exact hrun
  · obtain rfl := Option.some.inj (h.symm.trans hv)
    exact hthroughout

theorem step_pump {client : ℕ} {wire : List Bytes} {c : Client F} {feed : Feed F} {b : Block F}
    (hb : b.WellFormed) (hlink : s.link = some ⟨client, wire⟩)
    (hc : s.feed.clients client = some c) (hitem : c.subscription.tryNext.1 = some ⟨b, 0⟩)
    (hfeed : s.feed.step (.next client) = some feed) :
    s.step .pump = some { s with feed, link := some ⟨client, wire ++ [text b.toJson]⟩ } := by
  have hitem' : pumpItem ⟨b, 0⟩ = [text b.toJson] := pumpItem_eq hb (Nat.two_pow_pos 64)
  simp [step, hlink, pump, hc, hfeed, hitem, hitem']

theorem step_receive [LawfulNumberFloat F] {client : ℕ} {wire : List Bytes} {b : Block F}
    (device : Bytes → Json F) (hb : b.WellFormed)
    (hlink : s.link = some ⟨client, text b.toJson :: wire⟩) :
    s.step (.receive device) = some ({ s with link := some ⟨client, wire⟩ }.broadcast
      (.block b.members (registered device b))) := by
  simp only [step, hlink, receive, dispatch_block device hb]

end Relay

/-- The way of `first` to socket 0, a lost connection, `between`, and the way of `last` over a new
one. -/
def reconnect (first last : Block F) (between : List (RelayEvent F)) : List (RelayEvent F) :=
  .openSocket 0 :: .connect 0 :: .storage (.publish first) :: .storage (.visit 0) ::
    .storage .unlock :: .pump :: .receive (fun _ => .null) :: .send 0 :: .disconnect ::
    (between ++ [.connect 1, .storage (.publish last), .storage (.visit 0), .storage (.visit 1),
      .storage .unlock, .pump, .receive fun _ => .null, .send 0])

def GotTwo (first last : Block F) (s : Relay F) : Prop :=
  ∃ b, s.browsers 0 = some b ∧
    b.received = [.block first.members (registered (fun _ => .null) first),
      .block last.members (registered (fun _ => .null) last)]

section Reconnect
variable [LawfulNumberFloat F] {first last : Block F}

theorem run_reconnect (hfirst : first.WellFormed) (hlast : last.WellFormed) :
    ∃ s, Relay.initial.run (reconnect first last []) = some s ∧
      Relay.initial.Throughout (Relay.Lossless 0) (reconnect first last []) ∧
      s.feed.published = [first, last] ∧ GotTwo first last s := by
  apply Relay.run_cons trivial rfl
  apply Relay.run_cons
  · rintro b ⟨⟩
    exact .inl rfl
  · rfl
  apply Relay.run_cons trivial rfl
  apply Relay.run_cons trivial rfl
  apply Relay.run_cons trivial rfl
  apply Relay.run_cons trivial (Relay.step_pump hfirst rfl rfl rfl rfl)
  apply Relay.run_cons
  · rintro b ⟨⟩
    exact .inl (Nat.zero_lt_succ 63)
  · exact Relay.step_receive _ hfirst rfl
  apply Relay.run_cons trivial rfl
  apply Relay.run_cons trivial rfl
  apply Relay.run_cons
  · rintro b ⟨⟩
    exact .inl rfl
  · rfl
  apply Relay.run_cons trivial rfl
  apply Relay.run_cons trivial rfl
  apply Relay.run_cons trivial rfl
  apply Relay.run_cons trivial rfl
  apply Relay.run_cons trivial (Relay.step_pump hlast rfl rfl rfl rfl)
  apply Relay.run_cons
  · rintro b ⟨⟩
    exact .inl (Nat.zero_lt_succ 63)
  · exact Relay.step_receive _ hlast rfl
  apply Relay.run_cons trivial rfl
  exact ⟨_, rfl, trivial, rfl, _, rfl, rfl⟩

theorem run_reconnect_missed (missed : Block F) (hfirst : first.WellFormed)
    (hlast : last.WellFormed) :
    ∃ s, Relay.initial.run (reconnect first last [.storage (.publish missed),
        .storage (.visit 0), .storage .unlock]) = some s ∧
      Relay.initial.Throughout (fun _ _ => True) (reconnect first last [.storage (.publish missed),
        .storage (.visit 0), .storage .unlock]) ∧
      s.feed.published = [first, missed, last] ∧ GotTwo first last s := by
  apply Relay.run_cons trivial rfl
  apply Relay.run_cons trivial rfl
  apply Relay.run_cons trivial rfl
  apply Relay.run_cons trivial rfl
  apply Relay.run_cons trivial rfl
  apply Relay.run_cons trivial (Relay.step_pump hfirst rfl rfl rfl rfl)
  apply Relay.run_cons trivial (Relay.step_receive _ hfirst rfl)
  apply Relay.run_cons trivial rfl
  apply Relay.run_cons trivial rfl
  -- the new connection starts behind the block published here
  apply Relay.run_cons trivial rfl
  apply Relay.run_cons trivial rfl
  apply Relay.run_cons trivial rfl
  apply Relay.run_cons trivial rfl
  apply Relay.run_cons trivial rfl
  apply Relay.run_cons trivial rfl
  apply Relay.run_cons trivial rfl
  apply Relay.run_cons trivial rfl
  apply Relay.run_cons trivial (Relay.step_pump hlast rfl rfl rfl rfl)
  apply Relay.run_cons trivial (Relay.step_receive _ hlast rfl)
  apply Relay.run_cons trivial rfl
  exact ⟨_, rfl, trivial, rfl, _, rfl, rfl⟩

end Reconnect

/-- The notices between two blocks count the indices between theirs. -/
def GapsAnnounced (received : List (HubFrame F)) : Prop :=
  ∀ before f notices g after (i j : ℤ), received = before ++ f :: (notices ++ g :: after) →
    f.index? = some i → g.index? = some j → (∀ n ∈ notices, n.IsNotice) →
      i < j ∧ (notices.map HubFrame.dropped).sum = j - i - 1

/-- A browser hears of every block it does not get, in every run that loses none where nobody
counts: no frame dropped off its full queue once it has got a block, and no connection opened
behind blocks that the connection before it has not told of. -/
theorem lossless_run_announces_gaps [LawfulNumberFloat F] {sha256 : Bytes → Digest}
    {capacity : ℕ} {os : OFStream} {boot : Chain F} {w : State F OFStream}
    (hw : Reachable sha256 capacity (Appends AnyOutcome) os boot w)
    {events : List (RelayEvent F)} {s : Relay F} (hrun : Relay.initial.run events = some s)
    (hpublished : s.feed.published <+: w.published) {i : ℕ}
    (hl : Relay.initial.Throughout (Relay.Lossless i) events) {b : Browser F}
    (hb : s.browsers i = some b) : GapsAnnounced b.received := by
  have hwf : ∀ b ∈ s.feed.published, b.WellFormed := fun b hb =>
    hw.published_wellFormed b (hpublished.subset hb)
  have hserved := (Relay.served_initial i).run Relay.inv_initial hl hrun hwf b hb
  have hindex : ∀ k payload, (s.feed.published.map Block.members)[k]? = some payload →
      ∀ device, (HubFrame.block payload device).index? = some ((boot.size + k : ℕ) : ℤ) := by
    intro k payload hk device
    rw [List.getElem?_map, Option.map_eq_some_iff] at hk
    obtain ⟨c, hc, rfl⟩ := hk
    have hwc : w.published[k]? = some c := by
      obtain ⟨rest, hrest⟩ := hpublished
      rw [← hrest, List.getElem?_append_left (List.getElem?_eq_some_iff.mp hc).1]
      exact hc
    rw [index?_block_members, hw.published_index hwc]
  intro before f notices g after m n hreceived hf hg hnotices
  obtain ⟨payload, device, rfl⟩ := HubFrame.block_of_index? hf
  obtain ⟨payload', device', rfl⟩ := HubFrame.block_of_index? hg
  have hmarks : b.frames.map HubFrame.mark = before.map HubFrame.mark ++ .element payload ::
      (notices.map HubFrame.mark ++ .element payload' ::
        (after ++ b.subscription.queue).map HubFrame.mark) := by
    rw [Browser.frames, hreceived]
    simp [HubFrame.mark]
  rw [hmarks] at hserved
  obtain ⟨k, l, hk, hl, hlt, hsum⟩ := hserved.between (HubFrame.mark_of_isNotice hnotices)
  rw [hindex k payload hk device, Option.some.injEq] at hf
  rw [hindex l payload' hl device', Option.some.injEq] at hg
  rw [List.map_map, show Mark.missing ∘ HubFrame.mark = HubFrame.dropped (F := F) from
    funext HubFrame.missing_mark] at hsum
  constructor
  · omega
  · rw [hsum]
    omega

theorem lossless_run_announces_gaps_sample : ∃ (s : Relay Numeral) (b : Browser Numeral),
    s.browsers 0 = some b ∧ b.received.map HubFrame.index? = [some 1, some 2] ∧
      GapsAnnounced b.received := by
  obtain ⟨w, hw, hlen⟩ := exists_published_sample 2 (by decide)
  obtain ⟨first, last, hblocks⟩ := List.length_eq_two.mp hlen
  have hwf := hw.published_wellFormed
  have hindex : ∀ i b, w.published[i]? = some b → b.index.toNat = 1 + i := fun i b hb =>
    hw.published_index hb
  rw [hblocks] at hwf hindex
  obtain ⟨s, hrun, hl, hpublished, b, hb, hreceived⟩ :=
    run_reconnect (hwf first (by simp)) (hwf last (by simp))
  refine ⟨s, b, hb, ?_, lossless_run_announces_gaps hw hrun ?_ hl hb⟩
  · rw [hreceived, List.map_cons, List.map_singleton, index?_block_members, index?_block_members,
      hindex 0 first rfl, hindex 1 last rfl]
    rfl
  · rw [hpublished, hblocks]

/-- A block published while there is no connection: the browser gets those around it, and no
notice between them. -/
theorem reconnect_hides_block : ∃ (w : State Numeral OFStream) (events : List (RelayEvent Numeral))
    (s : Relay Numeral) (b : Browser Numeral) (f g : HubFrame Numeral),
    Reachable sampleSha256 1 (Appends AnyOutcome) ⟨sampleGenesis.line, none⟩ sampleChain w ∧
      Relay.initial.run events = some s ∧ s.feed.published = w.published ∧
      s.browsers 0 = some b ∧ b.received = [f, g] ∧ f.index? = some 1 ∧ g.index? = some 3 ∧
      ¬GapsAnnounced b.received := by
  obtain ⟨w, hw, hlen⟩ := exists_published_sample 3 (by decide)
  obtain ⟨first, missed, last, hblocks⟩ := List.length_eq_three.mp hlen
  have hwf := hw.published_wellFormed
  have hindex : ∀ i b, w.published[i]? = some b → b.index.toNat = 1 + i := fun i b hb =>
    hw.published_index hb
  rw [hblocks] at hwf hindex
  obtain ⟨s, hrun, -, hpublished, b, hb, hreceived⟩ :=
    run_reconnect_missed missed (hwf first (by simp)) (hwf last (by simp))
  have hf : (HubFrame.block first.members (registered (fun _ => .null) first)).index? = some 1 := by
    rw [index?_block_members, hindex 0 first rfl]
    rfl
  have hg : (HubFrame.block last.members (registered (fun _ => .null) last)).index? = some 3 := by
    rw [index?_block_members, hindex 2 last rfl]
    rfl
  refine ⟨w, _, s, b, _, _, hw, hrun, hpublished.trans hblocks.symm, hb, hreceived, hf, hg, ?_⟩
  intro hannounced
  have hsum := (hannounced [] _ [] _ [] 1 3 hreceived hf hg (fun n hn => by cases hn)).2
  exact absurd hsum (by decide)

end Ledger.Backend

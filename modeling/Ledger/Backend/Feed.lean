import Ledger.Backend.BrowserQueue
import Ledger.Backend.Enrichment

/-! `BlockFeed._dispatch` with the listeners of the application, on whatever text comes from
upstream. -/
namespace Ledger.Backend
open Text Json
variable {F : Type}

/-- What `json.loads` raises; it is `RecursionError` where a text is nested too deeply. -/
inductive LoadsError
  | valueError
  | recursionError

/-- `json.loads`. -/
abbrev Loads (F : Type) := Bytes → Except LoadsError (PyValue F)

/-- What may leave `_dispatch`. -/
inductive FeedError
  | attributeError
  | recursionError
  | queue (e : QueueError)

/-- `BrowserHub`; the subscriptions are numbered in the order of their creation. -/
structure BrowserHub (F : Type) where
  created : ℕ
  subscriptions : List (ℕ × QueueSubscription (BrowserFrame F))
  delivered : ℕ

namespace BrowserHub

def subscribe (hub : BrowserHub F) : BrowserHub F :=
  { hub with
    created := hub.created + 1
    subscriptions := hub.subscriptions ++ [(hub.created, .new queueCapacity)] }

def unsubscribe (hub : BrowserHub F) (id : ℕ) : BrowserHub F :=
  { hub with subscriptions := hub.subscriptions.filter fun s => s.1 ≠ id }

def get (hub : BrowserHub F) (id : ℕ) : BrowserHub F :=
  { hub with subscriptions := hub.subscriptions.map fun s =>
      if s.1 = id then (s.1, (s.2.get.map Prod.snd).getD s.2) else s }

def putAll (frame : BrowserFrame F) : List (ℕ × QueueSubscription (BrowserFrame F)) →
    Except QueueError Unit × List (ℕ × QueueSubscription (BrowserFrame F))
  | [] => (.ok (), [])
  | s :: subscriptions =>
    match s.2.put frame with
    | .error e => (.error e, s :: subscriptions)
    | .ok subscription =>
      let (outcome, subscriptions) := putAll frame subscriptions
      (outcome, (s.1, subscription) :: subscriptions)

def broadcast (hub : BrowserHub F) (frame : BrowserFrame F) :
    Except QueueError Unit × BrowserHub F :=
  match putAll frame hub.subscriptions with
  | (.ok (), subscriptions) =>
    (.ok (), { hub with subscriptions, delivered := hub.delivered + 1 })
  | (.error e, subscriptions) => (.error e, { hub with subscriptions })

end BrowserHub

def isLagged (payload : PyDict F) : Bool :=
  match payload.get (ascii "type") with
  | some (.str kind) => kind = ascii "lagged"
  | _ => false

/-- `isinstance(dropped, int)` takes a `bool` too. -/
def droppedIn (payload : PyDict F) : PyValue F :=
  match payload.get (ascii "dropped") with
  | some (.int n) => .int n
  | some (.bool b) => .bool b
  | _ => .int 0

def PyValue.toInt : PyValue F → ℤ
  | .int n => n
  | .bool true => 1
  | _ => 0

/-- `block_feed`, `hub` and `enricher`. -/
structure BlockFeed (F : Type) where
  connected : Bool
  connects : ℕ
  blocksReceived : ℕ
  blocksDropped : ℤ
  hub : BrowserHub F
  enricher : RegistryEnricher

/-- A text frame, with the clock and the registry as they are then. -/
structure Arrival where
  message : Bytes
  now : ℚ
  lookup : Bytes → Option (Option Device)

namespace BlockFeed

def broadcast (f : BlockFeed F) (frame : BrowserFrame F) : Except FeedError Unit × BlockFeed F :=
  match f.hub.broadcast frame with
  | (.ok (), hub) => (.ok (), { f with hub })
  | (.error e, hub) => (.error (.queue e), { f with hub })

def onBlock (round : ℚ → ℚ) (f : BlockFeed F) (a : Arrival) (block : PyDict F) :
    Except FeedError Unit × BlockFeed F :=
  match f.enricher.enrich round a.lookup a.now block with
  | (none, enricher) => (.error .attributeError, { f with enricher })
  | (some frame, enricher) => broadcast { f with enricher } frame

def onLagged (f : BlockFeed F) (dropped : PyValue F) : Except FeedError Unit × BlockFeed F :=
  f.broadcast (.lagged dropped)

def dispatch (round : ℚ → ℚ) (loads : Loads F) (f : BlockFeed F) (a : Arrival) :
    Except FeedError Unit × BlockFeed F :=
  match loads a.message with
  | .error .valueError => (.ok (), f)
  | .error .recursionError => (.error .recursionError, f)
  | .ok (.dict payload) =>
    if isLagged payload then
      let dropped := droppedIn payload
      onLagged { f with blocksDropped := f.blocksDropped + dropped.toInt } dropped
    else onBlock round { f with blocksReceived := f.blocksReceived + 1 } a payload
  | .ok _ => (.ok (), f)

end BlockFeed

/-- What happens to the feed and to the hub. -/
inductive BlockFeedEvent
  | connect
  | disconnect
  | receive (arrival : Arrival)
  | subscribe
  | unsubscribe (id : ℕ)
  | get (id : ℕ)

namespace BlockFeed

/-- One pass of the loop of `_run`, or a step of the hub's other users. An exception ends the
connection. -/
def step (round : ℚ → ℚ) (loads : Loads F) (f : BlockFeed F) : BlockFeedEvent → BlockFeed F
  | .connect => if f.connected then f else { f with connected := true, connects := f.connects + 1 }
  | .disconnect => { f with connected := false }
  | .receive a =>
    if f.connected then
      match dispatch round loads f a with
      | (.ok (), f') => f'
      | (.error _, f') => { f' with connected := false }
    else f
  | .subscribe => { f with hub := f.hub.subscribe }
  | .unsubscribe id => { f with hub := f.hub.unsubscribe id }
  | .get id => { f with hub := f.hub.get id }

def run (round : ℚ → ℚ) (loads : Loads F) (f : BlockFeed F) (events : List BlockFeedEvent) :
    BlockFeed F :=
  events.foldl (step round loads) f

def start (ttl : ℚ) : BlockFeed F :=
  ⟨false, 0, 0, 0, ⟨0, [], 0⟩, ⟨ttl, []⟩⟩

end BlockFeed

def HasRoom (s : QueueSubscription (BrowserFrame F)) : Prop :=
  s.queue.maxsize = queueCapacity ∧ s.queue.items.length ≤ queueCapacity

def BrowserHub.Sound (hub : BrowserHub F) : Prop :=
  ∀ s ∈ hub.subscriptions, HasRoom s.2

/-- A queue has got a frame, once; a full queue has lost its oldest one for it. -/
def Reached (frame : BrowserFrame F) (s s' : ℕ × QueueSubscription (BrowserFrame F)) : Prop :=
  s'.1 = s.1 ∧ s'.2.queue.items = pushBounded queueCapacity s.2.queue.items frame

def BrowserHub.Reaches (hub hub' : BrowserHub F) (frame : BrowserFrame F) : Prop :=
  List.Forall₂ (Reached frame) hub.subscriptions hub'.subscriptions

section Queues
variable (round : ℚ → ℚ) {loads : Loads F} {f : BlockFeed F} {a : Arrival} {frame : BrowserFrame F}

theorem HasRoom.put {s : QueueSubscription (BrowserFrame F)} (h : HasRoom s)
    (frame : BrowserFrame F) : ∃ s', s.put frame = .ok s' ∧ HasRoom s' ∧
      s'.queue.items = pushBounded queueCapacity s.queue.items frame := by
  obtain ⟨hmax, hle⟩ := h
  by_cases hlt : s.queue.items.length < queueCapacity
  · refine ⟨_, QueueSubscription.put_of_lt (by rwa [hmax]) frame, ⟨hmax, ?_⟩, ?_⟩
    · rw [List.length_append, List.length_singleton]
      exact hlt
    · rw [pushBounded, Nat.sub_eq_zero_of_le hlt, List.drop_zero]
  · have hfull : s.queue.items.length = queueCapacity := le_antisymm hle (not_lt.mp hlt)
    have hpos : 0 < queueCapacity := Nat.zero_lt_succ 63
    refine ⟨_, QueueSubscription.put_of_full (by rwa [hmax]) (by rw [hmax, hfull]) frame,
      ⟨hmax, ?_⟩, ?_⟩
    · rw [List.length_append, List.length_tail, List.length_singleton]
      omega
    · rw [pushBounded, hfull, Nat.add_sub_cancel_left, List.drop_append_of_le_length (by omega),
        List.drop_one]

theorem putAll_of_room {subscriptions : List (ℕ × QueueSubscription (BrowserFrame F))}
    (h : ∀ s ∈ subscriptions, HasRoom s.2) (frame : BrowserFrame F) :
    ∃ subscriptions', BrowserHub.putAll frame subscriptions = (.ok (), subscriptions') ∧
      List.Forall₂ (Reached frame) subscriptions subscriptions' ∧
        ∀ s ∈ subscriptions', HasRoom s.2 := by
  induction subscriptions with
  | nil => exact ⟨[], rfl, .nil, h⟩
  | cons s subscriptions ih =>
    obtain ⟨hs, hrest⟩ := List.forall_mem_cons.mp h
    obtain ⟨s', hput, hroom, hitems⟩ := hs.put frame
    obtain ⟨subscriptions', hall, hreached, hrooms⟩ := ih hrest
    refine ⟨(s.1, s') :: subscriptions', ?_, .cons ⟨rfl, hitems⟩ hreached,
      List.forall_mem_cons.mpr ⟨hroom, hrooms⟩⟩
    rw [BrowserHub.putAll, hput]
    dsimp only
    rw [hall]

theorem broadcast_of_sound (h : f.hub.Sound) (frame : BrowserFrame F) :
    ∃ hub, f.broadcast frame = (.ok (), { f with hub }) ∧ f.hub.Reaches hub frame ∧ hub.Sound := by
  obtain ⟨subscriptions, hput, hreached, hrooms⟩ := putAll_of_room h frame
  refine ⟨{ f.hub with subscriptions, delivered := f.hub.delivered + 1 }, ?_, hreached, hrooms⟩
  rw [BlockFeed.broadcast, BrowserHub.broadcast, hput]

theorem BrowserHub.Sound.subscribe {hub : BrowserHub F} (h : hub.Sound) : hub.subscribe.Sound := by
  intro s hs
  rcases List.mem_append.mp hs with hs | hs
  · exact h s hs
  · rw [List.mem_singleton.mp hs]
    exact ⟨rfl, Nat.zero_le _⟩

theorem BrowserHub.Sound.unsubscribe {hub : BrowserHub F} (h : hub.Sound) (id : ℕ) :
    (hub.unsubscribe id).Sound :=
  fun s hs => h s (List.mem_of_mem_filter hs)

theorem BrowserHub.Sound.get {hub : BrowserHub F} (h : hub.Sound) (id : ℕ) :
    (hub.get id).Sound := by
  intro s hs
  obtain ⟨t, ht, rfl⟩ := List.mem_map.mp hs
  have hroom := h t ht
  split_ifs
  · unfold QueueSubscription.get AsyncQueue.getNowait
    obtain ⟨hmax, hle⟩ := hroom
    cases hitems : t.2.queue.items with
    | nil => exact ⟨hmax, hle⟩
    | cons frame items =>
      rw [hitems, List.length_cons] at hle
      exact ⟨hmax, (Nat.le_succ _).trans hle⟩
  · exact hroom

theorem onBlock_of_event (h : f.hub.Sound) {block event : PyDict F}
    (hevent : (block.get (ascii "event")).getD (.dict []) = .dict event) :
    ∃ device hub enricher, f.onBlock round a block = (.ok (), { f with hub, enricher }) ∧
      f.hub.Reaches hub (.block block device) ∧ hub.Sound := by
  have hsome : (f.enricher.enrich round a.lookup a.now block).1.isSome :=
    enrich_isSome_iff.mpr ⟨event, hevent⟩
  obtain ⟨frame, hframe⟩ := Option.isSome_iff_exists.mp hsome
  obtain ⟨device, rfl⟩ := enrich_eq_block hframe
  obtain ⟨hub, hbroadcast, hreaches, hsound⟩ := broadcast_of_sound
    (f := { f with enricher := (f.enricher.enrich round a.lookup a.now block).2 }) h
    (.block block device)
  refine ⟨device, hub, (f.enricher.enrich round a.lookup a.now block).2, ?_, hreaches, hsound⟩
  rw [BlockFeed.onBlock, show f.enricher.enrich round a.lookup a.now block =
    (some (.block block device), (f.enricher.enrich round a.lookup a.now block).2) from
      Prod.ext hframe rfl]
  exact hbroadcast

theorem onBlock_of_not_event {block : PyDict F}
    (hevent : ¬∃ event, (block.get (ascii "event")).getD (.dict []) = .dict event) :
    ∃ enricher, f.onBlock round a block = (.error .attributeError, { f with enricher }) := by
  have hnone : (f.enricher.enrich round a.lookup a.now block).1 = none := by
    rw [← Option.not_isSome_iff_eq_none, enrich_isSome_iff]
    exact hevent
  refine ⟨(f.enricher.enrich round a.lookup a.now block).2, ?_⟩
  rw [BlockFeed.onBlock, show f.enricher.enrich round a.lookup a.now block =
    (none, (f.enricher.enrich round a.lookup a.now block).2) from Prod.ext hnone rfl]

def payloadIn (loads : Loads F) (message : Bytes) : Option (PyDict F) :=
  match loads message with
  | .ok (.dict payload) => some payload
  | _ => none

/-- What should become of a text frame: a lag notice goes to the queues as one and leaves the blocks
alone, any other object goes to the queues as a block, and all else is ignored. -/
def Handled (loads : Loads F) (message : Bytes) (f f' : BlockFeed F) : Prop :=
  match payloadIn loads message with
  | some payload =>
    if isLagged payload then f.hub.Reaches f'.hub (.lagged (droppedIn payload)) ∧
      f'.blocksReceived = f.blocksReceived ∧ f'.enricher = f.enricher
    else ∃ device, f.hub.Reaches f'.hub (.block payload device)
  | none => f' = f

/-- `_dispatch` returns, the connection stays up, and the frame is handled. -/
def BlockFeed.Survives (round : ℚ → ℚ) (loads : Loads F) (f : BlockFeed F) (a : Arrival) : Prop :=
  (f.dispatch round loads a).1 = .ok () ∧ (f.step round loads (.receive a)).connected = true ∧
    Handled loads a.message f (f.step round loads (.receive a))

/-- The text is not nested too deeply, and an object that is no lag notice has an object for its
event if it has one. -/
def IsHarmless (loads : Loads F) (message : Bytes) : Prop :=
  loads message ≠ .error .recursionError ∧
    ∀ payload : PyDict F, payloadIn loads message = some payload → isLagged payload = false →
      ∀ event, payload.get (ascii "event") = some event → ∃ members, event = .dict members

theorem exists_event_iff {payload : PyDict F} :
    (∃ event, (payload.get (ascii "event")).getD (.dict []) = .dict event) ↔
      ∀ event, payload.get (ascii "event") = some event → ∃ members, event = .dict members := by
  cases payload.get (ascii "event") with
  | none => exact ⟨fun _ _ h => (Option.some_ne_none _ h.symm).elim, fun _ => ⟨[], rfl⟩⟩
  | some event =>
    constructor
    · rintro ⟨members, hmembers⟩ _ h
      obtain rfl := Option.some.inj h
      exact ⟨members, hmembers⟩
    · exact fun h => h event rfl

theorem dispatch_of_payload {payload : PyDict F} (h : payloadIn loads a.message = some payload) :
    f.dispatch round loads a =
      if isLagged payload then
        BlockFeed.onLagged { f with blocksDropped := f.blocksDropped + (droppedIn payload).toInt }
          (droppedIn payload)
      else BlockFeed.onBlock round { f with blocksReceived := f.blocksReceived + 1 } a payload := by
  unfold payloadIn at h
  unfold BlockFeed.dispatch
  split at h
  · rename_i hloads
    obtain rfl := Option.some.inj h
    rw [hloads]
  · cases h

theorem dispatch_of_no_payload (h : payloadIn loads a.message = none)
    (hdepth : loads a.message ≠ .error .recursionError) :
    f.dispatch round loads a = (.ok (), f) := by
  unfold payloadIn at h
  unfold BlockFeed.dispatch
  cases hloads : loads a.message with
  | error e =>
    cases e with
    | valueError => rfl
    | recursionError => exact absurd hloads hdepth
  | ok value =>
    rw [hloads] at h
    cases value with
    | dict payload => cases h
    | _ => rfl

theorem dispatch_of_recursionError (h : loads a.message = .error .recursionError) :
    f.dispatch round loads a = (.error .recursionError, f) := by
  rw [BlockFeed.dispatch, h]

theorem dispatch_of_harmless (hf : f.hub.Sound) (h : IsHarmless loads a.message) :
    ∃ f', f.dispatch round loads a = (.ok (), f') ∧ f'.connected = f.connected ∧ f'.hub.Sound ∧
      Handled loads a.message f f' := by
  obtain ⟨hdepth, hevent⟩ := h
  cases hpayload : payloadIn loads a.message with
  | none =>
    unfold Handled
    rw [dispatch_of_no_payload round hpayload hdepth, hpayload]
    exact ⟨f, rfl, rfl, hf, rfl⟩
  | some payload =>
    unfold Handled
    rw [dispatch_of_payload round hpayload, hpayload]
    by_cases hlag : isLagged payload = true
    · obtain ⟨hub, hbroadcast, hreaches, hsound⟩ := broadcast_of_sound
        (f := { f with blocksDropped := f.blocksDropped + (droppedIn payload).toInt }) hf
        (.lagged (droppedIn payload))
      simp only [if_pos hlag]
      exact ⟨_, hbroadcast, rfl, hsound, hreaches, rfl, rfl⟩
    · obtain ⟨event, hdict⟩ := exists_event_iff.mpr
        (hevent payload hpayload (Bool.eq_false_iff.mpr hlag))
      obtain ⟨device, hub, enricher, honBlock, hreaches, hsound⟩ := onBlock_of_event round
        (f := { f with blocksReceived := f.blocksReceived + 1 }) hf hdict
      simp only [if_neg hlag]
      exact ⟨_, honBlock, rfl, hsound, device, hreaches⟩

theorem dispatch_of_not_harmless (h : ¬IsHarmless loads a.message) :
    ∃ e f', f.dispatch round loads a = (.error e, f') ∧ f'.hub = f.hub := by
  by_cases hdepth : loads a.message = .error .recursionError
  · exact ⟨_, f, dispatch_of_recursionError round hdepth, rfl⟩
  · obtain ⟨payload, hpayload, hlag, hevent⟩ : ∃ payload, payloadIn loads a.message = some payload ∧
        isLagged payload = false ∧
          ¬∃ event, (payload.get (ascii "event")).getD (.dict []) = .dict event := by
      by_contra hnone
      refine h ⟨hdepth, fun payload hpayload hlag => exists_event_iff.mp ?_⟩
      by_contra hevent
      exact hnone ⟨payload, hpayload, hlag, hevent⟩
    obtain ⟨enricher, honBlock⟩ := onBlock_of_not_event round (a := a)
      (f := { f with blocksReceived := f.blocksReceived + 1 }) hevent
    rw [dispatch_of_payload round hpayload, hlag]
    exact ⟨_, _, honBlock, rfl⟩

/-- A frame does well exactly if it is harmless. -/
theorem survives_iff (hf : f.hub.Sound) (hconnected : f.connected = true) :
    f.Survives round loads a ↔ IsHarmless loads a.message := by
  constructor
  · intro h
    by_contra hbad
    obtain ⟨e, f', hdispatch, _⟩ := dispatch_of_not_harmless round (f := f) hbad
    have hok := h.1
    rw [hdispatch] at hok
    cases hok
  · intro h
    obtain ⟨f', hdispatch, hstays, _, hhandled⟩ := dispatch_of_harmless round hf h
    have hstep : f.step round loads (.receive a) = f' := by
      rw [BlockFeed.step, if_pos hconnected, hdispatch]
    rw [BlockFeed.Survives, hstep, hdispatch, hstays]
    exact ⟨rfl, hconnected, hhandled⟩

theorem step_sound (hf : f.hub.Sound) (event : BlockFeedEvent) :
    (f.step round loads event).hub.Sound := by
  cases event with
  | connect =>
    rw [BlockFeed.step]
    split_ifs
    · exact hf
    · exact hf
  | disconnect => exact hf
  | receive a =>
    rw [BlockFeed.step]
    split_ifs
    · by_cases h : IsHarmless loads a.message
      · obtain ⟨f', hdispatch, _, hsound, _⟩ := dispatch_of_harmless round hf h
        rw [hdispatch]
        exact hsound
      · obtain ⟨e, f', hdispatch, hhub⟩ := dispatch_of_not_harmless round (f := f) h
        rw [hdispatch]
        exact hhub ▸ hf
    · exact hf
  | subscribe => exact hf.subscribe
  | unsubscribe id => exact hf.unsubscribe id
  | get id => exact hf.get id

theorem run_sound (hf : f.hub.Sound) (events : List BlockFeedEvent) :
    (f.run round loads events).hub.Sound := by
  induction events generalizing f with
  | nil => exact hf
  | cons event events ih => exact ih (step_sound round hf event)

end Queues

mutual

/-- The value of a text that storage-core has dumped. -/
def PyValue.ofJson : Json F → PyValue F
  | .null => .none
  | .boolean b => .bool b
  | .number i => .int i
  | .float x => .float x
  | .string s => .str s
  | .array elements => .list (PyValue.ofElements elements)
  | .object members => .dict (PyValue.ofMembers members)

def PyValue.ofElements : List (Json F) → List (PyValue F)
  | [] => []
  | v :: elements => PyValue.ofJson v :: PyValue.ofElements elements

def PyValue.ofMembers : Json.Members F → PyDict F
  | [] => []
  | (k, v) :: members => (k, PyValue.ofJson v) :: PyValue.ofMembers members

end

theorem get_ofMembers (members : Json.Members F) (k : Bytes) :
    (PyValue.ofMembers members).get k = (members.lookup k).map PyValue.ofJson := by
  induction members with
  | nil => rfl
  | cons m members ih =>
    rw [PyValue.ofMembers, Dict.get, List.lookup_cons]
    by_cases h : k = m.1
    · rw [if_pos h, beq_iff_eq.mpr h]
      rfl
    · rw [if_neg h, beq_eq_false_iff_ne.mpr h]
      exact ih

theorem isLagged_ofMembers (members : Json.Members F) :
    isLagged (PyValue.ofMembers members) = isLagNotice members := by
  unfold isLagged isLagNotice getMember
  rw [get_ofMembers]
  cases members.lookup (ascii "type") with
  | none => rfl
  | some v => cases v <;> rfl

theorem enrich_ne_none_iff (device : Bytes → Json F) (members : Json.Members F) :
    enrich device members ≠ none ↔ ∀ event,
      (PyValue.ofMembers members).get (ascii "event") = some event → ∃ ms, event = .dict ms := by
  unfold enrich
  rw [get_ofMembers]
  cases members.lookup (ascii "event") with
  | none => simp
  | some v => cases v <;> simp [PyValue.ofJson]

section Messages
variable [NumberFloat F]

/-- `json.loads`, on what storage-core has dumped. -/
def coreLoads (message : Bytes) : Except LoadsError (PyValue F) :=
  (loads message).elim (.error .valueError) fun v => .ok (.ofJson v)

/-- On these texts the hub does not raise exactly if they are harmless. -/
theorem harmless_coreLoads_iff (device : Bytes → Json F) (message : Bytes) :
    IsHarmless (coreLoads (F := F)) message ↔ dispatch device message ≠ .raised := by
  unfold IsHarmless payloadIn dispatch coreLoads
  cases loads (F := F) message with
  | none => simp
  | some v =>
    cases v with
    | object members =>
      rw [Option.elim_some]
      simp only [PyValue.ofJson, Option.some.injEq, forall_eq', isLagged_ofMembers,
        ← enrich_ne_none_iff device]
      cases isLagNotice members with
      | true => simp
      | false => cases enrich device members <;> simp
    | _ => simp [PyValue.ofJson]

/-- What storage-core sends is harmless. -/
theorem harmless_frameText [LawfulNumberFloat F] {published : List (Block F)} {p q : ℕ}
    {m : Mark (Block F)} {marks : List (Mark (Block F))} (hwf : ∀ b ∈ published, b.WellFormed)
    (hq : q < 2 ^ 64) (h : Follows published p (m :: marks) q) :
    IsHarmless (coreLoads (F := F)) (frameText m) := by
  obtain ⟨frame, hframe, _⟩ := dispatch_frameText (fun _ => .null) hwf hq h
  rw [harmless_coreLoads_iff fun _ => .null, hframe]
  exact fun hraised => by cases hraised

end Messages

/-- A text frame that comes in a run, while there is a connection. -/
def Receives (round : ℚ → ℚ) (loads : Loads F) (ttl : ℚ) (events before : List BlockFeedEvent)
    (a : Arrival) : Prop :=
  before ++ [.receive a] <+: events ∧
    ((BlockFeed.start ttl).run round loads before).connected = true

/-- The feed withstands all frames of a run exactly if they are harmless. -/
theorem feed_survives_iff (round : ℚ → ℚ) (loads : Loads F) (ttl : ℚ)
    (events : List BlockFeedEvent) :
    (∀ before a, Receives round loads ttl events before a →
      ((BlockFeed.start ttl).run round loads before).Survives round loads a) ↔
    ∀ before a, Receives round loads ttl events before a → IsHarmless loads a.message := by
  refine forall₂_congr fun before a => forall_congr' fun h => survives_iff round ?_ h.2
  exact run_sound round (fun s hs => absurd hs List.not_mem_nil) before

/-- A block with `null` for its event ends the connection. -/
theorem null_event_is_fatal :
    ¬∀ (round : ℚ → ℚ) (loads : Loads Numeral) (ttl : ℚ) (events before : List BlockFeedEvent)
      (a : Arrival), Receives round loads ttl events before a →
        ((BlockFeed.start ttl).run round loads before).Survives round loads a := by
  intro h
  let v : Json Numeral := .object [(ascii "event", .null)]
  let a : Arrival := ⟨text v, 0, fun _ => none⟩
  have hreceives : Receives id (coreLoads (F := Numeral)) 30 [.connect, .receive a] [.connect] a :=
    ⟨List.prefix_rfl, rfl⟩
  have hsound : ((BlockFeed.start 30).run id (coreLoads (F := Numeral)) [.connect]).hub.Sound :=
    run_sound id (fun s hs => absurd hs List.not_mem_nil) _
  have hharmless := (survives_iff id hsound hreceives.2).mp (h _ _ _ _ _ _ hreceives)
  have hraised : dispatch (fun _ => (.null : Json Numeral)) a.message = .raised := by
    have hv : v.Valid := by
      simp only [v, Valid, ValidMembers, and_true]
      exact ⟨List.pairwise_singleton _ _, by decide⟩
    rw [dispatch, loads_text hv]
    rfl
  exact (harmless_coreLoads_iff (fun _ => .null) a.message).mp hharmless hraised

end Ledger.Backend

import Ledger.Backend.Feed
import Ledger.System.Rest

/-! The sockets of `/ws/blocks`: each handler has a subscription to the hub and two tasks, which go
on from one `await` to the next. -/
namespace Ledger.Backend.WsBlocks
variable {F : Type}

/-- `WebSocketDisconnect` and `RuntimeError` are suppressed. -/
inductive SocketError
  | suppressed
  | other
  deriving DecidableEq

/-- Where `pump` stands. -/
inductive Pump (F : Type)
  /-- In `subscription.get()`. -/
  | getting
  /-- In `websocket.send_json`. -/
  | sending (frame : BrowserFrame F)
  | raised (e : SocketError)
  | cancelled

/-- Where `watch_for_close` stands. -/
inductive Watch
  /-- In `websocket.receive_text()`. -/
  | receiving
  | raised (e : SocketError)
  | cancelled

inductive Ending
  | returned
  | raised
  | cancelled

inductive Handler
  /-- In `websocket.accept()`. -/
  | accepting
  /-- In `asyncio.wait`, with its subscription. -/
  | waiting (id : ℕ)
  | ended (ending : Ending)

/-- `peer` while the browser has the socket open. `since` and `sent` are history: how many frames
had been broadcast when the handler subscribed, and what `send_json` has been called with. -/
structure Socket (F : Type) where
  handler : Handler
  pump : Pump F
  watch : Watch
  peer : Bool
  since : ℕ
  sent : List (BrowserFrame F)

namespace Socket

def fresh : Socket F :=
  ⟨.accepting, .getting, .receiving, true, 0, []⟩

def id? (k : Socket F) : Option ℕ :=
  match k.handler with
  | .waiting id => some id
  | _ => none

def pumpError (k : Socket F) : Option SocketError :=
  match k.pump with
  | .raised e => some e
  | _ => none

def watchError (k : Socket F) : Option SocketError :=
  match k.watch with
  | .raised e => some e
  | _ => none

def Done (k : Socket F) : Prop :=
  k.pumpError.isSome ∨ k.watchError.isSome

/-- `task.cancel()` for both tasks, which does nothing to one that is done. -/
def cancelTasks (k : Socket F) : Socket F :=
  { k with
    pump := k.pumpError.elim .cancelled .raised
    watch := k.watchError.elim .cancelled .raised }

/-- What `task.result()` raises of the tasks that are done. -/
def ending (k : Socket F) : Ending :=
  if k.pumpError = some .other ∨ k.watchError = some .other then .raised else .returned

end Socket

/-- `frames` is history: what has been broadcast. -/
structure Server (F : Type) where
  hub : BrowserHub F
  sockets : List (Socket F)
  frames : List (BrowserFrame F)

def Server.start : Server F :=
  ⟨⟨0, [], 0⟩, [], []⟩

/-- What the event loop does by itself. -/
inductive Reaction (s : Server F) : Server F → Prop
  /-- `receive_text` on a socket that the browser has closed. -/
  | disconnected {before after : List (Socket F)} {k : Socket F} {id : ℕ}
      (h : s.sockets = before ++ k :: after) (hk : k.handler = .waiting id)
      (hw : k.watch = .receiving) (hp : k.peer = false) :
    Reaction s { s with sockets := before ++ { k with watch := .raised .suppressed } :: after }
  /-- Behind `asyncio.wait` there is no `await`, and `finally` runs whatever the tasks raised. -/
  | finish {before after : List (Socket F)} {k : Socket F} {id : ℕ}
      (h : s.sockets = before ++ k :: after) (hk : k.handler = .waiting id) (hd : k.Done) :
    Reaction s { s with
      hub := s.hub.unsubscribe id
      sockets := before ++ { k.cancelTasks with handler := .ended k.ending } :: after }

/-- One step of the application. -/
inductive Step (s : Server F) : Server F → Prop
  | react {t : Server F} (h : Reaction s t) : Step s t
  | connect : Step s { s with sockets := s.sockets ++ [.fresh] }
  /-- `accept` raises, or the handler is cancelled in it. -/
  | refused {before after : List (Socket F)} {k : Socket F} (ending : Ending)
      (h : s.sockets = before ++ k :: after) (hk : k.handler = .accepting) :
    Step s { s with sockets := before ++ { k with handler := .ended ending } :: after }
  /-- The subscription and the tasks are there before the next `await`. -/
  | accepted {before after : List (Socket F)} {k : Socket F}
      (h : s.sockets = before ++ k :: after) (hk : k.handler = .accepting) :
    Step s { s with
      hub := s.hub.subscribe
      sockets := before ++
        { k with handler := .waiting s.hub.created, since := s.frames.length } :: after }
  /-- A listener of the block feed. -/
  | broadcast (frame : BrowserFrame F) :
    Step s { s with hub := (s.hub.broadcast frame).2, frames := s.frames ++ [frame] }
  | take {before after : List (Socket F)} {k : Socket F} {id : ℕ} {frame : BrowserFrame F}
      {sub sub' : QueueSubscription (BrowserFrame F)}
      (h : s.sockets = before ++ k :: after) (hk : k.handler = .waiting id)
      (hp : k.pump = .getting) (hs : (id, sub) ∈ s.hub.subscriptions)
      (hg : sub.get = some (frame, sub')) :
    Step s { s with
      hub := s.hub.get id
      sockets := before ++ { k with pump := .sending frame, sent := k.sent ++ [frame] } :: after }
  | sent {before after : List (Socket F)} {k : Socket F} {id : ℕ} {frame : BrowserFrame F}
      (h : s.sockets = before ++ k :: after) (hk : k.handler = .waiting id)
      (hp : k.pump = .sending frame) :
    Step s { s with sockets := before ++ { k with pump := .getting } :: after }
  | sendRaised {before after : List (Socket F)} {k : Socket F} {id : ℕ} {frame : BrowserFrame F}
      (e : SocketError) (h : s.sockets = before ++ k :: after) (hk : k.handler = .waiting id)
      (hp : k.pump = .sending frame) :
    Step s { s with sockets := before ++ { k with pump := .raised e } :: after }
  /-- Something else than text has come, or the socket has failed on our side. -/
  | receiveRaised {before after : List (Socket F)} {k : Socket F} {id : ℕ} (e : SocketError)
      (h : s.sockets = before ++ k :: after) (hk : k.handler = .waiting id)
      (hw : k.watch = .receiving) :
    Step s { s with sockets := before ++ { k with watch := .raised e } :: after }
  | leave {before after : List (Socket F)} {k : Socket F} (h : s.sockets = before ++ k :: after) :
    Step s { s with sockets := before ++ { k with peer := false } :: after }
  /-- The handler is cancelled in `asyncio.wait`, which leaves the tasks to `finally`. -/
  | cancelled {before after : List (Socket F)} {k : Socket F} {id : ℕ}
      (h : s.sockets = before ++ k :: after) (hk : k.handler = .waiting id) :
    Step s { s with
      hub := s.hub.unsubscribe id
      sockets := before ++ { k.cancelTasks with handler := .ended .cancelled } :: after }

abbrev Reachable (s : Server F) : Prop :=
  Relation.ReflTransGen Step .start s

def ids (hub : BrowserHub F) : List ℕ :=
  hub.subscriptions.map Prod.fst

@[simp] theorem ids_subscribe (hub : BrowserHub F) :
    ids hub.subscribe = ids hub ++ [hub.created] := by
  simp [ids, BrowserHub.subscribe]

theorem ids_unsubscribe (hub : BrowserHub F) (id : ℕ) :
    ids (hub.unsubscribe id) = (ids hub).filter (· ≠ id) := by
  rw [ids, ids, BrowserHub.unsubscribe, List.filter_map]
  rfl

@[simp] theorem ids_get (hub : BrowserHub F) (id : ℕ) : ids (hub.get id) = ids hub := by
  rw [ids, ids, BrowserHub.get, List.map_map]
  apply List.map_congr_left
  intro s _
  dsimp only [Function.comp_apply]
  split_ifs <;> rfl

theorem putAll_spec {frame : BrowserFrame F}
    {subscriptions : List (ℕ × QueueSubscription (BrowserFrame F))}
    (h : ∀ s ∈ subscriptions, HasRoom s.2) :
    ∃ subscriptions', BrowserHub.putAll frame subscriptions = (.ok (), subscriptions') ∧
      subscriptions'.map Prod.fst = subscriptions.map Prod.fst ∧
      ∀ s' ∈ subscriptions', ∃ s ∈ subscriptions, s'.1 = s.1 ∧ s.2.put frame = .ok s'.2 := by
  induction subscriptions with
  | nil => exact ⟨[], rfl, rfl, nofun⟩
  | cons s subscriptions ih =>
    obtain ⟨hs, hrest⟩ := List.forall_mem_cons.mp h
    obtain ⟨s', hput, -, -⟩ := hs.put frame
    obtain ⟨subscriptions', hall, hids, hmem⟩ := ih hrest
    refine ⟨(s.1, s') :: subscriptions', ?_, ?_, ?_⟩
    · rw [BrowserHub.putAll, hput]
      dsimp only
      rw [hall]
    · rw [List.map_cons, List.map_cons, hids]
    · intro t ht
      rcases List.mem_cons.mp ht with rfl | ht
      · exact ⟨s, List.mem_cons_self, rfl, hput⟩
      · obtain ⟨s'', hs'', hput'⟩ := hmem t ht
        exact ⟨s'', List.mem_cons_of_mem _ hs'', hput'⟩

theorem broadcast_spec {hub : BrowserHub F} (h : hub.Sound) (frame : BrowserFrame F) :
    (hub.broadcast frame).2.created = hub.created ∧ ids (hub.broadcast frame).2 = ids hub ∧
      ∀ s' ∈ (hub.broadcast frame).2.subscriptions, ∃ s ∈ hub.subscriptions, s'.1 = s.1 ∧
        s.2.put frame = .ok s'.2 := by
  obtain ⟨subscriptions, hput, hids, hmem⟩ : ∃ subscriptions,
      BrowserHub.putAll frame hub.subscriptions = (.ok (), subscriptions) ∧ _ := putAll_spec h
  rw [BrowserHub.broadcast, hput]
  exact ⟨rfl, hids, hmem⟩

theorem sound_broadcast {hub : BrowserHub F} (h : hub.Sound) (frame : BrowserFrame F) :
    (hub.broadcast frame).2.Sound := by
  intro s' hs'
  obtain ⟨s, hs, -, hput⟩ := (broadcast_spec h frame).2.2 s' hs'
  obtain ⟨s'', hput', hroom, -⟩ := (h s hs).put frame
  obtain rfl : s'' = s'.2 := Except.ok.inj (hput'.symm.trans hput)
  exact hroom

/-- Of the frames that were broadcast some have been sent, some have been dropped, and the last ones
are in the queue. -/
def Follows (frames sent : List (BrowserFrame F)) (sub : QueueSubscription (BrowserFrame F)) :
    Prop :=
  ∃ earlier, frames = earlier ++ sub.queue.items ∧ sent.Sublist earlier ∧
    earlier.length = sent.length + sub.dropped

variable {frames sent : List (BrowserFrame F)} {sub sub' : QueueSubscription (BrowserFrame F)}

theorem Follows.put (h : Follows frames sent sub) (hroom : HasRoom sub) {frame : BrowserFrame F}
    (hput : sub.put frame = .ok sub') : Follows (frames ++ [frame]) sent sub' := by
  obtain ⟨earlier, rfl, hsent, hlength⟩ := h
  obtain ⟨hmax, hle⟩ := hroom
  by_cases hlt : sub.queue.items.length < queueCapacity
  · rw [QueueSubscription.put_of_lt (by rwa [hmax])] at hput
    rw [← Except.ok.inj hput]
    exact ⟨earlier, List.append_assoc .., hsent, hlength⟩
  · have hfull : sub.queue.items.length = queueCapacity := le_antisymm hle (not_lt.mp hlt)
    have hpos : 0 < queueCapacity := Nat.zero_lt_succ 63
    rw [QueueSubscription.put_of_full (by rwa [hmax]) (by rw [hmax, hfull])] at hput
    rw [← Except.ok.inj hput]
    cases hitems : sub.queue.items with
    | nil =>
      rw [hitems] at hfull
      cases hfull
    | cons oldest items =>
      refine ⟨earlier ++ [oldest], by simp, hsent.trans (List.sublist_append_left ..), ?_⟩
      rw [List.length_append, List.length_singleton, hlength]
      rfl

theorem Follows.get (h : Follows frames sent sub) {frame : BrowserFrame F}
    (hget : sub.get = some (frame, sub')) : Follows frames (sent ++ [frame]) sub' := by
  obtain ⟨earlier, rfl, hsent, hlength⟩ := h
  unfold QueueSubscription.get AsyncQueue.getNowait at hget
  cases hitems : sub.queue.items with
  | nil =>
    rw [hitems] at hget
    cases hget
  | cons oldest items =>
    rw [hitems] at hget
    obtain ⟨rfl, rfl⟩ := Prod.mk.inj (Option.some.inj hget)
    refine ⟨earlier ++ [oldest], by simp, hsent.append (List.Sublist.refl _), ?_⟩
    rw [List.length_append, List.length_append, hlength]
    simp only [List.length_singleton]
    omega

/-- The hub has one subscription for each handler in `asyncio.wait`. -/
structure Inv (s : Server F) : Prop where
  perm : (ids s.hub).Perm (s.sockets.filterMap Socket.id?)
  nodup : (ids s.hub).Nodup
  created : ∀ id ∈ ids s.hub, id < s.hub.created
  sound : s.hub.Sound
  since : ∀ k ∈ s.sockets, k.since ≤ s.frames.length
  blank : ∀ k ∈ s.sockets, k.handler = .accepting → k.sent = []
  sent : ∀ k ∈ s.sockets, k.sent.Sublist (s.frames.drop k.since)
  follows : ∀ k ∈ s.sockets, ∀ id, k.id? = some id → ∀ sub, (id, sub) ∈ s.hub.subscriptions →
    Follows (s.frames.drop k.since) k.sent sub

section Invariant
variable {s : Server F} {before after : List (Socket F)} {k k' : Socket F} {id : ℕ}

theorem inv_start : Inv (Server.start : Server F) where
  perm := .refl _
  nodup := List.nodup_nil
  created := nofun
  sound := nofun
  since := nofun
  blank := nofun
  sent := nofun
  follows := nofun

theorem id?_waiting (hk : k.handler = .waiting id) : k.id? = some id := by
  rw [Socket.id?, hk]

theorem mem_of_eq (h : s.sockets = before ++ k :: after) : k ∈ s.sockets := by
  rw [h]
  simp

theorem mem_replaced {j : Socket F} (h : s.sockets = before ++ k :: after)
    (hj : j ∈ before ++ k' :: after) : j = k' ∨ j ∈ s.sockets ∧ j ∈ before ++ after := by
  rw [List.mem_append, List.mem_cons] at hj
  rw [h, List.mem_append, List.mem_append, List.mem_cons]
  tauto

theorem Inv.subscribed (hs : Inv s) {j : Socket F} (hj : j ∈ s.sockets) (hid : j.id? = some id) :
    id ∈ ids s.hub :=
  hs.perm.mem_iff.mpr (List.mem_filterMap.mpr ⟨j, hj, hid⟩)

/-- No other socket has the same subscription. -/
theorem Inv.others_ne (hs : Inv s) (h : s.sockets = before ++ k :: after) (hk : k.id? = some id)
    {j : Socket F} (hj : j ∈ before ++ after) : j.id? ≠ some id := by
  have hnodup := hs.perm.nodup_iff.mp hs.nodup
  rw [h, List.filterMap_append, List.filterMap_cons_some hk, List.nodup_middle,
    List.nodup_cons, ← List.filterMap_append] at hnodup
  exact fun hid => hnodup.1 (List.mem_filterMap.mpr ⟨j, hj, hid⟩)

theorem Inv.move (hs : Inv s) (h : s.sockets = before ++ k :: after) (hid : k'.id? = k.id?)
    (hsince : k'.since = k.since) (hsent : k'.sent = k.sent)
    (haccepting : k'.handler = .accepting → k.handler = .accepting) :
    Inv { s with sockets := before ++ k' :: after } where
  perm := by
    have hperm := hs.perm
    rw [h, List.filterMap_append, List.filterMap_cons, ← hid] at hperm
    rw [List.filterMap_append, List.filterMap_cons]
    exact hperm
  nodup := hs.nodup
  created := hs.created
  sound := hs.sound
  since j hj := by
    rcases mem_replaced h hj with rfl | ⟨hj, -⟩
    · rw [hsince]
      exact hs.since k (mem_of_eq h)
    · exact hs.since j hj
  blank j hj := by
    rcases mem_replaced h hj with rfl | ⟨hj, -⟩
    · rw [hsent]
      exact fun ha => hs.blank k (mem_of_eq h) (haccepting ha)
    · exact hs.blank j hj
  sent j hj := by
    rcases mem_replaced h hj with rfl | ⟨hj, -⟩
    · rw [hsent, hsince]
      exact hs.sent k (mem_of_eq h)
    · exact hs.sent j hj
  follows j hj := by
    rcases mem_replaced h hj with rfl | ⟨hj, -⟩
    · rw [hid, hsent, hsince]
      exact hs.follows k (mem_of_eq h)
    · exact hs.follows j hj

theorem Inv.unsubscribe (hs : Inv s) (h : s.sockets = before ++ k :: after) (hk : k.id? = some id)
    {ending : Ending} (hended : k'.handler = .ended ending) (hsince : k'.since = k.since)
    (hsent : k'.sent = k.sent) :
    Inv { s with hub := s.hub.unsubscribe id, sockets := before ++ k' :: after } where
  perm := by
    have hnone : k'.id? = none := by rw [Socket.id?, hended]
    have hperm := hs.perm.filter (· ≠ id)
    have hothers : ((before ++ after).filterMap Socket.id?).filter (· ≠ id) =
        (before ++ after).filterMap Socket.id? := by
      rw [List.filter_eq_self]
      intro i hi
      obtain ⟨j, hj, hji⟩ := List.mem_filterMap.mp hi
      apply decide_eq_true
      rintro rfl
      exact hs.others_ne h hk hj hji
    rw [h, List.filterMap_append, List.filterMap_cons_some hk, List.filter_append,
      List.filter_cons_of_neg (by simp), ← List.filter_append, ← List.filterMap_append,
      hothers] at hperm
    rw [ids_unsubscribe, List.filterMap_append, List.filterMap_cons_none hnone,
      ← List.filterMap_append]
    exact hperm
  nodup := by
    rw [ids_unsubscribe]
    exact hs.nodup.filter _
  created i hi := by
    rw [ids_unsubscribe] at hi
    exact hs.created i (List.mem_of_mem_filter hi)
  sound := hs.sound.unsubscribe id
  since j hj := by
    rcases mem_replaced h hj with rfl | ⟨hj, -⟩
    · rw [hsince]
      exact hs.since k (mem_of_eq h)
    · exact hs.since j hj
  blank j hj := by
    rcases mem_replaced h hj with rfl | ⟨hj, -⟩
    · rw [hended]
      nofun
    · exact hs.blank j hj
  sent j hj := by
    rcases mem_replaced h hj with rfl | ⟨hj, -⟩
    · rw [hsent, hsince]
      exact hs.sent k (mem_of_eq h)
    · exact hs.sent j hj
  follows j hj i hid sub hsub := by
    rcases mem_replaced h hj with rfl | ⟨hj, -⟩
    · rw [Socket.id?, hended] at hid
      cases hid
    · exact hs.follows j hj i hid sub (List.mem_of_mem_filter hsub)

theorem Inv.subscribe (hs : Inv s) (h : s.sockets = before ++ k :: after)
    (hk : k.handler = .accepting) : Inv { s with
      hub := s.hub.subscribe
      sockets := before ++
        { k with handler := .waiting s.hub.created, since := s.frames.length } :: after } where
  perm := by
    have hperm := hs.perm
    have hnone : k.id? = none := by rw [Socket.id?, hk]
    rw [h, List.filterMap_append, List.filterMap_cons_none hnone] at hperm
    rw [ids_subscribe, List.filterMap_append, List.filterMap_cons_some (id?_waiting rfl)]
    exact ((hperm.append_right _).trans (List.perm_append_singleton _ _)).trans
      List.perm_middle.symm
  nodup := by
    rw [ids_subscribe, List.nodup_append]
    refine ⟨hs.nodup, List.nodup_singleton _, fun i hi j hj => ?_⟩
    rw [List.mem_singleton.mp hj]
    exact (hs.created i hi).ne
  created i hi := by
    rw [ids_subscribe, List.mem_append, List.mem_singleton] at hi
    rcases hi with hi | rfl
    · exact (hs.created i hi).trans (Nat.lt_succ_self _)
    · exact Nat.lt_succ_self _
  sound := hs.sound.subscribe
  since j hj := by
    rcases mem_replaced h hj with rfl | ⟨hj, -⟩
    · exact le_rfl
    · exact hs.since j hj
  blank j hj := by
    rcases mem_replaced h hj with rfl | ⟨hj, -⟩
    · nofun
    · exact hs.blank j hj
  sent j hj := by
    rcases mem_replaced h hj with rfl | ⟨hj, -⟩
    · rw [show k.sent = [] from hs.blank k (mem_of_eq h) hk]
      exact List.nil_sublist _
    · exact hs.sent j hj
  follows j hj i hid sub hsub := by
    have hold (hi : i ∈ ids s.hub) : (i, sub) ∈ s.hub.subscriptions := by
      rcases List.mem_append.mp hsub with hsub | hsub
      · exact hsub
      · obtain ⟨rfl, -⟩ := Prod.mk.inj (List.mem_singleton.mp hsub)
        exact absurd (hs.created _ hi) (lt_irrefl _)
    rcases mem_replaced h hj with rfl | ⟨hj, -⟩
    · obtain rfl := Option.some.inj ((id?_waiting rfl).symm.trans hid)
      rcases List.mem_append.mp hsub with hsub | hsub
      · exact absurd (hs.created _ (List.mem_map_of_mem hsub)) (lt_irrefl _)
      · obtain ⟨-, rfl⟩ := Prod.mk.inj (List.mem_singleton.mp hsub)
        have hblank : k.sent = [] := hs.blank k (mem_of_eq h) hk
        dsimp only
        rw [hblank, List.drop_length]
        exact ⟨[], rfl, List.Sublist.refl _, rfl⟩
    · exact hs.follows j hj i hid sub (hold (hs.subscribed hj hid))

theorem Inv.take (hs : Inv s) (h : s.sockets = before ++ k :: after) (hk : k.handler = .waiting id)
    {frame : BrowserFrame F} {sub sub' : QueueSubscription (BrowserFrame F)}
    (hsub : (id, sub) ∈ s.hub.subscriptions) (hget : sub.get = some (frame, sub')) :
    Inv { s with
      hub := s.hub.get id
      sockets := before ++
        { k with pump := .sending frame, sent := k.sent ++ [frame] } :: after } := by
  have hfollows : Follows (s.frames.drop k.since) (k.sent ++ [frame]) sub' :=
    (hs.follows k (mem_of_eq h) id (id?_waiting hk) sub hsub).get hget
  have hid : ({ k with pump := .sending frame, sent := k.sent ++ [frame] } : Socket F).id? =
      some id := id?_waiting hk
  constructor
  · have hperm := hs.perm
    rw [h, List.filterMap_append, List.filterMap_cons_some (id?_waiting hk)] at hperm
    rw [ids_get, List.filterMap_append, List.filterMap_cons_some hid]
    exact hperm
  · rw [ids_get]
    exact hs.nodup
  · rw [ids_get]
    exact hs.created
  · exact hs.sound.get id
  · intro j hj
    rcases mem_replaced h hj with rfl | ⟨hj, -⟩
    · exact hs.since k (mem_of_eq h)
    · exact hs.since j hj
  · intro j hj haccepting
    rcases mem_replaced h hj with rfl | ⟨hj, -⟩
    · rw [hk] at haccepting
      cases haccepting
    · exact hs.blank j hj haccepting
  · intro j hj
    rcases mem_replaced h hj with rfl | ⟨hj, -⟩
    · obtain ⟨earlier, hframes, hsent, -⟩ := hfollows
      dsimp only
      rw [hframes]
      exact hsent.trans (List.sublist_append_left ..)
    · exact hs.sent j hj
  · intro j hj i hid t ht
    obtain ⟨⟨i', t'⟩, ht', heq⟩ := List.mem_map.mp ht
    dsimp only at heq
    rcases mem_replaced h hj with rfl | ⟨hj, hother⟩
    · obtain rfl : id = i := Option.some.inj ((id?_waiting hk).symm.trans hid)
      split_ifs at heq with hi
      · subst hi
        obtain rfl : t' = sub := by
          have hpair := List.inj_on_of_nodup_map hs.nodup ht' hsub rfl
          exact congrArg Prod.snd hpair
        rw [hget] at heq
        obtain rfl : sub' = t := congrArg Prod.snd heq
        exact hfollows
      · exact absurd (congrArg Prod.fst heq) hi
    · have hne : i' ≠ id := by
        rintro rfl
        rw [if_pos rfl] at heq
        obtain rfl : i' = i := congrArg Prod.fst heq
        exact hs.others_ne h (id?_waiting hk) hother hid
      rw [if_neg hne] at heq
      rw [heq] at ht'
      exact hs.follows j hj i hid t ht'

theorem Inv.broadcast (hs : Inv s) (frame : BrowserFrame F) :
    Inv { s with hub := (s.hub.broadcast frame).2, frames := s.frames ++ [frame] } := by
  obtain ⟨hcreated, hids, hput⟩ := broadcast_spec hs.sound frame
  constructor
  · rw [hids]
    exact hs.perm
  · rw [hids]
    exact hs.nodup
  · rw [hids, hcreated]
    exact hs.created
  · exact sound_broadcast hs.sound frame
  · intro k hk
    rw [List.length_append]
    exact (hs.since k hk).trans (Nat.le_add_right _ _)
  · exact hs.blank
  · intro k hk
    rw [List.drop_append_of_le_length (hs.since k hk)]
    exact (hs.sent k hk).trans (List.sublist_append_left ..)
  · intro k hk id hid sub' hsub'
    obtain ⟨⟨i, sub⟩, hsub, rfl, hput⟩ := hput _ hsub'
    rw [List.drop_append_of_le_length (hs.since k hk)]
    exact (hs.follows k hk _ hid sub hsub).put (hs.sound _ hsub) hput

theorem Inv.connect (hs : Inv s) : Inv { s with sockets := s.sockets ++ [.fresh] } where
  perm := by
    rw [List.filterMap_append]
    exact hs.perm.trans (by rw [show [Socket.fresh].filterMap Socket.id? = ([] : List ℕ) from rfl,
      List.append_nil])
  nodup := hs.nodup
  created := hs.created
  sound := hs.sound
  since k hk := by
    rcases List.mem_append.mp hk with hk | hk
    · exact hs.since k hk
    · rw [List.mem_singleton.mp hk]
      exact Nat.zero_le _
  blank k hk := by
    rcases List.mem_append.mp hk with hk | hk
    · exact hs.blank k hk
    · rw [List.mem_singleton.mp hk]
      exact fun _ => rfl
  sent k hk := by
    rcases List.mem_append.mp hk with hk | hk
    · exact hs.sent k hk
    · rw [List.mem_singleton.mp hk]
      exact List.nil_sublist _
  follows k hk id hid := by
    rcases List.mem_append.mp hk with hk | hk
    · exact hs.follows k hk id hid
    · rw [List.mem_singleton.mp hk] at hid
      cases hid

end Invariant

theorem Inv.reaction {s t : Server F} (hs : Inv s) (h : Reaction s t) : Inv t := by
  cases h with
  | disconnected h hk hw hp => exact hs.move h rfl rfl rfl id
  | finish h hk hd => exact hs.unsubscribe h (id?_waiting hk) rfl rfl rfl

theorem Inv.step {s t : Server F} (hs : Inv s) (h : Step s t) : Inv t := by
  cases h with
  | react h => exact hs.reaction h
  | connect => exact hs.connect
  | refused ending h hk =>
    refine hs.move h ?_ rfl rfl nofun
    rw [Socket.id?, Socket.id?, hk]
  | accepted h hk => exact hs.subscribe h hk
  | broadcast frame => exact hs.broadcast frame
  | take h hk hp hsub hget => exact hs.take h hk hsub hget
  | sent h hk hp => exact hs.move h rfl rfl rfl id
  | sendRaised e h hk hp => exact hs.move h rfl rfl rfl id
  | receiveRaised e h hk hw => exact hs.move h rfl rfl rfl id
  | leave h => exact hs.move h rfl rfl rfl id
  | cancelled h hk => exact hs.unsubscribe h (id?_waiting hk) rfl rfl rfl

theorem Reachable.inv {s : Server F} (h : Reachable s) : Inv s := by
  induction h with
  | refl => exact inv_start
  | tail _ hstep ih => exact ih.step hstep

/-- In every run each handler that has subscribed and has not ended has a subscription of its own,
and nobody else has one. What its socket has been sent are the frames since then in their order, but
for those that its queue has dropped and counted and those that are still in it. -/
theorem sockets_subscribed {s : Server F} (h : Reachable s) :
    (ids s.hub).Nodup ∧ (ids s.hub).Perm (s.sockets.filterMap Socket.id?) ∧
      (∀ k ∈ s.sockets, k.sent.Sublist (s.frames.drop k.since)) ∧
      ∀ k ∈ s.sockets, ∀ id, k.id? = some id → ∃ sub, (id, sub) ∈ s.hub.subscriptions ∧
        sub.queue.items.length ≤ queueCapacity ∧ Follows (s.frames.drop k.since) k.sent sub := by
  have hs := h.inv
  refine ⟨hs.nodup, hs.perm, hs.sent, fun k hk id hid => ?_⟩
  obtain ⟨⟨i, sub⟩, hsub, rfl⟩ := List.mem_map.mp (hs.subscribed hk hid)
  exact ⟨sub, hsub, (hs.sound _ hsub).2, hs.follows k hk i hid sub hsub⟩

/-- The tasks are cancelled at the end of the handler. -/
def Socket.Live (k : Socket F) : Prop :=
  k.watch = .cancelled → ∃ ending, k.handler = .ended ending

theorem Step.live {s t : Server F} (hs : ∀ k ∈ s.sockets, k.Live) (h : Step s t) :
    ∀ k ∈ t.sockets, k.Live := by
  intro j hj
  cases h with
  | react h =>
    cases h with
    | disconnected h hk hw hp =>
      rcases mem_replaced h hj with rfl | ⟨hj, -⟩
      · nofun
      · exact hs j hj
    | finish h hk hd =>
      rcases mem_replaced h hj with rfl | ⟨hj, -⟩
      · exact fun _ => ⟨_, rfl⟩
      · exact hs j hj
  | connect =>
    rcases List.mem_append.mp hj with hj | hj
    · exact hs j hj
    · rw [List.mem_singleton.mp hj]
      nofun
  | accepted h hk =>
    have hlive := hs _ (mem_of_eq h)
    rcases mem_replaced h hj with rfl | ⟨hj, -⟩
    · intro hw
      obtain ⟨ending, hended⟩ := hlive hw
      rw [hk] at hended
      cases hended
    · exact hs j hj
  | broadcast frame => exact hs j hj
  | take h | sent h | sendRaised e h | leave h =>
    have hlive := hs _ (mem_of_eq h)
    rcases mem_replaced h hj with rfl | ⟨hj, -⟩
    · exact hlive
    · exact hs j hj
  | receiveRaised e h hk hw =>
    rcases mem_replaced h hj with rfl | ⟨hj, -⟩
    · nofun
    · exact hs j hj
  | refused ending h | cancelled h =>
    rcases mem_replaced h hj with rfl | ⟨hj, -⟩
    · exact fun _ => ⟨_, rfl⟩
    · exact hs j hj

theorem Reachable.live {s : Server F} (h : Reachable s) : ∀ k ∈ s.sockets, k.Live := by
  induction h with
  | refl => nofun
  | tail _ hstep ih => exact hstep.live ih

/-- How many reactions are left. -/
def Socket.cost (k : Socket F) : ℕ :=
  match k.handler, k.watch with
  | .waiting _, .receiving => 2
  | .waiting _, _ => 1
  | _, _ => 0

def Server.cost (s : Server F) : ℕ :=
  (s.sockets.map Socket.cost).sum

theorem Socket.cost_le (k : Socket F) : k.cost ≤ 2 := by
  unfold Socket.cost
  split <;> omega

theorem Server.cost_le (s : Server F) : s.cost ≤ 2 * s.sockets.length := by
  have hsum : s.cost ≤ s.sockets.length • 2 := by
    have hle := List.sum_le_card_nsmul (s.sockets.map Socket.cost) 2 fun n hn => by
      obtain ⟨k, -, rfl⟩ := List.mem_map.mp hn
      exact k.cost_le
    rwa [List.length_map] at hle
  rwa [smul_eq_mul, Nat.mul_comm] at hsum

theorem cost_replaced {s : Server F} {before after : List (Socket F)} {k k' : Socket F}
    (h : s.sockets = before ++ k :: after) (hk : k'.cost < k.cost) (hub : BrowserHub F) :
    Server.cost { s with hub, sockets := before ++ k' :: after } < s.cost := by
  rw [Server.cost, Server.cost, h]
  simp only [List.map_append, List.map_cons, List.sum_append, List.sum_cons]
  omega

theorem Reaction.cost_lt {s t : Server F} (h : Reaction s t) : t.cost < s.cost := by
  cases h with
  | disconnected h hk hw hp =>
    refine cost_replaced h ?_ s.hub
    simp only [Socket.cost, hk, hw]
    omega
  | @finish before after k id h hk hd =>
    refine cost_replaced h ?_ _
    have hpos : 0 < k.cost := by
      cases hw : k.watch <;> simp [Socket.cost, hk, hw]
    exact hpos

theorem reaction_spends : Spends (Reaction (F := F)) (fun _ => True) Server.cost where
  keep _ _ _ _ := trivial
  lt _ _ _ h := h.cost_lt

/-- The event loop has nothing left to do by itself. -/
abbrev Settled (s : Server F) : Prop :=
  Resting Reaction s

theorem Settled.open {s : Server F} (h : Settled s) (hlive : ∀ k ∈ s.sockets, k.Live)
    {k : Socket F} (hk : k ∈ s.sockets) {id : ℕ} (hid : k.handler = .waiting id) :
    k.peer = true ∧ ¬k.Done := by
  obtain ⟨before, after, hsockets⟩ := List.append_of_mem hk
  have hdone : ¬k.Done := fun hd => h _ (.finish hsockets hid hd)
  refine ⟨?_, hdone⟩
  by_contra hpeer
  cases hw : k.watch with
  | receiving =>
    exact h _ (.disconnected hsockets hid hw (Bool.eq_false_iff.mpr hpeer))
  | raised e => exact hdone (Or.inr (by rw [Socket.watchError, hw]; rfl))
  | cancelled =>
    obtain ⟨ending, hended⟩ := hlive k hk hw
    rw [hid] at hended
    cases hended

theorem Reaction.peers {s t : Server F} (h : Reaction s t) :
    t.sockets.map Socket.peer = s.sockets.map Socket.peer := by
  cases h with
  | disconnected h =>
    rw [h, List.map_append, List.map_append]
    rfl
  | finish h =>
    rw [h, List.map_append, List.map_append]
    rfl

theorem handler_of_id? {k : Socket F} {id : ℕ} (h : k.id? = some id) : k.handler = .waiting id := by
  unfold Socket.id? at h
  split at h
  · rwa [← Option.some.inj h]
  · cases h

/-- From every state that can be reached the event loop comes to rest by itself, after at most two
steps a socket, and then the subscriptions are those of the handlers whose browser is still there
and whose tasks both run. -/
theorem hung_up_unsubscribed {s : Server F} (h : Reachable s) :
    (∀ n (run : ℕ → Server F), run 0 = s → (∀ i < n, Reaction (run i) (run (i + 1))) →
      n ≤ 2 * s.sockets.length) ∧
    (∃ t, Relation.ReflTransGen Reaction s t ∧ Settled t) ∧
    ∀ t, Relation.ReflTransGen Reaction s t → Settled t →
      t.sockets.map Socket.peer = s.sockets.map Socket.peer ∧
      ∀ id, id ∈ ids t.hub ↔
        ∃ k ∈ t.sockets, k.handler = .waiting id ∧ k.peer = true ∧ ¬k.Done := by
  refine ⟨?_, reaction_spends.exists_resting trivial, fun t hrun hsettled => ⟨?_, fun id => ?_⟩⟩
  · intro n run hstart hrun
    exact (reaction_spends.length_le trivial hstart hrun).trans s.cost_le
  · clear hsettled
    induction hrun with
    | refl => rfl
    | tail _ hstep ih => rw [hstep.peers, ih]
  · have hreachable : Reachable t :=
      h.trans (Relation.ReflTransGen.mono (fun _ _ => Step.react) _ _ hrun)
    rw [hreachable.inv.perm.mem_iff, List.mem_filterMap]
    constructor
    · rintro ⟨k, hk, hid⟩
      have hhandler := handler_of_id? hid
      exact ⟨k, hk, hhandler, hsettled.open hreachable.live hk hhandler⟩
    · rintro ⟨k, hk, hhandler, -⟩
      exact ⟨k, hk, id?_waiting hhandler⟩

def lagFrame (n : ℤ) : BrowserFrame ℚ :=
  .lagged (.int n)

/-- The first of two browsers is gone behind its first frame, and the second came after that one. -/
def goneSocket : Socket ℚ :=
  ⟨.waiting 0, .sending (lagFrame 1), .receiving, false, 0, [lagFrame 1]⟩

def laterSocket : Socket ℚ :=
  ⟨.waiting 1, .getting, .receiving, true, 1, []⟩

def leftServer : Server ℚ where
  hub := ⟨2, [(0, ⟨⟨queueCapacity, [lagFrame 2]⟩, 0⟩), (1, ⟨⟨queueCapacity, [lagFrame 2]⟩, 0⟩)], 2⟩
  sockets := [goneSocket, laterSocket]
  frames := [lagFrame 1, lagFrame 2]

theorem leftServer_reachable : Reachable leftServer := by
  have hconnect : Reachable (F := ℚ) _ := .single .connect
  have haccepted := hconnect.tail (@Step.accepted _ _ [] [] _ rfl rfl)
  have hframe := haccepted.tail (.broadcast (lagFrame 1))
  have htaken := hframe.tail (@Step.take _ _ [] [] _ _ _ _ _ rfl rfl rfl
    (List.mem_singleton_self _) rfl)
  have hconnect' := htaken.tail .connect
  have haccepted' := hconnect'.tail (@Step.accepted _ _ [_] [] _ rfl rfl)
  have hframe' := haccepted'.tail (.broadcast (lagFrame 2))
  have hleft := hframe'.tail (@Step.leave _ _ [] [_] _ rfl)
  exact hleft

theorem sockets_subscribed_sample :
    (∃ sub, (0, sub) ∈ leftServer.hub.subscriptions ∧
      Follows [lagFrame 1, lagFrame 2] [lagFrame 1] sub) ∧
    ∃ sub, (1, sub) ∈ leftServer.hub.subscriptions ∧ Follows [lagFrame 2] [] sub := by
  obtain ⟨-, -, -, hsub⟩ := sockets_subscribed leftServer_reachable
  obtain ⟨sub, hmem, -, hfollows⟩ := hsub goneSocket (by simp [leftServer]) 0 rfl
  obtain ⟨sub', hmem', -, hfollows'⟩ := hsub laterSocket (by simp [leftServer]) 1 rfl
  exact ⟨⟨sub, hmem, hfollows⟩, sub', hmem', hfollows'⟩

def settledServer : Server ℚ where
  hub := leftServer.hub.unsubscribe 0
  sockets := [{ goneSocket with
      handler := .ended .returned, pump := .cancelled, watch := .raised .suppressed }, laterSocket]
  frames := leftServer.frames

theorem leftServer_settles :
    Relation.ReflTransGen Reaction leftServer settledServer ∧ Settled settledServer := by
  constructor
  · have hgone := @Reaction.disconnected ℚ leftServer [] [laterSocket] goneSocket 0 rfl rfl rfl rfl
    have hfinish := @Reaction.finish ℚ { leftServer with
      sockets := [{ goneSocket with watch := .raised .suppressed }, laterSocket] } [] [laterSocket]
      { goneSocket with watch := .raised .suppressed } 0 rfl rfl (Or.inr rfl)
    exact (Relation.ReflTransGen.single hgone).tail hfinish
  · have hsocket {before after : List (Socket ℚ)} {k : Socket ℚ} {id : ℕ}
        (h : settledServer.sockets = before ++ k :: after) (hk : k.handler = .waiting id) :
        k = laterSocket := by
      have hmem : k ∈ settledServer.sockets := h ▸ List.mem_append_right _ (List.mem_cons_self ..)
      rcases List.mem_cons.mp hmem with rfl | hlater
      · cases hk
      · exact List.mem_singleton.mp hlater
    intro t ht
    cases ht with
    | disconnected h hk hw hp =>
      rw [hsocket h hk] at hp
      cases hp
    | finish h hk hd =>
      rw [hsocket h hk] at hd
      rcases hd with hpump | hwatch
      · cases hpump
      · cases hwatch

theorem hung_up_unsubscribed_sample : ∃ t, Relation.ReflTransGen Reaction leftServer t ∧
    ∀ id, id ∈ ids t.hub ↔ id = 1 := by
  obtain ⟨hrun, hsettled⟩ := leftServer_settles
  obtain ⟨-, -, hends⟩ := hung_up_unsubscribed leftServer_reachable
  refine ⟨_, hrun, fun id => ((hends _ hrun hsettled).2 id).trans ⟨?_, ?_⟩⟩
  · rintro ⟨k, hk, hwaiting, hpeer, -⟩
    rcases List.mem_cons.mp hk with rfl | hlater
    · cases hpeer
    · rw [List.mem_singleton.mp hlater] at hwaiting
      cases hwaiting
      rfl
  · rintro rfl
    exact ⟨laterSocket, by simp [settledServer], rfl, rfl, by simp [Socket.Done, laterSocket,
      Socket.pumpError, Socket.watchError]⟩

end Ledger.Backend.WsBlocks

import Ledger.System.TtlCache
import Ledger.Text.Bytes

/-! `RegistryEnricher`: what the registry knows of the actor of a block, kept for some seconds. -/
namespace Ledger.Backend
open Text
variable {F : Type}

/-- What `json.loads` makes of a text. -/
inductive PyValue (F : Type)
  | none
  | bool (b : Bool)
  | int (i : ℤ)
  | float (x : F)
  | str (s : Bytes)
  | list (items : List (PyValue F))
  | dict (items : List (Bytes × PyValue F))

abbrev PyDict (F : Type) := Dict Bytes (PyValue F)

/-- A row of `devices`, with the columns that a lookup returns. -/
structure Device where
  deviceType : Bytes
  locationId : Option Bytes

/-- The rows by their key. -/
abbrev DeviceTable := Bytes → Option Device

/-- What goes to the browsers. A `bool` is an `int`, and a lag notice may have one. -/
inductive BrowserFrame (F : Type)
  | block (block : PyDict F) (device : Option Device)
  | lagged (dropped : PyValue F)

structure RegistryEnricher where
  ttl : ℚ
  cache : Dict Bytes (ℚ × Option Device)

namespace RegistryEnricher

/-- The part of `device` that asks the registry; `none` is an exception of `_lookup`. -/
def lookUp (e : RegistryEnricher) (lookup : Bytes → Option (Option Device)) (now : ℚ)
    (deviceId : Bytes) : Option Device × RegistryEnricher :=
  match lookup deviceId with
  | none => (none, e)
  | some found => (found, { e with cache := e.cache.set deviceId (now, found) })

/-- `device`; `round` is the rounding of a difference of floats. -/
def device (round : ℚ → ℚ) (e : RegistryEnricher) (lookup : Bytes → Option (Option Device))
    (now : ℚ) (deviceId : Bytes) : Option Device × RegistryEnricher :=
  match e.cache.get deviceId with
  | none => e.lookUp lookup now deviceId
  | some cached =>
    if round (now - cached.1) < e.ttl then (cached.2, e) else e.lookUp lookup now deviceId

end RegistryEnricher

def actorIn (event : PyDict F) : Option Bytes :=
  match event.get (ascii "actor") with
  | some (.str actor) => if actor = [] then none else some actor
  | _ => none

/-- `enrich`; the frame is `none` where there is an `AttributeError`. -/
def RegistryEnricher.enrich (round : ℚ → ℚ) (e : RegistryEnricher)
    (lookup : Bytes → Option (Option Device)) (now : ℚ) (block : PyDict F) :
    Option (BrowserFrame F) × RegistryEnricher :=
  match (block.get (ascii "event")).getD (.dict []) with
  | .dict event =>
    match actorIn event with
    | none => (some (.block block none), e)
    | some actor =>
      let (device, e) := e.device round lookup now actor
      (some (.block block device), e)
  | _ => (none, e)

def actorOf (block : PyDict F) : Option Bytes :=
  match (block.get (ascii "event")).getD (.dict []) with
  | .dict event => actorIn event
  | _ => none

section Enrich
variable {round : ℚ → ℚ} {e : RegistryEnricher} {lookup : Bytes → Option (Option Device)} {now : ℚ}
  {block : PyDict F}

theorem enrich_of_actor {actor : Bytes} (h : actorOf block = some actor) :
    e.enrich round lookup now block = (some (.block block (e.device round lookup now actor).1),
      (e.device round lookup now actor).2) := by
  unfold actorOf at h
  unfold RegistryEnricher.enrich
  cases hevent : (block.get (ascii "event")).getD (.dict []) with
  | dict event =>
    rw [hevent] at h
    dsimp only at h ⊢
    rw [h]
  | _ =>
    rw [hevent] at h
    cases h

theorem enrich_of_no_actor (h : actorOf block = none) :
    (e.enrich round lookup now block).2 = e := by
  unfold actorOf at h
  unfold RegistryEnricher.enrich
  cases hevent : (block.get (ascii "event")).getD (.dict []) with
  | dict event =>
    rw [hevent] at h
    dsimp only at h ⊢
    rw [h]
  | _ => rfl

theorem enrich_isSome_iff : (e.enrich round lookup now block).1.isSome ↔
    ∃ event, (block.get (ascii "event")).getD (.dict []) = .dict event := by
  unfold RegistryEnricher.enrich
  cases (block.get (ascii "event")).getD (.dict []) with
  | dict event =>
    dsimp only
    cases actorIn event with
    | none => simp
    | some actor => simp
  | _ => simp

theorem enrich_eq_block {frame : BrowserFrame F}
    (h : (e.enrich round lookup now block).1 = some frame) :
    ∃ device, frame = .block block device := by
  unfold RegistryEnricher.enrich at h
  split at h
  · split at h
    · exact ⟨none, (Option.some.inj h).symm⟩
    · exact ⟨_, (Option.some.inj h).symm⟩
  · cases h

end Enrich

/-- What has been looked up at a time is served at another. -/
abbrev Young (round : ℚ → ℚ) (ttl now since : ℚ) : Prop :=
  round (now - since) < ttl

theorem device_eq (round : ℚ → ℚ) (e : RegistryEnricher) (lookup : Bytes → Option (Option Device))
    (now : ℚ) (deviceId : Bytes) :
    e.device round lookup now deviceId =
      ((TtlCache.result (Young round e.ttl) e.cache ⟨deviceId, now, lookup deviceId⟩).join,
        ⟨e.ttl, TtlCache.access (Young round e.ttl) e.cache ⟨deviceId, now, lookup deviceId⟩⟩) := by
  have hlook : e.lookUp lookup now deviceId = ((lookup deviceId).join,
      ⟨e.ttl, (lookup deviceId).elim e.cache fun found => e.cache.set deviceId (now, found)⟩) := by
    unfold RegistryEnricher.lookUp
    cases lookup deviceId <;> rfl
  unfold RegistryEnricher.device TtlCache.result TtlCache.access TtlCache.cached
  rw [hlook]
  cases e.cache.get deviceId with
  | none => cases lookup deviceId <;> rfl
  | some cached =>
    dsimp only [Option.bind_some]
    split_ifs
    · rfl
    · cases lookup deviceId <;> rfl

/-- A call of `enrich`: when it is made, when it reads the clock, when its lookup starts if it makes
one, and whether the registry answers. -/
structure Call (F : Type) where
  block : PyDict F
  called : ℚ
  now : ℚ
  started : ℚ
  answers : Bool

inductive RegistryEvent (F : Type)
  | change (registry : DeviceTable)
  | enrich (call : Call F)

namespace RegistryEvent

def times : RegistryEvent F → List ℚ
  | change _ => []
  | enrich c => [c.called, c.now, c.started]

/-- All but the calls for other actors. -/
def concerns (actor : Bytes) : RegistryEvent F → Bool
  | change _ => true
  | enrich c => actorOf c.block = some actor

end RegistryEvent

def Timely (events : List (RegistryEvent F)) : Prop :=
  (events.flatMap RegistryEvent.times).Pairwise (· ≤ ·)

structure World where
  registry : DeviceTable
  enricher : RegistryEnricher

namespace World

/-- `_lookup`, in a call. -/
def lookup (w : World) (c : Call F) (actor : Bytes) : Option (Option Device) :=
  if c.answers then some (w.registry actor) else none

def enrich (round : ℚ → ℚ) (w : World) (c : Call F) : Option (BrowserFrame F) × RegistryEnricher :=
  w.enricher.enrich round (w.lookup c) c.now c.block

def step (round : ℚ → ℚ) (w : World) : RegistryEvent F → World
  | .change registry => { w with registry }
  | .enrich c => { w with enricher := (w.enrich round c).2 }

def run (round : ℚ → ℚ) (w : World) (events : List (RegistryEvent F)) : World :=
  events.foldl (step round) w

def start (ttl : ℚ) (registry : DeviceTable) : World :=
  ⟨registry, ⟨ttl, []⟩⟩

def Asks (round : ℚ → ℚ) (w : World) (c : Call F) (actor : Bytes) : Prop :=
  ∀ cached, w.enricher.cache.get actor = some cached → ¬round (c.now - cached.1) < w.enricher.ttl

end World

def accessOf (registry : DeviceTable) (c : Call F) :
    Option (TtlCache.Access Bytes (Option Device) ℚ) :=
  (actorOf c.block).map fun actor =>
    ⟨actor, c.now, if c.answers then some (registry actor) else none⟩

def registryAfter (registry : DeviceTable) : List (RegistryEvent F) → DeviceTable
  | [] => registry
  | .change registry' :: events => registryAfter registry' events
  | .enrich _ :: events => registryAfter registry events

def accesses (registry : DeviceTable) :
    List (RegistryEvent F) → List (TtlCache.Access Bytes (Option Device) ℚ)
  | [] => []
  | .change registry' :: events => accesses registry' events
  | .enrich c :: events => (accessOf registry c).toList ++ accesses registry events

section Runs
variable {round : ℚ → ℚ} {ttl : ℚ} {registry : DeviceTable} {events : List (RegistryEvent F)}
  {c : Call F} {actor : Bytes}

theorem World.enrich_snd (w : World) (c : Call F) : (w.enrich round c).2 =
    ⟨w.enricher.ttl, (accessOf w.registry c).toList.foldl
      (TtlCache.access (Young round w.enricher.ttl)) w.enricher.cache⟩ := by
  unfold World.enrich accessOf
  cases hactor : actorOf c.block with
  | none =>
    rw [enrich_of_no_actor hactor]
    rfl
  | some actor =>
    rw [enrich_of_actor hactor, device_eq]
    rfl

theorem run_eq (registry : DeviceTable) (cache : Dict Bytes (ℚ × Option Device))
    (events : List (RegistryEvent F)) :
    World.run round ⟨registry, ⟨ttl, cache⟩⟩ events = ⟨registryAfter registry events,
      ⟨ttl, (accesses registry events).foldl (TtlCache.access (Young round ttl)) cache⟩⟩ := by
  induction events generalizing registry cache with
  | nil => rfl
  | cons event events ih =>
    cases event with
    | change registry' => exact ih registry' cache
    | enrich c =>
      rw [World.run, List.foldl_cons, World.step, World.enrich_snd, accesses, List.foldl_append,
        registryAfter]
      exact ih registry _

theorem run_start (round : ℚ → ℚ) (ttl : ℚ) (registry : DeviceTable)
    (events : List (RegistryEvent F)) :
    World.run round (.start ttl registry) events = ⟨registryAfter registry events,
      ⟨ttl, TtlCache.after (Young round ttl) (accesses registry events)⟩⟩ :=
  run_eq registry [] events

theorem exists_of_accesses {earlier later : List (TtlCache.Access Bytes (Option Device) ℚ)}
    {b : TtlCache.Access Bytes (Option Device) ℚ}
    (h : accesses registry events = earlier ++ b :: later) :
    ∃ before c after, events = before ++ .enrich c :: after ∧ accesses registry before = earlier ∧
      accessOf (registryAfter registry before) c = some b := by
  induction events generalizing registry earlier with
  | nil => simp [accesses] at h
  | cons event events ih =>
    cases event with
    | change registry' =>
      have htail : accesses registry' events = earlier ++ b :: later := h
      obtain ⟨before, c, after, rfl, hbefore, hc⟩ := ih htail
      exact ⟨.change registry' :: before, c, after, rfl, hbefore, hc⟩
    | enrich c =>
      rw [accesses] at h
      cases haccess : accessOf registry c with
      | none =>
        rw [haccess] at h
        obtain ⟨before, c', after, rfl, hbefore, hc'⟩ := ih h
        refine ⟨.enrich c :: before, c', after, rfl, ?_, hc'⟩
        rw [accesses, haccess, hbefore]
        rfl
      | some a =>
        rw [haccess] at h
        cases earlier with
        | nil => exact ⟨[], c, events, rfl, rfl, haccess.trans (by rw [(List.cons.inj h).1])⟩
        | cons a' earlier =>
          obtain ⟨rfl, htail⟩ := List.cons.inj h
          obtain ⟨before, c', after, rfl, hbefore, hc'⟩ := ih htail
          refine ⟨.enrich c :: before, c', after, rfl, ?_, hc'⟩
          rw [accesses, haccess, hbefore]
          rfl

theorem registryAfter_filter (registry : DeviceTable) (events : List (RegistryEvent F))
    (actor : Bytes) : registryAfter registry (events.filter (RegistryEvent.concerns actor)) =
      registryAfter registry events := by
  induction events generalizing registry with
  | nil => rfl
  | cons event events ih =>
    cases event with
    | change registry' => exact ih registry'
    | enrich c =>
      rw [List.filter_cons]
      split_ifs
      · exact ih registry
      · exact ih registry

theorem accesses_filter (registry : DeviceTable) (events : List (RegistryEvent F)) (actor : Bytes) :
    accesses registry (events.filter (RegistryEvent.concerns actor)) =
      (accesses registry events).filter fun a => a.key = actor := by
  induction events generalizing registry with
  | nil => rfl
  | cons event events ih =>
    cases event with
    | change registry' => exact ih registry'
    | enrich c =>
      rw [accesses, List.filter_append, ← ih registry]
      cases hactor : actorOf c.block with
      | none => simp [RegistryEvent.concerns, accessOf, hactor]
      | some other =>
        by_cases hother : other = actor
        · simp [RegistryEvent.concerns, accesses, accessOf, hactor, hother]
        · simp [RegistryEvent.concerns, accessOf, hactor, hother]

theorem asks_iff {w : World} : w.Asks round c actor ↔
    TtlCache.cached (Young round w.enricher.ttl) w.enricher.cache actor c.now = none := by
  rw [TtlCache.cached, Option.bind_eq_none_iff]
  refine forall₂_congr fun cached hcached => ?_
  simp

theorem accessOf_eq_some {a : TtlCache.Access Bytes (Option Device) ℚ}
    (h : accessOf registry c = some a) : actorOf c.block = some a.key ∧
      a = ⟨a.key, c.now, if c.answers then some (registry a.key) else none⟩ := by
  obtain ⟨actor, hactor, rfl⟩ := Option.map_eq_some_iff.mp h
  exact ⟨hactor, rfl⟩

/-- What is served without a lookup was looked up within the last `ttl`. -/
theorem lt_of_young (hmono : Monotone round) (httl : round ttl = ttl) {now since : ℚ}
    (h : Young round ttl now since) : now - since < ttl := by
  by_contra hle
  have hround := hmono (not_lt.mp hle)
  rw [httl] at hround
  exact absurd h (not_lt.mpr hround)

theorem Timely.le {earlier later : List (RegistryEvent F)} {b c : Call F}
    (h : Timely (earlier ++ .enrich b :: later ++ [.enrich c])) :
    b.now ≤ b.started ∧ b.started ≤ c.called ∧ c.called ≤ c.now := by
  rw [Timely, List.append_assoc, List.flatMap_append, List.cons_append, List.flatMap_cons,
    List.flatMap_append] at h
  have htail := (List.pairwise_append.mp h).2.1
  obtain ⟨hb, hrest, hbetween⟩ := List.pairwise_append.mp htail
  have hc := (List.pairwise_append.mp hrest).2.1
  simp only [RegistryEvent.times, List.flatMap_cons, List.flatMap_nil, List.append_nil,
    List.pairwise_cons, List.mem_cons, List.mem_append, List.not_mem_nil] at hb hc hbetween
  exact ⟨hb.2.1 _ (.inl rfl), hbetween _ (.inr (.inr (.inl rfl))) _ (.inr (.inl rfl)),
    hc.1 _ (.inl rfl)⟩

/-- What a call for an actor may attach, where some events have been before it: nothing if its own
lookup failed, and else what its own lookup found, or what one found that was started less than
`ttl` before the call. -/
inductive Origin (round : ℚ → ℚ) (ttl : ℚ) (registry : DeviceTable)
    (before : List (RegistryEvent F)) (c : Call F) (actor : Bytes) : Option Device → Prop
  | failed (hasks : (World.run round (.start ttl registry) before).Asks round c actor)
      (hfails : c.answers = false) : Origin round ttl registry before c actor none
  | found (hasks : (World.run round (.start ttl registry) before).Asks round c actor)
      (hanswers : c.answers = true) : Origin round ttl registry before c actor
        ((World.run round (.start ttl registry) before).registry actor)
  | kept {earlier later : List (RegistryEvent F)} {b : Call F}
      (hbefore : before = earlier ++ .enrich b :: later) (hactor : actorOf b.block = some actor)
      (hasks : (World.run round (.start ttl registry) earlier).Asks round b actor)
      (hanswers : b.answers = true) (hstarted : b.started ≤ c.called)
      (hyoung : c.called - b.started < ttl) : Origin round ttl registry before c actor
        ((World.run round (.start ttl registry) earlier).registry actor)

def World.access (w : World) (c : Call F) (actor : Bytes) :
    TtlCache.Access Bytes (Option Device) ℚ :=
  ⟨actor, c.now, w.lookup c actor⟩

theorem World.enrich_of_actor (w : World) (hactor : actorOf c.block = some actor) :
    w.enrich round c = (some (.block c.block (TtlCache.result (Young round w.enricher.ttl)
        w.enricher.cache (w.access c actor)).join),
      ⟨w.enricher.ttl,
        TtlCache.access (Young round w.enricher.ttl) w.enricher.cache (w.access c actor)⟩) := by
  rw [World.enrich, Backend.enrich_of_actor hactor, device_eq]
  rfl

theorem World.lookup_eq_some {w : World} {found : Option Device}
    (h : w.lookup c actor = some found) : c.answers = true ∧ found = w.registry actor := by
  unfold World.lookup at h
  split_ifs at h with hanswers
  exact ⟨hanswers, (Option.some.inj h).symm⟩

/-- What a call attaches has such an origin. -/
theorem origin_of_result (hmono : Monotone round) (httl : round ttl = ttl)
    {before : List (RegistryEvent F)} (htimely : Timely (before ++ [.enrich c])) (actor : Bytes) :
    Origin round ttl registry before c actor
      (TtlCache.result (Young round ttl)
        (TtlCache.after (Young round ttl) (accesses registry before))
        ((World.run round (.start ttl registry) before).access c actor)).join := by
  have hrun := run_start (F := F) round ttl registry
  cases hresult : TtlCache.result (Young round ttl)
      (TtlCache.after (Young round ttl) (accesses registry before))
      ((World.run round (.start ttl registry) before).access c actor) with
  | none =>
    obtain ⟨hlooks, hfound⟩ := Option.or_eq_none_iff.mp hresult
    have hfails : c.answers = false := by
      by_contra hanswers
      simp [World.access, World.lookup, hanswers] at hfound
    refine .failed (asks_iff.mpr ?_) hfails
    rw [hrun]
    exact hlooks
  | some v =>
    obtain ⟨hlooks, hfound⟩ | ⟨earlier, b, later, hsplit, hlooks, hkey, hfound, hyoung⟩ :=
      TtlCache.exists_of_result hresult
    · obtain ⟨hanswers, rfl⟩ := World.lookup_eq_some hfound
      refine .found (asks_iff.mpr ?_) hanswers
      rw [hrun]
      exact hlooks
    · obtain ⟨prior, d, rest, rfl, rfl, haccess⟩ := exists_of_accesses hsplit
      obtain ⟨hactor, hb⟩ := accessOf_eq_some haccess
      obtain ⟨hd, hstarted, hcalled⟩ := htimely.le
      have hlookup : (World.run round (.start ttl registry) prior).lookup d b.key = some v := by
        rw [hrun, World.lookup, ← hfound, hb]
      obtain ⟨hanswers, rfl⟩ := World.lookup_eq_some hlookup
      have hlt : c.now - b.now < ttl := lt_of_young hmono httl hyoung
      have hnow : b.now = d.now := by rw [hb]
      rw [hb] at hlooks
      change b.key = actor at hkey
      subst hkey
      refine .kept rfl hactor (asks_iff.mpr ?_) hanswers hstarted (by linarith)
      rw [hrun]
      exact hlooks

/-- Enrichment is never staler than its lifetime: what a call attaches was not found before, a
failed lookup leaves the cache as it is, and the calls for other actors do not matter. -/
theorem enrichment_fresh (hmono : Monotone round) (httl : round ttl = ttl) (registry : DeviceTable)
    {before : List (RegistryEvent F)} (htimely : Timely (before ++ [.enrich c]))
    (hactor : actorOf c.block = some actor) :
    (∃ device, ((World.run round (.start ttl registry) before).enrich round c).1 =
        some (.block c.block device) ∧
      Origin round ttl registry before c actor device) ∧
    (c.answers = false → ((World.run round (.start ttl registry) before).enrich round c).2 =
      (World.run round (.start ttl registry) before).enricher) ∧
    ((World.run round (.start ttl registry) (before.filter (RegistryEvent.concerns actor))).enrich
      round c).1 = ((World.run round (.start ttl registry) before).enrich round c).1 := by
  have hrun := run_start (F := F) round ttl registry
  refine ⟨⟨_, ?_, origin_of_result hmono httl htimely actor⟩, ?_, ?_⟩
  · rw [World.enrich_of_actor _ hactor, hrun]
  · intro hfails
    have hfound : (World.access (World.run round (.start ttl registry) before) c actor).found
        = none := by
      simp [World.access, World.lookup, hfails]
    rw [World.enrich_of_actor _ hactor, TtlCache.access_of_failed hfound]
  · have hget := TtlCache.get_after_filter (Young round ttl) (accesses registry before) actor
    rw [← accesses_filter] at hget
    rw [World.enrich_of_actor _ hactor, World.enrich_of_actor _ hactor, hrun, hrun,
      registryAfter_filter]
    rw [TtlCache.result_congr hget.symm]
    rfl

end Runs

def sampleCall (now : ℚ) : Call ℕ :=
  ⟨[(ascii "event", .dict [(ascii "actor", .str (ascii "acc-0"))])], now, now, now, true⟩

theorem enrichment_fresh_sample :
    (∃ device, ((World.run id (.start 30 fun _ => none) [.enrich (sampleCall 0),
        .change fun _ => some ⟨ascii "sensor", none⟩]).enrich id (sampleCall 29)).1 =
        some (.block (sampleCall 29).block device) ∧
      Origin id 30 (fun _ => none) [.enrich (sampleCall 0),
        .change fun _ => some ⟨ascii "sensor", none⟩] (sampleCall 29) (ascii "acc-0") device) := by
  have htimely : Timely ([.enrich (sampleCall 0), .change fun _ => some ⟨ascii "sensor", none⟩] ++
      [.enrich (sampleCall 29)]) := by
    simp [Timely, RegistryEvent.times, sampleCall]
  have hactor : actorOf (sampleCall 29).block = some (ascii "acc-0") := by
    simp [actorOf, actorIn, sampleCall, Dict.get, ascii]
  exact (enrichment_fresh monotone_id rfl (fun _ => none) htimely hactor).1

end Ledger.Backend

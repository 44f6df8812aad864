import Ledger.Backend.Feed
import Ledger.System.Deferred
import Mathlib.Data.List.DropRight

/-! What comes over the socket of the page, whatever it is: `ws.onmessage` and the reducer behind
it. -/
namespace Ledger.Frontend.Messages
open Text
variable {N : Type}

/-- What `JSON.parse` makes of a text. -/
inductive JsValue (N : Type)
  | null
  | boolean (b : Bool)
  | number (x : N)
  | string (s : Bytes)
  | array (items : List (JsValue N))
  | object (members : List (Bytes × JsValue N))

/-- The engine of the browser: `JSON.parse`, `none` where it throws; `+` on numbers, and what it
takes a boolean for; `String`; `>` on strings; and what an object has from `Object.prototype`, as
text. -/
structure Runtime (N : Type) where
  parse : Bytes → Option (JsValue N)
  zero : N
  add : N → N → N
  ofBool : Bool → N
  text : JsValue N → Bytes
  above : Bytes → Bytes → Bool
  inherited : Bytes → Option Bytes

namespace JsValue

/-- A property of a value that is not `null`; `none` is `undefined`. -/
def property (v : JsValue N) (name : String) : Option (JsValue N) :=
  match v with
  | .object members => Dict.get members (ascii name)
  | _ => none

def chain (v : Option (JsValue N)) (name : String) : Option (JsValue N) :=
  v.bind fun v => v.property name

def isText (v : Option (JsValue N)) (literal : String) : Bool :=
  match v with
  | some (.string s) => s = ascii literal
  | _ => false

def nonEmptyString (v : Option (JsValue N)) : Option Bytes :=
  match v with
  | some (.string s) => if s = [] then none else some s
  | _ => none

end JsValue

open JsValue

/-- `Reading`, with a time that need not be text. -/
structure Reading (N : Type) where
  sensorId : Bytes
  sensorType : JsValue N
  value : JsValue N
  unit : JsValue N
  seq : JsValue N
  time : Option (JsValue N)

/-- The count of `StreamState`, which `+` may turn into text. -/
inductive Dropped (N : Type)
  | number (x : N)
  | text (s : Bytes)

/-- `StreamState`, a reading with the device that took it. -/
structure StreamState (N : Type) where
  connected : Bool
  lastSeen : Dict Bytes Bytes
  readings : List (Bytes × Reading N)
  dropped : Dropped N

def emptyStream (rt : Runtime N) : StreamState N :=
  ⟨false, [], [], .number rt.zero⟩

def maxStreamReadings : ℕ :=
  500

def readingFrom (frame : JsValue N) : Option (Reading N) :=
  let event := chain (frame.property "block") "event"
  if isText (chain event "event_type") "SENSOR_READING" then
    let metadata := chain event "metadata"
    match nonEmptyString (chain metadata "sensor_id") with
    | none => none
    | some sensorId =>
      some ⟨sensorId, (chain metadata "sensor_type").getD .null,
        (chain metadata "value").getD .null, (chain metadata "unit").getD .null,
        (chain metadata "seq").getD .null, chain (frame.property "block") "timestamp"⟩
  else none

/-- `dropped + (value ?? 0)`. -/
def Dropped.plus (rt : Runtime N) : Dropped N → Option (JsValue N) → Dropped N
  | .number n, none => .number (rt.add n rt.zero)
  | .number n, some .null => .number (rt.add n rt.zero)
  | .number n, some (.number x) => .number (rt.add n x)
  | .number n, some (.boolean b) => .number (rt.add n (rt.ofBool b))
  | .number n, some v => .text (rt.text (.number n) ++ rt.text v)
  | .text s, none => .text (s ++ rt.text (.number rt.zero))
  | .text s, some .null => .text (s ++ rt.text (.number rt.zero))
  | .text s, some v => .text (s ++ rt.text v)

/-- The actor and the time of a frame for a block, where they are what they have to be. -/
def sighting (frame : JsValue N) : Option (Bytes × Bytes) :=
  let actor := chain (chain (frame.property "block") "event") "actor"
  match nonEmptyString actor, chain (frame.property "block") "timestamp" with
  | some actor, some (.string time) => some (actor, time)
  | _, _ => none

/-- What `applyFrame` makes of a frame for a block. -/
def applyBlock (rt : Runtime N) (state : StreamState N) (frame : JsValue N) (actor time : Bytes) :
    StreamState N :=
  let previous := (state.lastSeen.get actor).or (rt.inherited actor)
  let lastSeen := if previous.all (rt.above time) then state.lastSeen.set actor time
    else state.lastSeen
  let readings := match readingFrom frame with
    | none => state.readings
    | some reading => (state.readings ++ [(actor, reading)]).rtake maxStreamReadings
  { state with lastSeen, readings }

/-- `applyFrame`; `none` is the `TypeError` of a property of `null`. -/
def applyFrame (rt : Runtime N) (state : StreamState N) (frame : JsValue N) :
    Option (StreamState N) :=
  match frame with
  | .null => none
  | frame =>
    if isText (frame.property "type") "lagged" then
      some { state with dropped := state.dropped.plus rt (frame.property "dropped") }
    else
      match sighting frame with
      | none => some state
      | some (actor, time) => some (applyBlock rt state frame actor time)

/-- The updates that the handlers of the socket ask for. -/
inductive Update
  | connected (connected : Bool)
  | message (data : Bytes)

/-- An updater; `none` is an exception. -/
def update (rt : Runtime N) (state : StreamState N) : Update → Option (StreamState N)
  | .connected connected => some { state with connected }
  | .message data => (rt.parse data).bind (applyFrame rt state)

/-- The count of a lag notice, which may be missing. -/
def isCount : Option (JsValue N) → Bool
  | none => true
  | some .null => true
  | some (.number _) => true
  | _ => false

/-- What a page takes for a frame: a lag notice with such a count, or else a block with a time and
an actor. -/
def isFrame (v : JsValue N) : Bool :=
  if isText (v.property "type") "lagged" then isCount (v.property "dropped")
  else (sighting v).isSome

/-- Frames are applied, all else leaves the state unchanged. -/
def ideal (rt : Runtime N) (state : StreamState N) : Update → StreamState N
  | .connected connected => { state with connected }
  | .message data =>
    match rt.parse data with
    | none => state
    | some v => if isFrame v then (applyFrame rt state v).getD state else state

/-- A count that is no string, array or object, and adds nothing if it is a boolean. -/
def HarmlessCount (rt : Runtime N) (dropped : Dropped N) : Option (JsValue N) → Prop
  | some (.boolean b) => dropped.plus rt (some (.boolean b)) = dropped
  | some (.string _) => False
  | some (.array _) => False
  | some (.object _) => False
  | _ => True

/-- A text is JSON, and not `null`, and has a harmless count if it is a lag notice. -/
def Harmless (rt : Runtime N) (state : StreamState N) (data : Bytes) : Prop :=
  ∃ v, rt.parse data = some v ∧ v ≠ .null ∧
    (isText (v.property "type") "lagged" = true →
      HarmlessCount rt state.dropped (v.property "dropped"))

section Step
variable {rt : Runtime N} {state : StreamState N} {v : JsValue N} {data : Bytes}

theorem applyFrame_of_ne_null (hne : v ≠ .null) :
    applyFrame rt state v =
      if isText (v.property "type") "lagged" then
        some { state with dropped := state.dropped.plus rt (v.property "dropped") }
      else
        match sighting v with
        | none => some state
        | some (actor, time) => some (applyBlock rt state v actor time) := by
  cases v with
  | null => exact absurd rfl hne
  | _ => rfl

theorem harmlessCount_iff {n : N} (d : Option (JsValue N)) :
    HarmlessCount rt (.number n) d ↔
      isCount d = true ∨ (Dropped.number n).plus rt d = .number n := by
  cases d with
  | none => simp [HarmlessCount, isCount]
  | some v => cases v <;> simp [HarmlessCount, isCount, Dropped.plus]

theorem update_of_parse (h : rt.parse data = some v) :
    update rt state (.message data) = applyFrame rt state v := by
  rw [update, h, Option.bind_some]

theorem ideal_of_parse (h : rt.parse data = some v) : ideal rt state (.message data) =
    if isFrame v then (applyFrame rt state v).getD state else state := by
  rw [ideal, h]

/-- The reducer does what it should exactly if it gets no `null` and no harmful count. -/
theorem applyFrame_eq_iff {n : N} (hn : state.dropped = .number n) :
    applyFrame rt state v =
        some (if isFrame v then (applyFrame rt state v).getD state else state) ↔
      v ≠ .null ∧ (isText (v.property "type") "lagged" = true →
        HarmlessCount rt state.dropped (v.property "dropped")) := by
  by_cases hnull : v = .null
  · simp [hnull, applyFrame]
  · rw [applyFrame_of_ne_null hnull]
    unfold isFrame
    cases isText (v.property "type") "lagged" with
    | true =>
      rw [if_pos rfl, if_pos rfl, hn, harmlessCount_iff]
      cases isCount (v.property "dropped") with
      | true => simp [hnull]
      | false =>
        obtain ⟨connected, lastSeen, readings, dropped⟩ := state
        obtain rfl : dropped = .number n := hn
        simp [hnull]
    | false => cases sighting v <;> simp [hnull]

theorem update_eq_ideal_iff {n : N} (hn : state.dropped = .number n) :
    update rt state (.message data) = some (ideal rt state (.message data)) ↔
      Harmless rt state data := by
  unfold Harmless
  cases hparse : rt.parse data with
  | none => simp [update, hparse]
  | some v =>
    rw [update_of_parse hparse, ideal_of_parse hparse, applyFrame_eq_iff hn]
    simp

theorem plus_number {n : N} {d : Option (JsValue N)} (h : isCount d = true) :
    ∃ m, (Dropped.number n).plus rt d = .number m := by
  cases d with
  | none => exact ⟨_, rfl⟩
  | some v =>
    cases v with
    | null => exact ⟨_, rfl⟩
    | number x => exact ⟨_, rfl⟩
    | _ => cases h

theorem ideal_number {n : N} (hn : state.dropped = .number n) (u : Update) :
    ∃ m, (ideal rt state u).dropped = .number m := by
  cases u with
  | connected connected => exact ⟨n, hn⟩
  | message data =>
    cases hparse : rt.parse data with
    | none => exact ⟨n, by rw [ideal, hparse, hn]⟩
    | some v =>
      rw [ideal_of_parse hparse]
      by_cases hnull : v = .null
      · have hframe : isFrame (.null : JsValue N) = false := rfl
        exact ⟨n, by rw [hnull, hframe, if_neg Bool.false_ne_true, hn]⟩
      · rw [applyFrame_of_ne_null hnull]
        unfold isFrame
        cases isText (v.property "type") "lagged" with
        | true =>
          rw [if_pos rfl, if_pos rfl]
          split_ifs with hcount
          · rw [Option.getD_some, hn]
            exact plus_number hcount
          · exact ⟨n, hn⟩
        | false => cases sighting v <;> exact ⟨n, hn⟩

theorem foldl_ideal_number (rt : Runtime N) (us : List Update) :
    ∃ n, (us.foldl (ideal rt) (emptyStream rt)).dropped = .number n := by
  induction us using List.reverseRecOn with
  | nil => exact ⟨rt.zero, rfl⟩
  | append_singleton us u ih =>
    obtain ⟨n, hn⟩ := ih
    rw [List.foldl_concat]
    exact ideal_number hn u

end Step

/-- A page after some events: a handler asks for an update, which runs at once within its `try` or
waits, and the page is rendered. -/
abbrev Page (N : Type) := Deferred.Rendered (StreamState N) Update

def Page.run (rt : Runtime N) (events : List (Deferred.Event Update)) : Page N :=
  Deferred.run (update rt) (emptyStream rt) events

/-- No exception has escaped, and of the texts whose updates have run the frames have been applied
and nothing else. -/
def Page.Survives (rt : Runtime N) (events : List (Deferred.Event Update)) : Prop :=
  Deferred.Sound (ideal rt) (emptyStream rt) events (Page.run rt events)

/-- The stream survives what it gets, whenever its updates run, exactly if each text is harmless
after those before it. -/
theorem stream_survives_iff (rt : Runtime N) (us : List Update) :
    (∀ events, Deferred.updates events <+: us → Page.Survives rt events) ↔
      ∀ before data after, us = before ++ .message data :: after →
        Harmless rt (before.foldl (ideal rt) (emptyStream rt)) data := by
  refine (Deferred.sound_iff us).trans ⟨fun h before data after hus => ?_,
    fun h before u after hus => ?_⟩
  · obtain ⟨n, hn⟩ := foldl_ideal_number rt before
    exact (update_eq_ideal_iff hn).mp (h before _ after hus)
  · obtain ⟨n, hn⟩ := foldl_ideal_number rt before
    cases u with
    | connected connected => rfl
    | message data => exact (update_eq_ideal_iff hn).mpr (h before data after hus)

section Backend
open Backend
variable {F : Type} (ofInt : ℤ → N) (ofFloat : F → N)

mutual

def JsValue.ofPy : PyValue F → JsValue N
  | .none => .null
  | .bool b => .boolean b
  | .int n => .number (ofInt n)
  | .float x => .number (ofFloat x)
  | .str s => .string s
  | .list items => .array (ofItems items)
  | .dict members => .object (ofMembers members)

def JsValue.ofItems : List (PyValue F) → List (JsValue N)
  | [] => []
  | v :: items => JsValue.ofPy v :: ofItems items

def JsValue.ofMembers : List (Bytes × PyValue F) → List (Bytes × JsValue N)
  | [] => []
  | (k, v) :: members => (k, JsValue.ofPy v) :: ofMembers members

end

def ofDevice (device : Device) : JsValue N :=
  .object [(ascii "device_type", .string device.deviceType),
    (ascii "location_id", device.locationId.elim .null .string),
    (ascii "registered", .boolean true)]

/-- `send_json`, and `JSON.parse` on what it has sent. -/
def ofFrame : BrowserFrame F → JsValue N
  | .block block device => .object [(ascii "type", .string (ascii "block")),
      (ascii "block", .object (JsValue.ofMembers ofInt ofFloat block)),
      (ascii "device", device.elim .null ofDevice)]
  | .lagged dropped => .object [(ascii "type", .string (ascii "lagged")),
      (ascii "dropped", JsValue.ofPy ofInt ofFloat dropped)]

/-- What the hub broadcasts is harmless, if a lag notice of storage-core has a number. -/
theorem harmless_ofFrame {rt : Runtime N} {state : StreamState N} {data : Bytes}
    {frame : BrowserFrame F} (hdata : rt.parse data = some (ofFrame ofInt ofFloat frame))
    (hcount : ∀ dropped, frame = .lagged dropped → ∃ n, dropped = .int n) :
    Harmless rt state data := by
  refine ⟨_, hdata, ?_, fun hlagged => ?_⟩
  · cases frame <;> exact fun h => by cases h
  · cases frame with
    | block block device =>
      have hkind : ascii "block" = ascii "lagged" := of_decide_eq_true hlagged
      exact absurd hkind (by decide)
    | lagged dropped =>
      obtain ⟨n, rfl⟩ := hcount dropped rfl
      trivial

end Backend

def sampleRuntime : Runtime ℤ :=
  ⟨fun _ => none, 0, (· + ·), fun b => b.toNat, fun _ => [], fun _ _ => false, fun _ => none⟩

/-- A text that is not JSON, whose update runs when the page is rendered. -/
theorem text_escapes :
    ¬∀ (rt : Runtime ℤ) (events : List (Deferred.Event Update)), Page.Survives rt events := by
  intro h
  have hescaped := (h sampleRuntime [.later (.message (ascii "not json")), .render]).1
  cases hescaped

end Ledger.Frontend.Messages

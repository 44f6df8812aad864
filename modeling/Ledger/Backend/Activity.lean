import Ledger.Core.Server
import Ledger.System.Dict

/-! What the backend derives from the ledger: last sightings, readings and camera events, kept by
polling `GET /blocks`. -/
namespace Ledger.Backend
open Text Json
variable {F : Type} [NumberFloat F]

section Compare
variable (exact : F → ℚ)

/-- The value of a number; `bool` is one. -/
def numeric : Json F → Option ℚ
  | .boolean b => some (if b then 1 else 0)
  | .number i => some i.1
  | .float x => some (exact x)
  | _ => none

def truthy : Json F → Bool
  | .null => false
  | .boolean b => b
  | .number i => i.1 ≠ 0
  | .float x => exact x ≠ 0
  | .string s => s ≠ []
  | .array es => !es.isEmpty
  | .object ms => !ms.isEmpty

mutual
def equal : Json F → Json F → Bool
  | .null, .null => true
  | .string s, .string t => s = t
  | .array es, .array fs => equalElements es fs
  | .object ms, .object ns => equalMembers ms ns
  | v, w =>
    match numeric exact v, numeric exact w with
    | some x, some y => x = y
    | _, _ => false

def equalElements : List (Json F) → List (Json F) → Bool
  | [], [] => true
  | v :: es, w :: fs => equal v w && equalElements es fs
  | _, _ => false

def equalMembers : Members F → Members F → Bool
  | [], [] => true
  | (k, v) :: ms, (l, w) :: ns => decide (k = l) && equal v w && equalMembers ms ns
  | _, _ => false
end

mutual
/-- `v < w`, or `none` where that is a `TypeError`. -/
def less : Json F → Json F → Option Bool
  | .string s, .string t => some (decide (keyOrder s < keyOrder t))
  | .array es, .array fs => lessElements es fs
  | v, w =>
    match numeric exact v, numeric exact w with
    | some x, some y => some (decide (x < y))
    | _, _ => none

def lessElements : List (Json F) → List (Json F) → Option Bool
  | [], [] => some false
  | [], _ :: _ => some true
  | _ :: _, [] => some false
  | v :: es, w :: fs => if equal exact v w then lessElements es fs else less v w
end

end Compare

/-- A `datetime` in microseconds from the first of January of year one. -/
structure DateTime where
  wall : ℤ
  utcoffset : Option ℤ
  deriving DecidableEq

/-- The first instant after year 9999. -/
def endOfTime : ℤ :=
  315537897600000000

inductive OverflowError
  | dateValueOutOfRange
  deriving DecidableEq

/-- `_parse_timestamp`. `astimezone` is outside its `try`. -/
def parseTimestamp (fromisoformat : Bytes → Option DateTime) (raw : Bytes) :
    Except OverflowError (Option ℤ) :=
  match fromisoformat raw with
  | none => .ok none
  | some ⟨wall, none⟩ => .ok (some wall)
  | some ⟨wall, some offset⟩ =>
    if 0 ≤ wall - offset ∧ wall - offset < endOfTime then .ok (some (wall - offset))
    else .error .dateValueOutOfRange

structure Reading (F : Type) where
  sensorId : Bytes
  sensorType : Json F
  value : Json F
  unit : Json F
  seq : Json F
  timestamp : ℤ

structure CameraState (F : Type) where
  sensorId : Bytes
  sensorType : Bytes
  event : Json F
  timestamp : ℤ
  streamUrl : Option Bytes

/-- A device and one of its sensors. -/
abbrev Key := Bytes × Bytes

/-- What the consumed blocks add up to. -/
structure Maps (F : Type) where
  lastSeen : Dict Bytes ℤ
  latest : Dict Key (Reading F)
  history : Dict Key (List (Reading F))
  camera : Dict Key (CameraState F)

def getMember (metadata : Members F) (key : String) : Json F :=
  (metadata.lookup (ascii key)).getD .null

def nonEmptyString : Json F → Option Bytes
  | .string s => if s = [] then none else some s
  | _ => none

/-- The metadata of an event and the sensor it names. -/
def sensorOf (event : EventPayload F) : Option (Members F × Bytes) :=
  match event.metadata.1 with
  | .object metadata => (nonEmptyString (getMember metadata "sensor_id")).map (metadata, ·)
  | _ => none

/-- `previous["at"] > timestamp`. -/
def isAfter (previous : Option ℤ) (timestamp : ℤ) : Prop :=
  ∃ t ∈ previous, timestamp < t

instance (previous : Option ℤ) (timestamp : ℤ) : Decidable (isAfter previous timestamp) :=
  inferInstanceAs (Decidable (∃ t ∈ previous, _))

def consumeCameraEvent (maps : Maps F) (actor : Bytes) (event : EventPayload F)
    (timestamp : ℤ) : Maps F :=
  match sensorOf event with
  | none => maps
  | some (metadata, sensorId) =>
    let previous := maps.camera.get (actor, sensorId)
    if isAfter (previous.map CameraState.timestamp) timestamp then maps
    else
      let streamUrl := (nonEmptyString (getMember metadata "url")).or
        (previous.bind CameraState.streamUrl)
      let record : CameraState F :=
        ⟨sensorId, ascii "camera", getMember metadata "event", timestamp, streamUrl⟩
      { maps with camera := maps.camera.set (actor, sensorId) record }

/-- The maximum, not the last: out-of-order blocks do not rewind it. -/
def see (maps : Maps F) (actor : Bytes) (timestamp : ℤ) : Maps F :=
  if (maps.lastSeen.get actor).all (· < timestamp) then
    { maps with lastSeen := maps.lastSeen.set actor timestamp }
  else maps

section Consume
variable (historyLimit : ℕ) (fromisoformat : Bytes → Option DateTime)

def consumeReading (maps : Maps F) (actor : Bytes) (event : EventPayload F) (timestamp : ℤ) :
    Maps F :=
  if event.eventType.1 = ascii "CAMERA_EVENT" then consumeCameraEvent maps actor event timestamp
  else if event.eventType.1 = ascii "SENSOR_READING" then
    match sensorOf event with
    | none => maps
    | some (metadata, sensorId) =>
      let key := (actor, sensorId)
      if isAfter ((maps.latest.get key).map Reading.timestamp) timestamp then maps
      else
        let reading : Reading F := ⟨sensorId, getMember metadata "sensor_type",
          getMember metadata "value", getMember metadata "unit", getMember metadata "seq",
          timestamp⟩
        { maps with
          latest := maps.latest.set key reading
          history := maps.history.set key
            (pushBounded historyLimit ((maps.history.get key).getD []) reading) }
  else maps

/-- The body of the loop of `_consume`. -/
def consumeBlock (maps : Maps F) (block : Block F) : Except OverflowError (Maps F) :=
  let actor := block.event.actor.1
  if actor = [] then .ok maps
  else
    match parseTimestamp fromisoformat block.timestamp with
    | .error e => .error e
    | .ok none => .ok maps
    | .ok (some timestamp) =>
      .ok (consumeReading historyLimit (see maps actor timestamp) actor block.event timestamp)

/-- The loop of `_consume`; an exception leaves what it had consumed. -/
def consumeBlocks (maps : Maps F) : List (Block F) → Maps F × Option OverflowError
  | [] => (maps, none)
  | block :: blocks =>
    match consumeBlock historyLimit fromisoformat maps block with
    | .error e => (maps, some e)
    | .ok maps => consumeBlocks maps blocks

structure LedgerActivity (F : Type) where
  maps : Maps F
  nextIndex : ℕ
  reachable : Bool

def LedgerActivity.new : LedgerActivity F :=
  ⟨⟨[], [], [], []⟩, 0, true⟩

/-- What the `try` of `refresh` comes to: a payload, a status that is raised, a request that failed,
or a payload that `response.json()` cannot decode. -/
inductive Fetched (F : Type) [NumberFloat F]
  | page (payload : BlocksPage F)
  | status (code : ℕ)
  | failed
  | recursionError

/-- What leaves `refresh` as an exception. -/
inductive RefreshError
  | overflow (e : OverflowError)
  | recursion
  deriving DecidableEq

/-- How a call of `refresh` ends. -/
inductive Outcome
  | refreshed
  | unreachable
  | rewound
  | raised (e : RefreshError)
  deriving DecidableEq

/-- `refresh` on the answer to its request. -/
def LedgerActivity.refresh (a : LedgerActivity F) : Fetched F → LedgerActivity F × Outcome
  | .status code =>
    if code = 400 then ({ a with reachable := false, nextIndex := 0 }, .rewound)
    else ({ a with reachable := false }, .unreachable)
  | .failed => ({ a with reachable := false }, .unreachable)
  -- no `HTTPError` and no `ValueError`, so neither handler sees it
  | .recursionError => (a, .raised .recursion)
  | .page payload =>
    match consumeBlocks historyLimit fromisoformat a.maps payload.blocks with
    | (maps, some e) => ({ a with maps := maps, reachable := true }, .raised (.overflow e))
    | (maps, none) => (⟨maps, payload.chainLength, true⟩, .refreshed)

/-- `response.json()`: `json.loads` takes values that nest up to `depth`. -/
def decodePayload (depth : ℕ) (payload : BlocksPage F) : Fetched F :=
  if depth < payload.toJson.nesting then .recursionError else .page payload

/-- storage-core's answer to a request for the blocks from `lower` on. -/
def answer (depth : ℕ) (chain : Chain F) (lower : ℕ) : Fetched F :=
  match installBlocks chain (some (decimal lower)) none with
  | .ok payload => decodePayload depth payload
  | .error e => .status e.status

/-- The answer to the request that `refresh` sends. -/
def LedgerActivity.fetch (depth : ℕ) (a : LedgerActivity F) (chain : Chain F) : Fetched F :=
  answer depth chain (a.nextIndex - 1)

end Consume

namespace LedgerActivity
variable (a : LedgerActivity F)

def lastSeen (deviceId : Bytes) : Option ℤ :=
  a.maps.lastSeen.get deviceId

def latestReading (deviceId sensorId : Bytes) : Option (Reading F) :=
  a.maps.latest.get (deviceId, sensorId)

def cameraState (deviceId sensorId : Bytes) : Option (CameraState F) :=
  a.maps.camera.get (deviceId, sensorId)

end LedgerActivity

section Readings
variable (exact : F → ℚ)

def seqKey (r : Reading F) : Json F :=
  if truthy exact r.seq then r.seq else .number ⟨0, by decide⟩

/-- The order of the keys `readings` sorts by, or `none` where comparing them is a `TypeError`. -/
def readingLess (r s : Reading F) : Option Bool :=
  if r.timestamp ≠ s.timestamp then some (decide (r.timestamp < s.timestamp))
  else if r.sensorId ≠ s.sensorId then some (decide (keyOrder r.sensorId < keyOrder s.sensorId))
  else if equal exact (seqKey exact r) (seqKey exact s) then some false
  else less exact (seqKey exact r) (seqKey exact s)

/-- `list.sort`: stable, and a comparison sort compares every two keys that end up side by side,
so it fails on keys that cannot be compared. -/
def sortReadings (rs : List (Reading F)) : Option (List (Reading F)) :=
  if rs.all fun r => rs.all fun s => (readingLess exact r s).isSome then
    some (rs.insertionSort fun r s => readingLess exact s r ≠ some true)
  else none

/-- `readings`, or `none` for a `TypeError`. -/
def LedgerActivity.readings (a : LedgerActivity F) (deviceId : Bytes) (sensorId : Option Bytes)
    (since : Option ℤ) (limit : ℤ) : Option (List (Reading F)) :=
  let keys := match sensorId with
    | some sensorId => [(deviceId, sensorId)]
    | none => (a.maps.history.map Prod.fst).filter fun k => k.1 = deviceId
  let collected := keys.flatMap fun key =>
    ((a.maps.history.get key).getD []).filter fun r => since.all (· < r.timestamp)
  (sortReadings exact collected).map fun sorted =>
    if 0 < limit then sorted.drop (sorted.length - limit.toNat) else []

end Readings

end Ledger.Backend

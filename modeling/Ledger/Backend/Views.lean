import Ledger.Backend.Polling
import Ledger.System.Ascending

/-! What the maps hold for one actor or one sensor, from the blocks that concern it. -/
namespace Ledger.Backend
open Text Json
variable {F : Type}

/-- `max`, where there may be nothing yet. -/
def laterOf (previous : Option ℤ) (timestamp : ℤ) : Option ℤ :=
  if previous.all (· < timestamp) then some timestamp else previous

theorem laterOf_eq_renew : laterOf = renew id := by
  funext previous t
  unfold laterOf renew
  cases previous with
  | none => simp
  | some s =>
    rcases lt_trichotomy s t with h | rfl | h
    · simp [h, h.le]
    · simp
    · simp [h, h.le]

theorem see_get (maps : Maps F) (actor other : Bytes) (t : ℤ) :
    (see maps actor t).lastSeen.get other =
      if actor = other then laterOf (maps.lastSeen.get other) t else maps.lastSeen.get other := by
  unfold see laterOf
  by_cases hactor : actor = other
  · rw [if_pos hactor, hactor]
    split_ifs
    · exact Dict.get_set_self ..
    · rfl
  · rw [if_neg hactor]
    split_ifs
    · exact Dict.get_set_of_ne (Ne.symm hactor) t
    · rfl

/-- The maps, as far as one sensor is concerned. -/
structure Shelf (F : Type) where
  latest : Option (Reading F)
  history : List (Reading F)

def Maps.shelf (maps : Maps F) (key : Key) : Shelf F :=
  ⟨maps.latest.get key, (maps.history.get key).getD []⟩

theorem see_shelf (maps : Maps F) (actor : Bytes) (t : ℤ) (key : Key) :
    (see maps actor t).shelf key = maps.shelf key := by
  unfold see
  split_ifs <;> rfl

def Shelf.add (historyLimit : ℕ) (s : Shelf F) (r : Reading F) : Shelf F :=
  if isAfter (s.latest.map Reading.timestamp) r.timestamp then s
  else ⟨some r, pushBounded historyLimit s.history r⟩

theorem isAfter_map_iff {α : Type} {time : α → ℤ} {previous : Option α} {timestamp : ℤ} :
    isAfter (previous.map time) timestamp ↔ ∃ y ∈ previous, timestamp < time y := by
  simp [isAfter]

/-- A shelf takes the readings in order of time, and its history is a window on them. -/
theorem foldl_add (historyLimit : ℕ) (s : Shelf F) (rs : List (Reading F)) :
    rs.foldl (Shelf.add historyLimit) s = ⟨rs.foldl (renew Reading.timestamp) s.latest,
      if ascendingFrom Reading.timestamp s.latest rs = [] then s.history
      else (s.history ++ ascendingFrom Reading.timestamp s.latest rs).rtake historyLimit⟩ := by
  induction rs generalizing s with
  | nil => rfl
  | cons r rs ih =>
    rw [List.foldl_cons, ih, List.foldl_cons, Shelf.add, renew, ascendingFrom,
      if_congr isAfter_map_iff rfl rfl]
    by_cases hafter : ∃ y ∈ s.latest, r.timestamp < y.timestamp
    · simp only [if_pos hafter]
    · simp only [if_neg hafter, if_neg (List.cons_ne_nil _ _)]
      congr 1
      split_ifs with hnil
      · rw [hnil, pushBounded_eq_rtake]
      · rw [pushBounded_eq_rtake, rtake_append_rtake, List.append_assoc, List.singleton_append]

theorem foldl_add_empty (historyLimit : ℕ) (rs : List (Reading F)) :
    rs.foldl (Shelf.add historyLimit) ⟨none, []⟩ =
      ⟨(ascending Reading.timestamp rs).getLast?,
        (ascending Reading.timestamp rs).rtake historyLimit⟩ := by
  rw [foldl_add, foldl_renew, ascending, Option.or_none]
  split_ifs with hnil
  · rw [hnil, List.rtake_nil]
  · rw [List.nil_append]

/-- A camera keeps the stream it announced last. -/
def announce (previous : Option (CameraState F)) (e : CameraState F) : Option (CameraState F) :=
  if isAfter (previous.map CameraState.timestamp) e.timestamp then previous
  else some { e with streamUrl := e.streamUrl.or (previous.bind CameraState.streamUrl) }

variable [NumberFloat F]

section Events
variable (fromisoformat : Bytes → Option DateTime)

def sighting (b : Block F) : Option ℤ :=
  if b.event.actor.1 = [] then none
  else
    match parseTimestamp fromisoformat b.timestamp with
    | .ok t => t
    | .error _ => none

def sightingOf (actor : Bytes) (b : Block F) : Option ℤ :=
  if b.event.actor.1 = actor then sighting fromisoformat b else none

/-- What a block of one type says of a sensor: its metadata, and when. -/
def sensorEventOf (eventType : String) (key : Key) (b : Block F) : Option (Members F × ℤ) :=
  if b.event.eventType.1 = ascii eventType then
    (sightingOf fromisoformat key.1 b).bind fun timestamp =>
      (sensorOf b.event).bind fun sensor =>
        if sensor.2 = key.2 then some (sensor.1, timestamp) else none
  else none

def readingOf (key : Key) (b : Block F) : Option (Reading F) :=
  (sensorEventOf fromisoformat "SENSOR_READING" key b).map fun e =>
    ⟨key.2, getMember e.1 "sensor_type", getMember e.1 "value", getMember e.1 "unit",
      getMember e.1 "seq", e.2⟩

def cameraEventOf (key : Key) (b : Block F) : Option (CameraState F) :=
  (sensorEventOf fromisoformat "CAMERA_EVENT" key b).map fun e =>
    ⟨key.2, ascii "camera", getMember e.1 "event", e.2, nonEmptyString (getMember e.1 "url")⟩

variable {fromisoformat}

theorem sensorEventOf_none {eventType : String} {key : Key} {b : Block F}
    (h : sighting fromisoformat b = none) :
    sensorEventOf fromisoformat eventType key b = none := by
  unfold sensorEventOf sightingOf
  rw [h]
  split_ifs <;> rfl

theorem sensorEventOf_some {key : Key} {b : Block F} {eventType : String} {t : ℤ}
    (h : sighting fromisoformat b = some t) (htype : b.event.eventType.1 = ascii eventType) :
    sensorEventOf fromisoformat eventType key b = (sensorOf b.event).bind fun sensor =>
      if key = (b.event.actor.1, sensor.2) then some (sensor.1, t) else none := by
  unfold sensorEventOf sightingOf
  rw [if_pos htype, h]
  obtain ⟨actor, id⟩ := key
  cases sensorOf b.event with
  | none => split_ifs <;> rfl
  | some sensor =>
    by_cases hactor : b.event.actor.1 = actor
    · simp [hactor, eq_comm]
    · simp [hactor, Ne.symm hactor]

theorem readingOf_sensorId {key : Key} {b : Block F} {r : Reading F}
    (h : readingOf fromisoformat key b = some r) : r.sensorId = key.2 := by
  obtain ⟨e, -, rfl⟩ := Option.map_eq_some_iff.mp h
  rfl

variable {historyLimit : ℕ}

theorem step_eq (maps : Maps F) (b : Block F) : step historyLimit fromisoformat maps b =
    (sighting fromisoformat b).elim maps fun t =>
      consumeReading historyLimit (see maps b.event.actor.1 t) b.event.actor.1 b.event t := by
  unfold step consumeBlock sighting
  dsimp only
  split_ifs
  · rfl
  · rcases parseTimestamp fromisoformat b.timestamp with e | _ | t <;> rfl

end Events

section Consume
variable {historyLimit : ℕ} {fromisoformat : Bytes → Option DateTime}

theorem step_lastSeen (maps : Maps F) (b : Block F) (actor : Bytes) :
    (step historyLimit fromisoformat maps b).lastSeen.get actor =
      (sightingOf fromisoformat actor b).elim (maps.lastSeen.get actor)
        (laterOf (maps.lastSeen.get actor)) := by
  rw [step_eq, sightingOf]
  cases sighting fromisoformat b with
  | none => split_ifs <;> rfl
  | some t =>
    rw [Option.elim_some, consumeReading_lastSeen, see_get]
    split_ifs <;> rfl

theorem foldl_step_lastSeen (maps : Maps F) (blocks : List (Block F)) (actor : Bytes) :
    (blocks.foldl (step historyLimit fromisoformat) maps).lastSeen.get actor =
      (blocks.filterMap (sightingOf fromisoformat actor)).foldl laterOf
        (maps.lastSeen.get actor) :=
  foldl_view (fun maps => maps.lastSeen.get actor) (fun maps b => step_lastSeen maps b actor) maps
    blocks

theorem consumeCameraEvent_shelf (maps : Maps F) (actor : Bytes) (event : EventPayload F) (t : ℤ)
    (key : Key) : (consumeCameraEvent maps actor event t).shelf key = maps.shelf key := by
  unfold consumeCameraEvent
  cases sensorOf event with
  | none => rfl
  | some sensor =>
    dsimp only
    split_ifs <;> rfl

theorem reading_ne_camera : ascii "SENSOR_READING" ≠ ascii "CAMERA_EVENT" := by
  decide

theorem step_shelf (maps : Maps F) (b : Block F) (key : Key) :
    (step historyLimit fromisoformat maps b).shelf key =
      (readingOf fromisoformat key b).elim (maps.shelf key)
        (Shelf.add historyLimit (maps.shelf key)) := by
  rw [step_eq, readingOf]
  cases hsight : sighting fromisoformat b with
  | none => rw [sensorEventOf_none hsight, Option.elim_none, Option.map_none, Option.elim_none]
  | some t =>
    rw [Option.elim_some, ← see_shelf maps b.event.actor.1 t key]
    generalize see maps b.event.actor.1 t = maps
    unfold consumeReading
    by_cases hread : b.event.eventType.1 = ascii "SENSOR_READING"
    · rw [sensorEventOf_some hsight hread, hread, if_neg reading_ne_camera, if_pos rfl]
      cases sensorOf b.event with
      | none => rfl
      | some sensor =>
        obtain ⟨metadata, sensorId⟩ := sensor
        dsimp only [Option.bind_some]
        by_cases hkey : key = (b.event.actor.1, sensorId)
        · rw [if_pos hkey, hkey]
          unfold Maps.shelf
          dsimp only [Option.map_some, Option.elim_some, Shelf.add]
          split_ifs
          · rfl
          · simp only [Dict.get_set_self, Option.getD_some]
        · rw [if_neg hkey]
          unfold Maps.shelf
          split_ifs
          · rfl
          · simp only [Dict.get_set_of_ne hkey]
            rfl
    · have hnone : sensorEventOf fromisoformat "SENSOR_READING" key b = none := if_neg hread
      rw [hnone, if_neg hread]
      split_ifs
      · exact consumeCameraEvent_shelf ..
      · rfl

theorem foldl_step_shelf (maps : Maps F) (blocks : List (Block F)) (key : Key) :
    (blocks.foldl (step historyLimit fromisoformat) maps).shelf key =
      (blocks.filterMap (readingOf fromisoformat key)).foldl (Shelf.add historyLimit)
        (maps.shelf key) :=
  foldl_view (fun maps => maps.shelf key) (fun maps b => step_shelf maps b key) maps blocks

variable (historyLimit fromisoformat) in
/-- The readings of a sensor that are still served: the last of those in order of time. -/
def keptReadings (key : Key) (blocks : List (Block F)) : List (Reading F) :=
  (ascending Reading.timestamp (blocks.filterMap (readingOf fromisoformat key))).rtake historyLimit

theorem consumed_history (blocks : List (Block F)) (key : Key) :
    ((consumed historyLimit fromisoformat blocks).shelf key).history =
      keptReadings historyLimit fromisoformat key blocks := by
  have hempty : (LedgerActivity.new : LedgerActivity F).maps.shelf key = ⟨none, []⟩ := rfl
  rw [consumed, foldl_step_shelf, hempty, foldl_add_empty]
  rfl

theorem sensorId_of_mem_keptReadings {key : Key} {blocks : List (Block F)} {r : Reading F}
    (h : r ∈ keptReadings historyLimit fromisoformat key blocks) : r.sensorId = key.2 := by
  have hr : r ∈ ascending Reading.timestamp (blocks.filterMap (readingOf fromisoformat key)) :=
    List.mem_of_mem_drop h
  obtain ⟨b, -, hb⟩ := List.mem_filterMap.mp (mem_of_mem_ascending hr)
  exact readingOf_sensorId hb

omit [NumberFloat F] in
theorem see_camera (maps : Maps F) (actor : Bytes) (t : ℤ) :
    (see maps actor t).camera = maps.camera := by
  unfold see
  split_ifs <;> rfl

theorem step_camera (maps : Maps F) (b : Block F) (key : Key) :
    (step historyLimit fromisoformat maps b).camera.get key =
      (cameraEventOf fromisoformat key b).elim (maps.camera.get key)
        (announce (maps.camera.get key)) := by
  rw [step_eq, cameraEventOf]
  cases hsight : sighting fromisoformat b with
  | none => rw [sensorEventOf_none hsight, Option.elim_none, Option.map_none, Option.elim_none]
  | some t =>
    rw [Option.elim_some, ← see_camera maps b.event.actor.1 t]
    generalize see maps b.event.actor.1 t = maps
    unfold consumeReading
    by_cases hcamera : b.event.eventType.1 = ascii "CAMERA_EVENT"
    · rw [sensorEventOf_some hsight hcamera, if_pos hcamera, consumeCameraEvent]
      cases sensorOf b.event with
      | none => rfl
      | some sensor =>
        obtain ⟨metadata, sensorId⟩ := sensor
        dsimp only [Option.bind_some]
        by_cases hkey : key = (b.event.actor.1, sensorId)
        · rw [if_pos hkey, hkey]
          dsimp only [Option.map_some, Option.elim_some, announce]
          split_ifs
          · rfl
          · rw [Dict.get_set_self]
        · rw [if_neg hkey]
          split_ifs
          · rfl
          · rw [Dict.get_set_of_ne hkey]
            rfl
    · have hnone : sensorEventOf fromisoformat "CAMERA_EVENT" key b = none := if_neg hcamera
      rw [hnone, if_neg hcamera, Option.map_none, Option.elim_none]
      cases sensorOf b.event with
      | none => split_ifs <;> rfl
      | some sensor =>
        dsimp only
        split_ifs <;> rfl

theorem foldl_step_camera (maps : Maps F) (blocks : List (Block F)) (key : Key) :
    (blocks.foldl (step historyLimit fromisoformat) maps).camera.get key =
      (blocks.filterMap (cameraEventOf fromisoformat key)).foldl announce (maps.camera.get key) :=
  foldl_view (fun maps => maps.camera.get key) (fun maps b => step_camera maps b key) maps blocks

end Consume

end Ledger.Backend

import Ledger.Backend.Cameras

/-! `GET /devices/{id}/sensors`: the sensors of the registry, joined to what the ledger has of them,
and the ones that only the ledger knows. -/
namespace Ledger.Backend
open Text Json
variable {F : Type}

/-- A row of the table of sensors. -/
structure Sensor where
  deviceId : Bytes
  sensorId : Bytes
  sensorType : Bytes
  unit : Bytes

/-- The tables of devices and of sensors, with their keys. -/
structure Registry where
  devices : List Bytes
  sensors : List Sensor
  nodup : (sensors.map fun s => (s.deviceId, s.sensorId)).Nodup
  foreign : ∀ s ∈ sensors, s.deviceId ∈ devices

def Registry.sensorsOf (registry : Registry) (deviceId : Bytes) : List Sensor :=
  registry.sensors.filter (·.deviceId = deviceId)

def Registry.ids (registry : Registry) (deviceId : Bytes) : List Bytes :=
  (registry.sensorsOf deviceId).map Sensor.sensorId

theorem Registry.nodup_ids (registry : Registry) (deviceId : Bytes) :
    (registry.ids deviceId).Nodup := by
  have hkeys : ((registry.sensorsOf deviceId).map fun s => (s.deviceId, s.sensorId)).Nodup :=
    registry.nodup.sublist (List.filter_sublist.map _)
  have hdevice : (registry.sensorsOf deviceId).map (fun s => (s.deviceId, s.sensorId)) =
      (registry.ids deviceId).map (deviceId, ·) := by
    rw [Registry.ids, List.map_map]
    apply List.map_congr_left
    intro s hs
    have hs' : s.deviceId = deviceId := by simpa using (List.mem_filter.mp hs).2
    rw [hs']
    rfl
  rw [hdevice] at hkeys
  exact hkeys.of_map _

structure SensorView (F : Type) where
  sensorId : Bytes
  sensorType : Json F
  unit : Option Bytes
  registered : Bool
  latest : Option (Reading F)
  camera : Option (CameraState F)

structure SensorsResponse (F : Type) where
  deviceId : Bytes
  sensors : List (SensorView F)
  count : ℕ
  unregisteredCount : ℕ
  ledgerReachable : Bool

/-- How the handler fails: with an `HTTPException`, or with what `refresh` raises. -/
inductive HandlerError
  | http (statusCode : ℕ) (detail : Bytes)
  | raised (e : RefreshError)

def sortedSet (texts : List Bytes) : List Bytes :=
  texts.dedup.insertionSort fun s t => keyOrder s ≤ keyOrder t

def sortedSensors (registry : Registry) (deviceId : Bytes) : List Sensor :=
  (registry.sensorsOf deviceId).insertionSort fun s t => keyOrder s.sensorId ≤ keyOrder t.sensorId

def sensorView (a : LedgerActivity F) (sensor : Sensor) : SensorView F :=
  ⟨sensor.sensorId, .string sensor.sensorType, some sensor.unit, true,
    a.latestReading sensor.deviceId sensor.sensorId, a.cameraState sensor.deviceId sensor.sensorId⟩

/-- A sensor that the ledger reports and nobody registered. -/
def unregisteredView (a : LedgerActivity F) (deviceId sensorId : Bytes) : SensorView F :=
  ⟨sensorId, ((a.latestReading deviceId sensorId).map Reading.sensorType).getD .null, none, false,
    a.latestReading deviceId sensorId, none⟩

/-- What the handler answers from the registry and the cache. -/
def sensorsResponse (registry : Registry) (deviceId : Bytes) (a : LedgerActivity F) :
    SensorsResponse F :=
  let sensors := sortedSensors registry deviceId
  let views := sensors.map (sensorView a)
  let registered := sensors.map Sensor.sensorId
  let unregistered := (sortedSet ((a.sensorsSeen deviceId).removeAll registered)).map
    (unregisteredView a deviceId)
  ⟨deviceId, views ++ unregistered, views.length + unregistered.length, unregistered.length,
    a.reachable⟩

variable [NumberFloat F] in
/-- `device_sensors`, with the answer that its `refresh` gets; `repr` is that of a text. -/
def deviceSensors (historyLimit : ℕ) (fromisoformat : Bytes → Option DateTime)
    (repr : Bytes → Bytes) (registry : Registry) (deviceId : Bytes) (a : LedgerActivity F)
    (fetched : Fetched F) : LedgerActivity F × Except HandlerError (SensorsResponse F) :=
  if registry.devices.contains deviceId then
    match a.refresh historyLimit fromisoformat fetched with
    | (a, .raised e) => (a, .error (.raised e))
    | (a, _) => (a, .ok (sensorsResponse registry deviceId a))
  else (a, .error (.http 404 (ascii "no such device: " ++ repr deviceId)))

section Listed
variable {registry : Registry} {deviceId : Bytes} {a : LedgerActivity F}

theorem mem_sensorsSeen {id : Bytes} :
    id ∈ a.sensorsSeen deviceId ↔ (a.latestReading deviceId id).isSome := by
  rw [LedgerActivity.sensorsSeen, LedgerActivity.latestReading, ← Dict.mem_keys_iff, List.mem_map,
    List.mem_map]
  constructor
  · rintro ⟨entry, hentry, rfl⟩
    obtain ⟨hmem, hdevice⟩ := List.mem_filter.mp hentry
    obtain rfl : entry.1.1 = deviceId := by simpa using hdevice
    exact ⟨entry, hmem, rfl⟩
  · rintro ⟨entry, hmem, hkey⟩
    refine ⟨entry, List.mem_filter.mpr ⟨hmem, ?_⟩, ?_⟩
    · rw [hkey]
      simp
    · rw [hkey]

variable (registry deviceId a)

/-- The ids that are not registered, as they are listed. -/
def unregisteredIds : List Bytes :=
  sortedSet ((a.sensorsSeen deviceId).removeAll
    ((sortedSensors registry deviceId).map Sensor.sensorId))

theorem sensorsResponse_eq : sensorsResponse registry deviceId a =
    ⟨deviceId, (sortedSensors registry deviceId).map (sensorView a) ++
      (unregisteredIds registry deviceId a).map (unregisteredView a deviceId),
      (sortedSensors registry deviceId).length + (unregisteredIds registry deviceId a).length,
      (unregisteredIds registry deviceId a).length, a.reachable⟩ := by
  simp only [sensorsResponse, unregisteredIds, List.length_map]

theorem sortedSensors_ids :
    ((sortedSensors registry deviceId).map Sensor.sensorId).Perm (registry.ids deviceId) :=
  (List.perm_insertionSort _ _).map _

theorem sensorsResponse_ids :
    (sensorsResponse registry deviceId a).sensors.map SensorView.sensorId =
      (sortedSensors registry deviceId).map Sensor.sensorId ++
        unregisteredIds registry deviceId a := by
  have hview : SensorView.sensorId ∘ sensorView a = Sensor.sensorId := rfl
  have hunregistered : SensorView.sensorId ∘ unregisteredView a deviceId = id := rfl
  rw [sensorsResponse_eq, List.map_append, List.map_map, List.map_map, hview, hunregistered,
    List.map_id]

variable {registry deviceId a}

theorem mem_unregisteredIds {id : Bytes} : id ∈ unregisteredIds registry deviceId a ↔
    (a.latestReading deviceId id).isSome ∧ id ∉ registry.ids deviceId := by
  rw [unregisteredIds, sortedSet, List.mem_insertionSort, List.mem_dedup, List.removeAll,
    List.mem_filter, mem_sensorsSeen, ← (sortedSensors_ids registry deviceId).mem_iff]
  simp

theorem mem_sensorsResponse_ids {id : Bytes} :
    id ∈ (sensorsResponse registry deviceId a).sensors.map SensorView.sensorId ↔
      id ∈ registry.ids deviceId ∨ (a.latestReading deviceId id).isSome := by
  rw [sensorsResponse_ids, List.mem_append, mem_unregisteredIds,
    (sortedSensors_ids registry deviceId).mem_iff]
  tauto

theorem nodup_sensorsResponse_ids :
    ((sensorsResponse registry deviceId a).sensors.map SensorView.sensorId).Nodup := by
  rw [sensorsResponse_ids, List.nodup_append]
  refine ⟨?_, ?_, ?_⟩
  · rw [(sortedSensors_ids registry deviceId).nodup_iff]
    exact registry.nodup_ids deviceId
  · rw [unregisteredIds, sortedSet, (List.perm_insertionSort _ _).nodup_iff]
    exact List.nodup_dedup _
  · intro id hid other hother heq
    rw [(sortedSensors_ids registry deviceId).mem_iff] at hid
    rw [heq] at hid
    exact (mem_unregisteredIds.mp hother).2 hid

theorem registered_iff {view : SensorView F}
    (h : view ∈ (sensorsResponse registry deviceId a).sensors) :
    view.registered = true ↔ view.sensorId ∈ registry.ids deviceId := by
  rw [sensorsResponse_eq] at h
  rcases List.mem_append.mp h with h | h
  · obtain ⟨sensor, hsensor, rfl⟩ := List.mem_map.mp h
    have hid : sensor.sensorId ∈ registry.ids deviceId :=
      (sortedSensors_ids registry deviceId).mem_iff.mp (List.mem_map_of_mem hsensor)
    exact iff_of_true rfl hid
  · obtain ⟨id, hid, rfl⟩ := List.mem_map.mp h
    exact iff_of_false Bool.false_ne_true (mem_unregisteredIds.mp hid).2

theorem unregisteredCount_eq : (sensorsResponse registry deviceId a).unregisteredCount =
    ((sensorsResponse registry deviceId a).sensors.filter fun view => !view.registered).length := by
  have hviews : ((sortedSensors registry deviceId).map (sensorView a)).filter
      (fun view => !view.registered) = [] := by
    rw [List.filter_eq_nil_iff]
    intro view hview
    obtain ⟨sensor, -, rfl⟩ := List.mem_map.mp hview
    simp [sensorView]
  have hunregistered : ((unregisteredIds registry deviceId a).map
      (unregisteredView a deviceId)).filter (fun view => !view.registered) =
      (unregisteredIds registry deviceId a).map (unregisteredView a deviceId) := by
    rw [List.filter_eq_self]
    intro view hview
    obtain ⟨id, -, rfl⟩ := List.mem_map.mp hview
    rfl
  rw [sensorsResponse_eq, List.filter_append, hviews, hunregistered, List.nil_append,
    List.length_map]

end Listed

section Chain
variable [NumberFloat F]

/-- A block in which the ledger heard from a sensor. -/
structure HeardFrom (deviceId sensorId : Bytes) (b : Block F) : Prop where
  eventType : b.event.eventType.1 = ascii "SENSOR_READING" ∨
    b.event.eventType.1 = ascii "CAMERA_EVENT"
  actor : b.event.actor.1 = deviceId
  sensor : (sensorOf b.event).map Prod.snd = some sensorId

/-- Every sensor that is registered or that some block is from, once. -/
structure ListsEverySensor (registry : Registry) (blocks : List (Block F)) (deviceId : Bytes)
    (response : SensorsResponse F) : Prop where
  listed : ∀ id, id ∈ response.sensors.map SensorView.sensorId ↔
    id ∈ registry.ids deviceId ∨ ∃ b ∈ blocks, HeardFrom deviceId id b
  once : (response.sensors.map SensorView.sensorId).Nodup
  registered : ∀ view ∈ response.sensors,
    view.registered = true ↔ view.sensorId ∈ registry.ids deviceId
  unregisteredCount : response.unregisteredCount =
    (response.sensors.filter fun view => !view.registered).length

variable {depth historyLimit : ℕ} {fromisoformat : Bytes → Option DateTime}

theorem consumed_latest_isSome {blocks : List (Block F)} {key : Key} :
    ((consumed historyLimit fromisoformat blocks).latest.get key).isSome ↔
      ∃ b ∈ blocks, (readingOf fromisoformat key b).isSome := by
  have hempty : (LedgerActivity.new : LedgerActivity F).maps.shelf key = ⟨none, []⟩ := rfl
  have hlatest : (consumed historyLimit fromisoformat blocks).latest.get key =
      (ascending Reading.timestamp (blocks.filterMap (readingOf fromisoformat key))).getLast? := by
    have hshelf : (consumed historyLimit fromisoformat blocks).shelf key = _ :=
      foldl_step_shelf _ blocks key
    rw [hempty, foldl_add_empty] at hshelf
    exact congrArg Shelf.latest hshelf
  have hnone : (ascending Reading.timestamp
      (blocks.filterMap (readingOf fromisoformat key))).getLast? = none ↔
      ∀ b ∈ blocks, readingOf fromisoformat key b = none := by
    rw [List.getLast?_eq_none_iff, ascending_eq_nil_iff, List.filterMap_eq_nil_iff]
  rw [hlatest, ← not_iff_not, Option.not_isSome_iff_eq_none, hnone]
  simp [Option.isNone_iff_eq_none]

theorem HeardFrom.of_readingOf {deviceId id : Bytes} {b : Block F}
    (h : (readingOf fromisoformat (deviceId, id) b).isSome) : HeardFrom deviceId id b := by
  obtain ⟨r, hr⟩ := Option.isSome_iff_exists.mp h
  obtain ⟨e, he, -⟩ := Option.map_eq_some_iff.mp hr
  unfold sensorEventOf at he
  split_ifs at he with htype
  obtain ⟨t, ht, he⟩ := Option.bind_eq_some_iff.mp he
  obtain ⟨sensor, hsensor, he⟩ := Option.bind_eq_some_iff.mp he
  split_ifs at he with hid
  unfold sightingOf at ht
  split_ifs at ht with hactor
  constructor
  · exact Or.inl htype
  · exact hactor
  · rw [hsensor, Option.map_some, hid]

/-- At the end of the chain the cache has consumed each of its blocks. -/
theorem Polled.mem_blocksAt {chain : Chain F} {a : LedgerActivity F} {positions : List ℕ}
    (h : Polled depth historyLimit fromisoformat chain a positions)
    (hcursor : a.nextIndex = chain.size) {b : Block F} :
    b ∈ blocksAt chain positions ↔ b ∈ chain.blocks := by
  rw [blocksAt, List.mem_filterMap]
  constructor
  · rintro ⟨i, -, hi⟩
    exact List.mem_of_getElem? hi
  · intro hb
    obtain ⟨i, hi⟩ := List.mem_iff_getElem?.mp hb
    have hlt : i < chain.size := (List.getElem?_eq_some_iff.mp hi).1
    exact ⟨i, h.covers i (hcursor ▸ hlt), hi⟩

theorem Polled.latest_isSome {chain : Chain F} {a : LedgerActivity F} {positions : List ℕ}
    (h : Polled depth historyLimit fromisoformat chain a positions)
    (hcursor : a.nextIndex = chain.size) {deviceId id : Bytes} : (a.latestReading deviceId id).isSome ↔
      ∃ b ∈ chain.blocks, (readingOf fromisoformat (deviceId, id) b).isSome := by
  rw [LedgerActivity.latestReading, h.spec.maps, consumed_latest_isSome]
  simp only [h.mem_blocksAt hcursor]

theorem deviceSensors_of_refreshed {a : LedgerActivity F} {fetched : Fetched F}
    (hr : (a.refresh historyLimit fromisoformat fetched).2 = .refreshed) (repr : Bytes → Bytes)
    {registry : Registry} {deviceId : Bytes} (hdevice : deviceId ∈ registry.devices) :
    deviceSensors historyLimit fromisoformat repr registry deviceId a fetched =
      ((a.refresh historyLimit fromisoformat fetched).1, .ok (sensorsResponse registry deviceId
        (a.refresh historyLimit fromisoformat fetched).1)) := by
  unfold deviceSensors
  rw [if_pos (List.contains_iff_mem.mpr hdevice)]
  rcases hc : a.refresh historyLimit fromisoformat fetched with ⟨refreshed, outcome⟩
  rw [hc] at hr
  obtain rfl : outcome = .refreshed := hr
  rfl

/-- Whatever the cache has of a chain, the handler lists every sensor the ledger has heard from
exactly if each of them is registered, or some block with a timestamp states a reading of it. -/
theorem sensors_listed_iff {chain : Chain F} {a : LedgerActivity F} {positions : List ℕ}
    (h : Polled depth historyLimit fromisoformat chain a positions)
    (hr : (a.refresh historyLimit fromisoformat (a.fetch depth chain)).2 = .refreshed)
    (repr : Bytes → Bytes) {registry : Registry} {deviceId : Bytes}
    (hdevice : deviceId ∈ registry.devices) :
    ∃ response, (deviceSensors historyLimit fromisoformat repr registry deviceId a
      (a.fetch depth chain)).2 = .ok response ∧
      (ListsEverySensor registry chain.blocks deviceId response ↔
        ∀ id, (∃ b ∈ chain.blocks, HeardFrom deviceId id b) →
          id ∈ registry.ids deviceId ∨
            ∃ b ∈ chain.blocks, (readingOf fromisoformat (deviceId, id) b).isSome) := by
  have hrefresh := refresh_fetch_refreshed h.spec.room h.spec.bound hr
  have hpolled := h.refresh hr
  have hcursor : (a.refresh historyLimit fromisoformat (a.fetch depth chain)).1.nextIndex =
      chain.size := by
    rw [hrefresh]
  refine ⟨sensorsResponse registry deviceId
    (a.refresh historyLimit fromisoformat (a.fetch depth chain)).1, ?_, ?_⟩
  · rw [deviceSensors_of_refreshed hr repr hdevice]
  · constructor
    · intro hlists id hheard
      have hid := (hlists.listed id).mpr (Or.inr hheard)
      rwa [mem_sensorsResponse_ids, hpolled.latest_isSome hcursor] at hid
    · intro hknown
      constructor
      · intro id
        rw [mem_sensorsResponse_ids, hpolled.latest_isSome hcursor]
        constructor
        · rintro (hid | ⟨b, hb, hread⟩)
          · exact Or.inl hid
          · exact Or.inr ⟨b, hb, .of_readingOf hread⟩
        · rintro (hid | hheard)
          · exact Or.inl hid
          · exact hknown id hheard
      · exact nodup_sensorsResponse_ids
      · exact fun view => registered_iff
      · exact unregisteredCount_eq

end Chain

def bareRegistry : Registry where
  devices := [ascii "node-1"]
  sensors := []
  nodup := List.nodup_nil
  foreign := by simp

theorem sensors_listed_iff_sample : ∃ response, (deviceSensors 500 sampleIso id bareRegistry
      (ascii "node-1") .new (LedgerActivity.new.fetch 1000 sampleReadingChain)).2 = .ok response ∧
    ListsEverySensor bareRegistry sampleReadingChain.blocks (ascii "node-1") response := by
  have hroom : sampleReadingChain.size < 2 ^ 64 := by decide
  have hrefreshed : (LedgerActivity.new.refresh 500 sampleIso
      (LedgerActivity.new.fetch 1000 sampleReadingChain)).2 = .refreshed :=
    congrArg Prod.snd (sampleReadingChain_refresh (Nat.zero_le 2))
  have hdevice : ascii "node-1" ∈ bareRegistry.devices := List.mem_singleton_self _
  obtain ⟨response, hresponse, hiff⟩ :=
    sensors_listed_iff (.new sampleReadingChain hroom) hrefreshed id hdevice
  refine ⟨response, hresponse, hiff.mpr ?_⟩
  rintro id ⟨b, hb, hheard⟩
  have hid : (sensorOf sampleReadingEvent).map Prod.snd = some (ascii "t1") := by decide
  have hread : ∃ b ∈ sampleReadingChain.blocks,
      (readingOf sampleIso (ascii "node-1", ascii "t1") b).isSome := by decide
  have hsensor := hheard.sensor
  rcases List.mem_append.mp hb with hb | hb
  · have hgenesis : (sensorOf sampleGenesis.event).map Prod.snd = none := by decide
    rw [List.mem_singleton.mp hb, hgenesis] at hsensor
    cases hsensor
  · rw [List.mem_singleton.mp hb] at hsensor
    rw [← Option.some.inj (hid.symm.trans hsensor)]
    exact Or.inr hread

/-- The ledger heard from the camera, and the handler does not list it. -/
theorem unregistered_camera_is_hidden :
    ¬ ∀ (chain : Chain Numeral) (registry : Registry) (deviceId : Bytes)
      (response : SensorsResponse Numeral), deviceId ∈ registry.devices →
      (deviceSensors 500 stepIso id registry deviceId .new
        (LedgerActivity.new.fetch 1000 chain)).2 = .ok response →
      ListsEverySensor registry chain.blocks deviceId response := by
  intro h
  have hdevice : ascii "node-1" ∈ bareRegistry.devices := List.mem_singleton_self _
  have hrefreshed : (LedgerActivity.new.refresh 500 stepIso
      (LedgerActivity.new.fetch 1000 cameraChain)).2 = .refreshed := by decide
  have hlists := h cameraChain bareRegistry (ascii "node-1") _ hdevice
    (congrArg Prod.snd (deviceSensors_of_refreshed hrefreshed id hdevice))
  have hheard : ∃ b ∈ cameraChain.blocks, HeardFrom (ascii "node-1") (ascii "cam") b :=
    ⟨_, List.mem_append_right _ (List.mem_singleton_self _), Or.inr rfl, rfl, rfl⟩
  have hid := (hlists.listed (ascii "cam")).mpr (Or.inr hheard)
  rw [mem_sensorsResponse_ids] at hid
  revert hid
  decide

end Ledger.Backend

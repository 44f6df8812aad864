import Ledger.Backend.Readers
import Ledger.Backend.Sensors
import Ledger.Frontend.Query
import Ledger.System.KeyedSort
import Mathlib.Data.Prod.Lex

/-! `GET /devices`: the rows of the registry with what the ledger says of them, filtered and sorted
as the page asks. -/
namespace Ledger.Backend
open Text Json
variable {F : Type}

/-- A row of the table of devices. -/
structure DeviceRow where
  deviceId : Bytes
  locationId : Option Bytes
  deviceType : Bytes
  registeredAt : ℤ

/-- The table of devices in whatever order it is read, with the table of sensors. -/
structure Fleet where
  rows : List DeviceRow
  registry : Registry
  ids : registry.devices = rows.map DeviceRow.deviceId
  nodup : (rows.map DeviceRow.deviceId).Nodup

structure DeviceRecord where
  deviceId : Bytes
  locationId : Option Bytes
  deviceType : Bytes
  registeredAt : ℤ
  lastSeen : Option ℤ
  status : DeviceStatus
  sensorCount : ℕ
  sensorTypes : List Bytes

def DeviceStatus.text : DeviceStatus → Bytes
  | active => ascii "active"
  | inactive => ascii "inactive"

/-- The filters that run in SQL; a device without a location is at none. -/
def selected (p : DevicesParams) (d : DeviceRow) : Bool :=
  p.locationId.all (fun v => d.locationId = some v.1) &&
    p.deviceType.all (fun v => d.deviceType = v.1)

/-- One record, or `none` where `status` raises. `now` is the time at which it asks for a device. -/
def deviceRecord (fleet : Fleet) (a : LedgerActivity F) (activeWindow : ℤ) (now : Bytes → ℤ)
    (d : DeviceRow) : Option DeviceRecord :=
  (a.status activeWindow d.deviceId (now d.deviceId)).map fun status =>
    { deviceId := d.deviceId
      locationId := d.locationId
      deviceType := d.deviceType
      registeredAt := d.registeredAt
      lastSeen := a.lastSeen d.deviceId
      status
      sensorCount := (fleet.registry.sensorsOf d.deviceId).length
      sensorTypes := sortedSet ((fleet.registry.sensorsOf d.deviceId).map Sensor.sensorType) }

/-- `_sort_key`, with a place in front for the times. `_NEVER` is the first instant of year one. -/
def DeviceRecord.sortKey (record : DeviceRecord) (sort : Utf8String) : ℤ ×ₗ List ℕ ×ₗ List ℕ :=
  if sort.1 = ascii "last_seen" then
    toLex (record.lastSeen.getD 0, toLex (keyOrder record.deviceId, []))
  else if sort.1 = ascii "location" then
    toLex (0, toLex (keyOrder (record.locationId.getD []), keyOrder record.deviceId))
  else toLex (0, toLex (keyOrder record.deviceId, []))

/-- `records.sort`; with `reverse` it keeps the order of equal keys. -/
def sortRecords (sort order : Utf8String) (records : List DeviceRecord) : List DeviceRecord :=
  if order.1 = ascii "desc" then
    (records.reverse.insertionSort fun r s => r.sortKey sort ≤ s.sortKey sort).reverse
  else records.insertionSort fun r s => r.sortKey sort ≤ s.sortKey sort

structure DevicesResponse where
  devices : List DeviceRecord
  count : ℕ
  params : DevicesParams
  activeWindow : ℤ
  ledgerReachable : Bool

/-- What the handler answers from the registry and the cache. -/
def devicesResponse (fleet : Fleet) (a : LedgerActivity F) (activeWindow : ℤ) (now : Bytes → ℤ)
    (p : DevicesParams) : Option DevicesResponse := do
  let records ← (fleet.rows.filter (selected p)).mapM (deviceRecord fleet a activeWindow now)
  let records := if p.status.1 = ascii "all" then records
    else records.filter fun r => r.status.text = p.status.1
  let records := sortRecords p.sort p.order records
  return ⟨records, records.length, p, activeWindow, a.reachable⟩

variable [NumberFloat F] in
/-- `devices`, with the answer that its `refresh` gets. -/
def devices (historyLimit : ℕ) (fromisoformat : Bytes → Option DateTime)
    (repr : Utf8String → Bytes) (activeWindow : ℤ) (now : Bytes → ℤ) (fleet : Fleet)
    (query : Utf8String) (a : LedgerActivity F) (fetched : Fetched F) :
    LedgerActivity F × Except HandlerError DevicesResponse :=
  match devicesParams repr query with
  | .error e => (a, .error (.http e.statusCode e.detail))
  | .ok p =>
    match a.refresh historyLimit fromisoformat fetched with
    | (a, .raised e) => (a, .error (.raised e))
    | (a, _) =>
      match devicesResponse fleet a activeWindow now p with
      | none => (a, .error (.raised (.overflow .dateValueOutOfRange)))
      | some response => (a, .ok response)

/-- What a column says of two records; the ids decide between equals. -/
def ColumnLess (key : Frontend.SortKey) (r s : DeviceRecord) : Prop :=
  match key with
  | .lastSeen => r.lastSeen.getD 0 < s.lastSeen.getD 0 ∨
      r.lastSeen.getD 0 = s.lastSeen.getD 0 ∧ keyOrder r.deviceId < keyOrder s.deviceId
  | .name => keyOrder r.deviceId < keyOrder s.deviceId
  | .location => keyOrder (r.locationId.getD []) < keyOrder (s.locationId.getD []) ∨
      r.locationId.getD [] = s.locationId.getD [] ∧ keyOrder r.deviceId < keyOrder s.deviceId

/-- `r` stands above `s` in the table of a query. -/
def Above (query : Frontend.DeviceQuery) (r s : DeviceRecord) : Prop :=
  match query.order with
  | .asc => ColumnLess query.sort r s
  | .desc => ColumnLess query.sort s r

/-- A record that the filters let through. -/
structure Wanted (filters : Frontend.DeviceFilters) (r : DeviceRecord) : Prop where
  locationId : ∀ v ∈ filters.locationId, r.locationId = some v.1
  deviceType : ∀ v ∈ filters.deviceType, r.deviceType = v.1
  status : match filters.status with
    | .all => True
    | .active => r.status = .active
    | .inactive => r.status = .inactive

section View
variable [NumberFloat F] (fromisoformat : Bytes → Option DateTime)

def lastHeard (chain : Chain F) (deviceId : Bytes) : Option ℤ :=
  (chain.blocks.filterMap (sightingOf fromisoformat deviceId)).max?

/-- A record is what the registry and the ledger have of a device. -/
structure Describes (fleet : Fleet) (chain : Chain F) (activeWindow : ℤ) (now : Bytes → ℤ)
    (d : DeviceRow) (r : DeviceRecord) : Prop where
  deviceId : r.deviceId = d.deviceId
  locationId : r.locationId = d.locationId
  deviceType : r.deviceType = d.deviceType
  registeredAt : r.registeredAt = d.registeredAt
  lastSeen : r.lastSeen = lastHeard fromisoformat chain d.deviceId
  status : r.status = .active ↔
    ∃ seen ∈ lastHeard fromisoformat chain d.deviceId, now d.deviceId - seen ≤ activeWindow
  sensorCount : r.sensorCount = fleet.registry.sensors.countP (·.deviceId = d.deviceId)
  sensorTypes : ∀ t, t ∈ r.sensorTypes ↔
    ∃ s ∈ fleet.registry.sensors, s.deviceId = d.deviceId ∧ s.sensorType = t
  ascending : r.sensorTypes.Pairwise fun t u => keyOrder t < keyOrder u

/-- The table of a query, row by row. -/
structure Shows (fleet : Fleet) (chain : Chain F) (activeWindow : ℤ) (now : Bytes → ℤ)
    (query : Frontend.DeviceQuery) (records : List DeviceRecord) : Prop where
  rows : ∀ r, r ∈ records ↔ Wanted query.toDeviceFilters r ∧
    ∃ d ∈ fleet.rows, Describes fromisoformat fleet chain activeWindow now d r
  order : records.Pairwise (Above query)

end View

theorem sortKey_injective {r s : DeviceRecord} {sort : Utf8String}
    (h : r.sortKey sort = s.sortKey sort) : r.deviceId = s.deviceId := by
  unfold DeviceRecord.sortKey at h
  split_ifs at h
  · exact keyOrder_injective (Prod.mk.inj (Prod.mk.inj h).2).1
  · exact keyOrder_injective (Prod.mk.inj (Prod.mk.inj h).2).2
  · exact keyOrder_injective (Prod.mk.inj (Prod.mk.inj h).2).1

theorem nodup_sortKeys {records : List DeviceRecord} (sort : Utf8String)
    (h : (records.map DeviceRecord.deviceId).Nodup) : (records.map (·.sortKey sort)).Nodup := by
  rw [List.Nodup, List.pairwise_map] at h ⊢
  exact h.imp fun hne heq => hne (sortKey_injective heq)

/-- The keys of the handler and the columns of the page say the same. -/
theorem sortKey_lt_iff (key : Frontend.SortKey) (r s : DeviceRecord) :
    r.sortKey key.text < s.sortKey key.text ↔ ColumnLess key r s := by
  cases key with
  | lastSeen =>
    have hsort : Frontend.SortKey.lastSeen.text.1 = ascii "last_seen" := rfl
    simp [DeviceRecord.sortKey, hsort, ColumnLess, Prod.Lex.toLex_lt_toLex]
  | name =>
    have hlastSeen : Frontend.SortKey.name.text.1 ≠ ascii "last_seen" := by decide
    have hlocation : Frontend.SortKey.name.text.1 ≠ ascii "location" := by decide
    simp [DeviceRecord.sortKey, hlastSeen, hlocation, ColumnLess, Prod.Lex.toLex_lt_toLex]
  | location =>
    have hlocation : Frontend.SortKey.location.text.1 = ascii "location" := rfl
    have hlastSeen : ascii "location" ≠ ascii "last_seen" := by decide
    simp [DeviceRecord.sortKey, hlocation, hlastSeen, ColumnLess, Prod.Lex.toLex_lt_toLex,
      keyOrder_injective.eq_iff]

theorem sortRecords_above {records : List DeviceRecord} (query : Frontend.DeviceQuery)
    (h : (records.map DeviceRecord.deviceId).Nodup) :
    (sortRecords query.sort.text query.order.text records).Pairwise (Above query) := by
  unfold sortRecords Above
  cases query.order with
  | asc =>
    rw [if_neg (by decide)]
    exact (insertionSort_ascending (nodup_sortKeys query.sort.text h)).imp
      fun hlt => (sortKey_lt_iff query.sort _ _).mp hlt
  | desc =>
    have hreverse : (records.reverse.map DeviceRecord.deviceId).Nodup := by
      rwa [List.map_reverse, List.nodup_reverse]
    have hdesc : Frontend.SortOrder.desc.text.1 = ascii "desc" := rfl
    rw [if_pos hdesc, List.pairwise_reverse]
    exact (insertionSort_ascending (nodup_sortKeys query.sort.text hreverse)).imp
      fun hlt => (sortKey_lt_iff query.sort _ _).mp hlt

theorem mem_sortRecords {records : List DeviceRecord} {sort order : Utf8String} {r : DeviceRecord} :
    r ∈ sortRecords sort order records ↔ r ∈ records := by
  unfold sortRecords
  split_ifs
  · rw [List.mem_reverse, List.mem_insertionSort, List.mem_reverse]
  · rw [List.mem_insertionSort]

theorem length_sortRecords (sort order : Utf8String) (records : List DeviceRecord) :
    (sortRecords sort order records).length = records.length := by
  unfold sortRecords
  split_ifs
  · rw [List.length_reverse, List.length_insertionSort, List.length_reverse]
  · rw [List.length_insertionSort]

theorem eq_of_above {query : Frontend.DeviceQuery} {l m : List DeviceRecord}
    (hl : l.Pairwise (Above query)) (hm : m.Pairwise (Above query)) (h : ∀ r, r ∈ l ↔ r ∈ m) :
    l = m := by
  unfold Above at hl hm
  simp only [← sortKey_lt_iff] at hl hm
  cases horder : query.order with
  | asc =>
    rw [horder] at hl hm
    exact eq_of_ascending hl hm h
  | desc =>
    rw [horder] at hl hm
    rw [← List.pairwise_reverse] at hl hm
    exact List.reverse_injective (eq_of_ascending hl hm (by simpa using h))

theorem deviceRecord_deviceId {fleet : Fleet} {a : LedgerActivity F} {activeWindow : ℤ}
    {now : Bytes → ℤ} {d : DeviceRow} {r : DeviceRecord}
    (h : deviceRecord fleet a activeWindow now d = some r) : r.deviceId = d.deviceId := by
  obtain ⟨status, -, rfl⟩ := Option.map_eq_some_iff.mp h
  rfl

theorem nodup_deviceRecords {fleet : Fleet} {a : LedgerActivity F} {activeWindow : ℤ}
    {now : Bytes → ℤ} {rows : List DeviceRow} (h : (rows.map DeviceRow.deviceId).Nodup) :
    ((rows.filterMap (deviceRecord fleet a activeWindow now)).map DeviceRecord.deviceId).Nodup := by
  rw [List.Nodup, List.pairwise_map] at h ⊢
  rw [List.pairwise_filterMap]
  refine h.imp fun hne r hr s hs heq => hne ?_
  rw [← deviceRecord_deviceId hr, ← deviceRecord_deviceId hs, heq]

theorem status_eq {a : LedgerActivity F} {activeWindow now : ℤ} {deviceId : Bytes}
    {status : DeviceStatus} (h : a.status activeWindow deviceId now = some status) :
    status = .active ↔ ∃ seen ∈ a.lastSeen deviceId, now - seen ≤ activeWindow := by
  unfold LedgerActivity.status at h
  cases hseen : a.lastSeen deviceId with
  | none =>
    rw [hseen] at h
    obtain rfl := Option.some.inj h
    simp
  | some seen =>
    rw [hseen] at h
    obtain ⟨elapsed, helapsed, rfl⟩ := Option.map_eq_some_iff.mp h
    unfold timedelta at helapsed
    split_ifs at helapsed
    obtain rfl := Option.some.inj helapsed
    simp

theorem foldl_laterOf_eq_max? (times : List ℤ) : times.foldl laterOf none = times.max? := by
  rw [laterOf_eq_renew]
  rcases foldl_renew_cases id times with ⟨rfl, h⟩ | ⟨t, ht, h, hmax⟩
  · exact h
  · rw [h, eq_comm, List.max?_eq_some_iff]
    exact ⟨ht, hmax⟩

theorem max?_congr {l m : List ℤ} (h : ∀ t, t ∈ l ↔ t ∈ m) : l.max? = m.max? := by
  apply Option.ext
  intro t
  simp only [List.max?_eq_some_iff, h]

section View
variable [NumberFloat F] {depth historyLimit : ℕ} {fromisoformat : Bytes → Option DateTime}

/-- A cache that has caught up with the chain knows when the ledger last heard from a device. -/
theorem Polled.lastSeen_eq {chain : Chain F} {a : LedgerActivity F} {positions : List ℕ}
    (h : Polled depth historyLimit fromisoformat chain a positions) (hcursor : a.nextIndex = chain.size)
    (deviceId : Bytes) : a.lastSeen deviceId = lastHeard fromisoformat chain deviceId := by
  have hnew : (LedgerActivity.new : LedgerActivity F).maps.lastSeen.get deviceId = none := rfl
  rw [LedgerActivity.lastSeen, h.spec.maps, consumed, foldl_step_lastSeen, hnew,
    foldl_laterOf_eq_max?]
  apply max?_congr
  intro t
  simp only [List.mem_filterMap, h.mem_blocksAt hcursor]

variable {fleet : Fleet} {chain : Chain F} {activeWindow : ℤ} {now : Bytes → ℤ}

theorem deviceRecord_eq_some_iff {a : LedgerActivity F} {d : DeviceRow}
    (hseen : a.lastSeen d.deviceId = lastHeard fromisoformat chain d.deviceId)
    (hstatus : (a.status activeWindow d.deviceId (now d.deviceId)).isSome) {r : DeviceRecord} :
    deviceRecord fleet a activeWindow now d = some r ↔
      Describes fromisoformat fleet chain activeWindow now d r := by
  obtain ⟨status, hstatus⟩ := Option.isSome_iff_exists.mp hstatus
  have hactive := status_eq hstatus
  rw [hseen] at hactive
  have htypes (t : Bytes) :
      t ∈ sortedSet ((fleet.registry.sensorsOf d.deviceId).map Sensor.sensorType) ↔
        ∃ s ∈ fleet.registry.sensors, s.deviceId = d.deviceId ∧ s.sensorType = t := by
    simp [sortedSet, Registry.sensorsOf, and_assoc]
  have hascending : (sortedSet ((fleet.registry.sensorsOf d.deviceId).map
      Sensor.sensorType)).Pairwise fun t u => keyOrder t < keyOrder u := by
    exact insertionSort_ascending ((List.nodup_dedup _).map keyOrder_injective)
  have hcount : (fleet.registry.sensorsOf d.deviceId).length =
      fleet.registry.sensors.countP (·.deviceId = d.deviceId) := List.countP_eq_length_filter.symm
  rw [deviceRecord, hstatus, Option.map_some, Option.some_inj]
  constructor
  · rintro rfl
    exact ⟨rfl, rfl, rfl, rfl, hseen, hactive, hcount, htypes, hascending⟩
  · rintro ⟨hid, hlocation, htype, hregistered, hlast, hrecord, hnumber, hmem, hsorted⟩
    have hsame : status = r.status := by
      have hiff : status = .active ↔ r.status = .active := hactive.trans hrecord.symm
      cases hs : r.status with
      | active => exact hiff.mpr hs
      | inactive =>
        cases status with
        | inactive => rfl
        | active => exact absurd (hiff.mp rfl) (by rw [hs]; decide)
    have hsorts : sortedSet ((fleet.registry.sensorsOf d.deviceId).map Sensor.sensorType) =
        r.sensorTypes :=
      eq_of_ascending hascending hsorted fun t => (htypes t).trans (hmem t).symm
    obtain ⟨id, locationId, deviceType, registeredAt, lastSeen, recordStatus, sensorCount,
      sensorTypes⟩ := r
    exact DeviceRecord.mk.injEq .. ▸ ⟨hid.symm, hlocation.symm, htype.symm, hregistered.symm,
      hseen.trans hlast.symm, hsame, hcount.trans hnumber.symm, hsorts⟩

theorem mapM_eq_filterMap {α β : Type} {f : α → Option β} {l : List α}
    (h : ∀ x ∈ l, (f x).isSome) : l.mapM f = some (l.filterMap f) := by
  induction l with
  | nil => rfl
  | cons x l ih =>
    obtain ⟨y, hy⟩ := Option.isSome_iff_exists.mp (h x List.mem_cons_self)
    rw [List.mapM_cons, hy, ih fun z hz => h z (List.mem_cons_of_mem x hz),
      List.filterMap_cons_some hy]
    rfl

theorem selected_iff {query : Frontend.DeviceQuery} {d : DeviceRow} :
    selected query.params d = true ↔ (∀ v ∈ query.locationId, d.locationId = some v.1) ∧
      ∀ v ∈ query.deviceType, d.deviceType = v.1 := by
  simp only [selected, Frontend.DeviceQuery.params, Bool.and_eq_true, Option.all_eq_true,
    decide_eq_true_iff, Option.mem_def]

theorem mem_filter_status {query : Frontend.DeviceQuery} {records : List DeviceRecord}
    {r : DeviceRecord} :
    r ∈ (if query.params.status.1 = ascii "all" then records
      else records.filter fun r => r.status.text = query.params.status.1) ↔
      r ∈ records ∧ match query.status with
        | .all => True
        | .active => r.status = .active
        | .inactive => r.status = .inactive := by
  have hinj : Function.Injective DeviceStatus.text := by
    intro s t
    cases s <;> cases t <;> decide
  cases hstatus : query.status with
  | all =>
    have hall : query.params.status.1 = ascii "all" :=
      congrArg (fun status => (Frontend.StatusFilter.text status).1) hstatus
    rw [if_pos hall, and_true]
  | active =>
    have hactive : query.params.status.1 = DeviceStatus.active.text :=
      congrArg (fun status => (Frontend.StatusFilter.text status).1) hstatus
    rw [hactive, if_neg (by decide), List.mem_filter, decide_eq_true_iff, hinj.eq_iff]
  | inactive =>
    have hinactive : query.params.status.1 = DeviceStatus.inactive.text :=
      congrArg (fun status => (Frontend.StatusFilter.text status).1) hstatus
    rw [hinactive, if_neg (by decide), List.mem_filter, decide_eq_true_iff, hinj.eq_iff]

theorem isSome_of_mapM {α β : Type} {f : α → Option β} {l : List α} {l' : List β}
    (h : l.mapM f = some l') : ∀ x ∈ l, (f x).isSome := by
  induction l generalizing l' with
  | nil => simp
  | cons x l ih =>
    rw [List.mapM_cons] at h
    obtain ⟨y, hy, hrest⟩ := Option.bind_eq_some_iff.mp h
    obtain ⟨ys, hys, -⟩ := Option.bind_eq_some_iff.mp hrest
    intro z hz
    rcases List.mem_cons.mp hz with rfl | hz
    · rw [hy]
      rfl
    · exact ih hys z hz

theorem devicesResponse_shows {a : LedgerActivity F}
    (hseen : ∀ deviceId, a.lastSeen deviceId = lastHeard fromisoformat chain deviceId)
    (hstatus : ∀ deviceId, (a.status activeWindow deviceId (now deviceId)).isSome)
    (query : Frontend.DeviceQuery) :
    ∃ records, devicesResponse fleet a activeWindow now query.params =
        some ⟨records, records.length, query.params, activeWindow, a.reachable⟩ ∧
      Shows fromisoformat fleet chain activeWindow now query records := by
  have hmap := mapM_eq_filterMap (l := fleet.rows.filter (selected query.params))
    (f := deviceRecord fleet a activeWindow now)
    fun d _ => by rw [deviceRecord, Option.isSome_map]; exact hstatus d.deviceId
  have hnodup : (((fleet.rows.filter (selected query.params)).filterMap
      (deviceRecord fleet a activeWindow now)).map DeviceRecord.deviceId).Nodup :=
    nodup_deviceRecords (fleet.nodup.sublist (List.filter_sublist.map _))
  refine ⟨_, by rw [devicesResponse, hmap]; rfl, ?_, ?_⟩
  · intro r
    rw [mem_sortRecords, mem_filter_status, List.mem_filterMap]
    simp only [List.mem_filter, selected_iff,
      deviceRecord_eq_some_iff (hseen _) (hstatus _)]
    constructor
    · rintro ⟨⟨d, ⟨hd, hlocation, htype⟩, hdescribes⟩, hstatus⟩
      refine ⟨⟨?_, ?_, hstatus⟩, d, hd, hdescribes⟩
      · rwa [hdescribes.locationId]
      · rwa [hdescribes.deviceType]
    · rintro ⟨⟨hlocation, htype, hstatus⟩, d, hd, hdescribes⟩
      rw [hdescribes.locationId] at hlocation
      rw [hdescribes.deviceType] at htype
      exact ⟨⟨d, ⟨hd, hlocation, htype⟩, hdescribes⟩, hstatus⟩
  · apply sortRecords_above
    split_ifs
    · exact hnodup
    · exact hnodup.sublist (List.filter_sublist.map _)

theorem devices_of_refreshed {a : LedgerActivity F} {fetched : Fetched F}
    (hr : (a.refresh historyLimit fromisoformat fetched).2 = .refreshed) (repr : Utf8String → Bytes)
    {query : Frontend.DeviceQuery} {response : DevicesResponse}
    (h : devicesResponse fleet (a.refresh historyLimit fromisoformat fetched).1 activeWindow now
      query.params = some response) :
    devices historyLimit fromisoformat repr activeWindow now fleet (Frontend.requestQuery query) a
      fetched = ((a.refresh historyLimit fromisoformat fetched).1, .ok response) := by
  unfold devices
  rw [Frontend.devicesParams_requestQuery]
  rcases hc : a.refresh historyLimit fromisoformat fetched with ⟨refreshed, outcome⟩
  rw [hc] at hr h
  obtain rfl : outcome = .refreshed := hr
  dsimp only at h ⊢
  rw [h]

theorem devices_ok {repr : Utf8String → Bytes} {query : Utf8String} {a : LedgerActivity F}
    {fetched : Fetched F} {response : DevicesResponse}
    (h : (devices historyLimit fromisoformat repr activeWindow now fleet query a fetched).2 =
      .ok response) :
    (∀ e, (a.refresh historyLimit fromisoformat fetched).2 ≠ .raised e) ∧
      ∃ p, devicesParams repr query = .ok p ∧ devicesResponse fleet
        (a.refresh historyLimit fromisoformat fetched).1 activeWindow now p = some response := by
  unfold devices at h
  cases hp : devicesParams repr query with
  | error e =>
    rw [hp] at h
    cases h
  | ok p =>
    rw [hp] at h
    dsimp only at h
    rcases hc : a.refresh historyLimit fromisoformat fetched with ⟨refreshed, outcome⟩
    rw [hc] at h
    cases outcome with
    | raised e => cases h
    | _ =>
      dsimp only at h ⊢
      cases hresponse : devicesResponse fleet refreshed activeWindow now p with
      | none =>
        rw [hresponse] at h
        cases h
      | some response' =>
        rw [hresponse] at h
        exact ⟨by simp, p, rfl, hresponse.trans (congrArg some (Except.ok.inj h))⟩

theorem devices_reachable {repr : Utf8String → Bytes} {query : Utf8String}
    {a : LedgerActivity F} {fetched : Fetched F} {response : DevicesResponse}
    (h : (devices historyLimit fromisoformat repr activeWindow now fleet query a fetched).2 =
      .ok response) :
    response.ledgerReachable = (a.refresh historyLimit fromisoformat fetched).1.reachable := by
  obtain ⟨-, p, -, hresponse⟩ := devices_ok h
  obtain ⟨records, -, hsome⟩ := Option.bind_eq_some_iff.mp hresponse
  rw [← Option.some.inj hsome]

theorem Shows.eq {query : Frontend.DeviceQuery} {records other : List DeviceRecord}
    (h : Shows fromisoformat fleet chain activeWindow now query records)
    (hother : Shows fromisoformat fleet chain activeWindow now query other) : other = records :=
  eq_of_above hother.order h.order fun r => (hother.rows r).trans (h.rows r).symm

theorem devices_of_polled {a : LedgerActivity F} {positions : List ℕ}
    (h : Polled depth historyLimit fromisoformat chain a positions) (hiso : ReadsZulu fromisoformat)
    (hstamps : ∀ b ∈ chain.blocks, ∃ tm, b.timestamp = nowRfc3339 tm)
    (hr : (a.refresh historyLimit fromisoformat (a.fetch depth chain)).2 = .refreshed)
    (hnow : ∀ deviceId, 0 ≤ now deviceId ∧ now deviceId < endOfTime) (repr : Utf8String → Bytes)
    (query : Frontend.DeviceQuery) :
    ∃ response, (devices historyLimit fromisoformat repr activeWindow now fleet
        (Frontend.requestQuery query) a (a.fetch depth chain)).2 = .ok response ∧
      response.count = response.devices.length ∧ response.ledgerReachable = true ∧
      Shows fromisoformat fleet chain activeWindow now query response.devices := by
  have hrefresh : a.refresh historyLimit fromisoformat (a.fetch depth chain) = _ :=
    refresh_fetch_refreshed h.spec.room h.spec.bound hr
  have hpolled := h.refresh hr
  have hcursor : (a.refresh historyLimit fromisoformat (a.fetch depth chain)).1.nextIndex =
      chain.size := by rw [hrefresh]
  have hreachable : (a.refresh historyLimit fromisoformat (a.fetch depth chain)).1.reachable =
      true := by rw [hrefresh]
  have hseen := hpolled.lastSeen_eq hcursor
  have hstatus (deviceId : Bytes) :
      ((a.refresh historyLimit fromisoformat (a.fetch depth chain)).1.status activeWindow deviceId
        (now deviceId)).isSome := by
    rw [LedgerActivity.status]
    cases hlast : LedgerActivity.lastSeen _ deviceId with
    | none => rfl
    | some seen =>
      rw [Option.isSome_map]
      rw [LedgerActivity.lastSeen, hpolled.spec.maps] at hlast
      refine timedelta_isSome (hnow deviceId) (hiso.lastSeen_range (fun b hb => ?_) hlast)
      exact hstamps b ((hpolled.mem_blocksAt hcursor).mp hb)
  obtain ⟨records, hresponse, hshows⟩ : ∃ records, devicesResponse fleet _ activeWindow now
      query.params = _ ∧ _ := devicesResponse_shows hseen hstatus query
  exact ⟨_, congrArg Prod.snd (devices_of_refreshed hr repr hresponse), rfl, hreachable, hshows⟩

/-- Whatever the cache has of a chain, and in whatever order the rows are read, the page gets the
one table of its query that the registry, the ledger and the clock allow. -/
theorem devices_shows {a : LedgerActivity F} {positions : List ℕ}
    (h : Polled depth historyLimit fromisoformat chain a positions) (hiso : ReadsZulu fromisoformat)
    (hstamps : ∀ b ∈ chain.blocks, ∃ tm, b.timestamp = nowRfc3339 tm)
    (hshallow : ∀ b ∈ chain.blocks, ¬Deep depth b)
    (hnow : ∀ deviceId, 0 ≤ now deviceId ∧ now deviceId < endOfTime) (repr : Utf8String → Bytes)
    (query : Frontend.DeviceQuery) :
    ∃ response, (devices historyLimit fromisoformat repr activeWindow now fleet
        (Frontend.requestQuery query) a (a.fetch depth chain)).2 = .ok response ∧
      response.count = response.devices.length ∧ response.ledgerReachable = true ∧
      ∀ records, Shows fromisoformat fleet chain activeWindow now query records ↔
        records = response.devices := by
  have hrefresh : a.refresh historyLimit fromisoformat (a.fetch depth chain) = _ :=
    refresh_fetch_ok h.spec.room h.spec.bound fun b hb =>
      hiso.readable_of_stamps hstamps hshallow b (List.mem_of_mem_drop hb)
  obtain ⟨response, hresponse, hcount, hreachable, hshows⟩ : ∃ response, (devices historyLimit
      fromisoformat repr activeWindow now fleet (Frontend.requestQuery query) a
      (a.fetch depth chain)).2 = .ok response ∧ _ :=
    devices_of_polled h hiso hstamps (congrArg Prod.snd hrefresh) hnow repr query
  refine ⟨response, hresponse, hcount, hreachable, fun records => ⟨hshows.eq, ?_⟩⟩
  rintro rfl
  exact hshows

end View

/-- A record has the id, the place and the type of a row. -/
structure RecordOf (d : DeviceRow) (r : DeviceRecord) : Prop where
  deviceId : r.deviceId = d.deviceId
  locationId : r.locationId = d.locationId
  deviceType : r.deviceType = d.deviceType

theorem devicesResponse_rows {fleet : Fleet} {a : LedgerActivity F} {activeWindow : ℤ}
    {now : Bytes → ℤ} {query : Frontend.DeviceQuery} {response : DevicesResponse}
    (h : devicesResponse fleet a activeWindow now query.params = some response)
    (hall : query.status = .all) :
    response.count = (fleet.rows.filter (selected query.params)).length ∧
    (∀ r ∈ response.devices, ∃ d ∈ fleet.rows, selected query.params d = true ∧ RecordOf d r) ∧
    ∀ d ∈ fleet.rows, selected query.params d = true →
      ∃ r ∈ response.devices, RecordOf d r := by
  obtain ⟨records, hrecords, hresponse⟩ := Option.bind_eq_some_iff.mp h
  have hsome := isSome_of_mapM hrecords
  obtain rfl := Option.some.inj ((mapM_eq_filterMap hsome).symm.trans hrecords)
  have hstatus : query.params.status.1 = ascii "all" :=
    congrArg (fun status => (Frontend.StatusFilter.text status).1) hall
  simp only [if_pos hstatus] at hresponse
  obtain rfl := Option.some.inj hresponse
  have hrow {d : DeviceRow} {r : DeviceRecord}
      (hr : deviceRecord fleet a activeWindow now d = some r) : RecordOf d r := by
    obtain ⟨status, -, rfl⟩ := Option.map_eq_some_iff.mp hr
    exact ⟨rfl, rfl, rfl⟩
  refine ⟨?_, fun r hr => ?_, fun d hd hselected => ?_⟩
  · rw [length_sortRecords]
    exact List.filterMap_length_eq_length.mpr hsome
  · obtain ⟨d, hd, hr⟩ := List.mem_filterMap.mp (mem_sortRecords.mp hr)
    exact ⟨d, (List.mem_filter.mp hd).1, (List.mem_filter.mp hd).2, hrow hr⟩
  · have hd' := List.mem_filter.mpr ⟨hd, hselected⟩
    obtain ⟨r, hr⟩ := Option.isSome_iff_exists.mp (hsome d hd')
    exact ⟨r, mem_sortRecords.mpr (List.mem_filterMap.mpr ⟨d, hd', hr⟩), hrow hr⟩

theorem nodup_mixedIds : [ascii "node-1", ascii "node-2"].Nodup := by
  decide

def mixedFleet : Fleet where
  rows := [⟨ascii "node-1", some (ascii "hall"), ascii "esp32", 0⟩,
    ⟨ascii "node-2", none, ascii "esp32-cam", 0⟩]
  registry := { bareRegistry with
    devices := [ascii "node-1", ascii "node-2"]
    foreign := fun _ h => absurd h List.not_mem_nil }
  ids := rfl
  nodup := nodup_mixedIds

theorem devices_shows_sample : ∃ response, (devices 500 sampleIso (fun s => s.1) 300000000
      (fun _ => 7) mixedFleet (Frontend.requestQuery Frontend.defaultQuery) .new
      (LedgerActivity.new.fetch 1000 sampleReadingChain)).2 = .ok response ∧
    Shows sampleIso mixedFleet sampleReadingChain 300000000 (fun _ => 7) Frontend.defaultQuery
      response.devices := by
  have hroom : sampleReadingChain.size < 2 ^ 64 := by decide
  have hnow : ∀ _ : Bytes, (0 : ℤ) ≤ 7 ∧ (7 : ℤ) < endOfTime := fun _ => ⟨by decide, by decide⟩
  obtain ⟨response, hresponse, -, -, hshows⟩ := devices_shows (.new sampleReadingChain hroom)
    sampleIso_readsZulu sampleReadingChain_stamps sampleReadingChain_shallow hnow (fun s => s.1)
    Frontend.defaultQuery
  exact ⟨response, hresponse, (hshows response.devices).mpr rfl⟩

end Ledger.Backend

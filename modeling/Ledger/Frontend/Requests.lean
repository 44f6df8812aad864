import Ledger.Backend.Devices
import Ledger.Backend.Series
import Ledger.System.LatestRequest

/-! The requests of the page: the table of devices and the panel of the selected one, over any
changes of the query and of the selection and any order of the answers. -/
namespace Ledger.Frontend
open Text Json Backend
variable {F : Type}

/-- A response, with what its `json` gives. Errors are told by their messages. -/
structure Reply (α : Type) where
  status : ℕ
  statusText : Bytes
  body : Except Bytes α

def Reply.ok {α : Type} (r : Reply α) : Bool :=
  200 ≤ r.status && r.status ≤ 299

/-- `fetchDevices` and `getJson` behind their `fetch`, where `what` is what they say they asked
for. -/
def fetchJson {α : Type} (what : Bytes) (fetched : Except Bytes (Reply α)) : Except Bytes α := do
  let response ← fetched
  if response.ok then response.body
  else .error (what ++ ascii " returned " ++ decimal response.status ++ ascii " " ++
    response.statusText)

/-- What the client makes of the error of a request. -/
def describe (message apiBase : Bytes) : Bytes :=
  if message = ascii "Failed to fetch" ∨
      message = ascii "NetworkError when attempting to fetch resource." then
    ascii "Could not reach the API at " ++ apiBase ++ [0x20, 0xE2, 0x80, 0x94] ++
      ascii " it may be down, or the browser may have blocked the request (CORS_ORIGINS)."
  else message

structure DevicesState where
  data : Option DevicesResponse
  loading : Bool
  error : Option Bytes

def DevicesState.new : DevicesState :=
  ⟨none, true, none⟩

/-- The effect of `useDevices`, which runs for every new query. -/
def useDevices (apiBase : Bytes) : Effect DeviceQuery DevicesResponse Bytes DevicesState where
  idle := id
  request st := { st with loading := true, error := none }
  answer _ data _ := ⟨some data, false, none⟩
  failure _ message _ := ⟨none, false, some (describe message apiBase)⟩

structure PanelState (F : Type) where
  sensors : List (SensorView F)
  readings : List (Reading F)
  loading : Bool
  error : Option Bytes

def emptyPanel : PanelState F :=
  ⟨[], [], false, none⟩

/-- The effect of `useSensorPanel`, which runs for every selection. `Promise.all` has one
outcome. -/
def useSensorPanel :
    Effect Bytes (SensorsResponse F × ReadingsResponse F) Bytes (PanelState F) where
  idle _ := emptyPanel
  request _ := { emptyPanel with loading := true }
  answer _ data _ := ⟨data.1.sensors, data.2.series, false, none⟩
  failure _ message _ := { emptyPanel with error := some message }

section Backend
variable [NumberFloat F] (exact : F → ℚ) (historyLimit : ℕ)
  (fromisoformat : Bytes → Option DateTime)

/-- The registry, the ledger and the cache when a request is answered, with the clock, with what
`refresh` gets from the storage core and how deep `json.loads` can go into it. -/
structure Moment (F : Type) [NumberFloat F] (historyLimit : ℕ)
    (fromisoformat : Bytes → Option DateTime) where
  depth : ℕ
  fleet : Fleet
  chain : Chain F
  cache : LedgerActivity F
  positions : List ℕ
  polled : Polled depth historyLimit fromisoformat chain cache positions
  stamps : ∀ b ∈ chain.blocks, ∃ tm, b.timestamp = nowRfc3339 tm
  now : Bytes → ℤ
  range : ∀ deviceId, 0 ≤ now deviceId ∧ now deviceId < endOfTime
  fetched : Fetched F
  answer : fetched = cache.fetch depth chain ∨ fetched = .failed ∨
    ∃ code, code ≠ 400 ∧ fetched = .status code

/-- The cache behind the `refresh` of the handler. -/
def Moment.refreshed {historyLimit : ℕ} {fromisoformat : Bytes → Option DateTime}
    (m : Moment F historyLimit fromisoformat) : LedgerActivity F :=
  (m.cache.refresh historyLimit fromisoformat m.fetched).1

/-- A moment's `refresh` that does not raise has read blocks of the ledger, all of them if it can
reach it. -/
theorem Moment.refresh_eq {historyLimit : ℕ} {fromisoformat : Bytes → Option DateTime}
    (m : Moment F historyLimit fromisoformat)
    (hok : ∀ e, (m.cache.refresh historyLimit fromisoformat m.fetched).2 ≠ .raised e) :
    ∃ blocks, m.refreshed.maps = consumed historyLimit fromisoformat blocks ∧
      (∀ b ∈ blocks, b ∈ m.chain.blocks) ∧
      (m.refreshed.reachable = true → m.fetched = m.cache.fetch m.depth m.chain ∧
        (m.cache.refresh historyLimit fromisoformat m.fetched).2 = .refreshed) := by
  have hinside (positions : List ℕ) : ∀ b ∈ blocksAt m.chain positions, b ∈ m.chain.blocks := by
    intro b hb
    obtain ⟨i, -, hi⟩ := List.mem_filterMap.mp hb
    exact List.mem_of_getElem? hi
  rcases m.answer with hfetched | houtage
  · have hclean : ∀ b ∈ m.chain.blocks.drop (m.cache.nextIndex - 1),
        ¬Unreadable m.depth fromisoformat b := by
      intro b hb hbad
      obtain ⟨maps, reachable, e, hraised⟩ : ∃ maps reachable e, m.cache.refresh historyLimit
          fromisoformat (m.cache.fetch m.depth m.chain) = (⟨maps, _, reachable⟩, .raised e) :=
        refresh_fetch_raised m.polled.spec.room m.polled.spec.bound ⟨b, hb, hbad⟩
      rw [hfetched, hraised] at hok
      exact hok e rfl
    have hrefresh : m.cache.refresh historyLimit fromisoformat
        (m.cache.fetch m.depth m.chain) = _ :=
      refresh_fetch_ok m.polled.spec.room m.polled.spec.bound hclean
    have hmaps := (m.polled.refresh (congrArg Prod.snd hrefresh)).spec.maps
    rw [← hfetched] at hrefresh hmaps
    exact ⟨_, hmaps, hinside _, fun _ => ⟨hfetched, congrArg Prod.snd hrefresh⟩⟩
  · have hrefresh : m.cache.refresh historyLimit fromisoformat m.fetched = _ :=
      refresh_outage houtage
    refine ⟨blocksAt m.chain m.positions, ?_, hinside _, ?_⟩
    · rw [Moment.refreshed, hrefresh]
      exact m.polled.spec.maps
    · rw [Moment.refreshed, hrefresh]
      exact fun hfalse => absurd hfalse Bool.false_ne_true

/-- What the handlers take from outside. -/
structure Api where
  statusText : ℕ → Bytes
  activeWindow : ℤ
  reprQuery : Utf8String → Bytes
  repr : Bytes → Bytes
  reprText : List Char → Bytes
  str : ℤ → Bytes
  classes : CharClasses
  isoText : List Char → Option DateTime

variable (api : Api)

/-- The status of a response that is not an answer. -/
def handlerStatus : HandlerError → ℕ
  | .http code _ => code
  | .raised _ => 500

def readingsStatus : ReadingsError → ℕ
  | .http e => e.statusCode
  | _ => 500

def DevicesAnswer (query : DeviceQuery) (outcome : Except ℕ DevicesResponse) : Prop :=
  ∃ m : Moment F historyLimit fromisoformat, outcome = (devices historyLimit fromisoformat
    api.reprQuery api.activeWindow m.now m.fleet (requestQuery query) m.cache
    m.fetched).2.mapError handlerStatus

def SensorsAnswer (deviceId : Bytes) (outcome : Except ℕ (SensorsResponse F)) : Prop :=
  ∃ m : Moment F historyLimit fromisoformat, outcome = (deviceSensors historyLimit fromisoformat
    api.repr m.fleet.registry deviceId m.cache m.fetched).2.mapError handlerStatus

def ReadingsAnswer (deviceId : Bytes) (outcome : Except ℕ (ReadingsResponse F)) : Prop :=
  ∃ m : Moment F historyLimit fromisoformat, outcome = (readings exact historyLimit fromisoformat
    api.classes api.isoText api.repr api.reprText api.str m.fleet.registry.devices
    ⟨deviceId, none, none, historyLimit⟩ m.cache m.fetched).2.mapError readingsStatus

/-- The response to what a handler comes to. -/
def replied {α : Type} : Except ℕ α → Reply α
  | .ok data => ⟨200, api.statusText 200, .ok data⟩
  | .error code => ⟨code, api.statusText code, .error []⟩

/-- What a request comes to: there is no response, or none that can be read, or it is that of the
handler. -/
def Comes {α : Type} (what : Bytes) (Answer : Except ℕ α → Prop) (o : Except Bytes α) : Prop :=
  (∃ message, o = .error message) ∨
    ∃ outcome, Answer outcome ∧ o = fetchJson what (.ok (replied api outcome))

/-- `Promise.all` on two promises. -/
def PromiseAll {α β ε : Type} (x : Except ε α) (y : Except ε β) (o : Except ε (α × β)) : Prop :=
  match x, y with
  | .ok a, .ok b => o = .ok (a, b)
  | _, _ => ∃ err, o = .error err ∧ (x = .error err ∨ y = .error err)

/-- What a request of `useDevices` comes to. -/
def DevicesServed (query : DeviceQuery) : Except Bytes DevicesResponse → Prop :=
  Comes api (ascii "GET /devices") (DevicesAnswer (F := F) historyLimit fromisoformat api query)

/-- What the two requests of `useSensorPanel` come to, at their URLs. -/
def PanelServed (sensorsUrl readingsUrl : Bytes → Bytes) (deviceId : Bytes)
    (o : Except Bytes (SensorsResponse F × ReadingsResponse F)) : Prop :=
  ∃ sensors series,
    Comes api (sensorsUrl deviceId)
      (SensorsAnswer historyLimit fromisoformat api deviceId) sensors ∧
    Comes api (readingsUrl deviceId)
      (ReadingsAnswer exact historyLimit fromisoformat api deviceId) series ∧
    PromiseAll sensors series o

variable {exact historyLimit fromisoformat api}

omit [NumberFloat F] in
theorem Comes.of_ok {α : Type} {what : Bytes} {Answer : Except ℕ α → Prop} {data : α}
    (h : Comes api what Answer (.ok data)) : Answer (.ok data) := by
  rcases h with ⟨message, h⟩ | ⟨outcome, hanswer, h⟩
  · cases h
  · cases outcome with
    | ok data' =>
      have hdata : fetchJson what (.ok (replied api (.ok data'))) = .ok data' := rfl
      rw [hdata] at h
      rwa [Except.ok.inj h]
    | error code =>
      have hread : fetchJson what (.ok (replied api (.error code : Except ℕ α))) =
          if (replied api (.error code : Except ℕ α)).ok then .error [] else .error _ := rfl
      rw [hread] at h
      split_ifs at h

theorem PromiseAll.of_ok {α β ε : Type} {x : Except ε α} {y : Except ε β} {a : α} {b : β}
    (h : PromiseAll x y (.ok (a, b))) : x = .ok a ∧ y = .ok b := by
  cases x with
  | error err =>
    obtain ⟨err, h, -⟩ := h
    cases h
  | ok a' =>
    cases y with
    | error err =>
      obtain ⟨err, h, -⟩ := h
      cases h
    | ok b' =>
      obtain ⟨rfl, rfl⟩ := Prod.mk.inj (Except.ok.inj h)
      exact ⟨rfl, rfl⟩

theorem mapError_ok {α ε δ : Type} {f : ε → δ} {x : Except ε α} {a : α}
    (h : Except.ok a = x.mapError f) : x = .ok a := by
  cases x with
  | error err => cases h
  | ok a' => rw [Except.ok.inj h]

variable (historyLimit fromisoformat) in
/-- The devices are the one table of the query that the registry, the ledger and the clock allow at
some moment. -/
def TableOf (activeWindow : ℤ) (query : DeviceQuery) (records : List DeviceRecord) : Prop :=
  ∃ m : Moment F historyLimit fromisoformat, ∀ other,
    Shows fromisoformat m.fleet m.chain activeWindow m.now query other ↔ other = records

variable (historyLimit fromisoformat) in
/-- The sensors are those of the device at some moment. -/
def SensorsOf (deviceId : Bytes) (sensors : List (SensorView F)) : Prop :=
  ∃ m : Moment F historyLimit fromisoformat, deviceId ∈ m.fleet.registry.devices ∧
    sensors = (sensorsResponse m.fleet.registry deviceId m.refreshed).sensors

variable (historyLimit fromisoformat) in
/-- The readings are the newest of the device that the cache has of the ledger at some moment. -/
def ReadingsOf (deviceId : Bytes) (series : List (Reading F)) : Prop :=
  ∃ (m : Moment F historyLimit fromisoformat) (blocks : List (Block F)) (all : List (Reading F)),
    deviceId ∈ m.fleet.registry.devices ∧ (∀ b ∈ blocks, b ∈ m.chain.blocks) ∧
    WholeSeries historyLimit fromisoformat ⟨deviceId, none, none, historyLimit⟩ blocks all ∧
    series = all.rtake historyLimit

theorem DevicesAnswer.table {query : DeviceQuery} {response : DevicesResponse}
    (h : DevicesAnswer (F := F) historyLimit fromisoformat api query (.ok response))
    (hiso : ReadsZulu fromisoformat) (hreachable : response.ledgerReachable = true) :
    TableOf (F := F) historyLimit fromisoformat api.activeWindow query response.devices := by
  obtain ⟨m, hm⟩ := h
  have hdevices := mapError_ok hm
  obtain ⟨-, -, -, hfetched⟩ := m.refresh_eq (devices_ok hdevices).1
  obtain ⟨hanswered, hrefreshed⟩ := hfetched ((devices_reachable hdevices).symm.trans hreachable)
  rw [hanswered] at hdevices hrefreshed
  obtain ⟨response', hresponse, -, -, hshows⟩ :=
    devices_of_polled m.polled hiso m.stamps hrefreshed m.range api.reprQuery query
  obtain rfl := Except.ok.inj (hresponse.symm.trans hdevices)
  refine ⟨m, fun other => ⟨hshows.eq, ?_⟩⟩
  rintro rfl
  exact hshows

theorem SensorsAnswer.sensors {deviceId : Bytes} {response : SensorsResponse F}
    (h : SensorsAnswer historyLimit fromisoformat api deviceId (.ok response)) :
    SensorsOf historyLimit fromisoformat deviceId response.sensors := by
  obtain ⟨m, hm⟩ := h
  have hsensors := mapError_ok hm
  unfold deviceSensors at hsensors
  split_ifs at hsensors with hdevice
  refine ⟨m, List.contains_iff_mem.mp hdevice, ?_⟩
  unfold Moment.refreshed
  rcases hc : m.cache.refresh historyLimit fromisoformat m.fetched with ⟨refreshed, outcome⟩
  rw [hc] at hsensors
  cases outcome with
  | raised e => cases hsensors
  | _ => rw [← Except.ok.inj hsensors]

theorem ReadingsAnswer.readings {deviceId : Bytes} {response : ReadingsResponse F}
    (h : ReadingsAnswer exact historyLimit fromisoformat api deviceId (.ok response)) :
    ReadingsOf historyLimit fromisoformat deviceId response.series := by
  obtain ⟨m, hm⟩ := h
  obtain ⟨hdevice, hlimit, cutoff, hsince, hserved⟩ := readings_ok (mapError_ok hm)
  obtain rfl : none = cutoff := Except.ok.inj hsince
  have hok := servedSeries_ok hserved
  obtain ⟨blocks, hmaps, hblocks, -⟩ := m.refresh_eq hok
  by_cases hsortable : Sortable exact historyLimit fromisoformat
      ⟨deviceId, none, none, historyLimit⟩ none blocks
  · obtain ⟨response', all, hpage, -, hwhole, hpage'⟩ :=
      servedSeries_page rfl hok hmaps hlimit.1 hsortable
    rw [hpage] at hserved
    obtain rfl := Except.ok.inj hserved
    refine ⟨m, blocks, all, hdevice, hblocks, hwhole, ?_⟩
    rw [hpage'.series]
    exact congrArg (List.rtake · _) (List.filter_true _)
  · rw [servedSeries_typeError rfl hok hmaps hlimit.1 hsortable] at hserved
    cases hserved

/-- The state of `useDevices` for a query. -/
structure DevicesState.Follows (apiBase : Bytes) (Served : Except Bytes DevicesResponse → Prop)
    (st : DevicesState) : Prop where
  loading : st.loading = true → st.error = none
  answered : st.loading = false → st.error = none → ∃ response, st.data = some response ∧
    Served (.ok response)
  failed : ∀ text, st.error = some text → st.loading = false ∧ st.data = none ∧
    ∃ message, text = describe message apiBase ∧ Served (.error message)

theorem follows_of_shown {apiBase : Bytes}
    {Served : DeviceQuery → Except Bytes DevicesResponse → Prop} {query : DeviceQuery}
    {st : DevicesState} {progress : Progress DevicesResponse Bytes}
    (h : progress.Shown (useDevices apiBase) Served query st) :
    st.Follows apiBase (Served query) := by
  have hrequest (previous : DevicesState) :
      ((useDevices apiBase).request previous).Follows apiBase (Served query) :=
    ⟨fun _ => rfl, nofun, nofun⟩
  match progress, h with
  | .pending, ⟨previous, hst⟩ => exact hst ▸ hrequest previous
  | .queued _, ⟨_, previous, hst⟩ => exact hst ▸ hrequest previous
  | .done (.ok response), ⟨hserved, _, hst⟩ =>
    subst hst
    exact ⟨fun _ => rfl, fun _ _ => ⟨response, rfl, hserved⟩, nofun⟩
  | .done (.error message), ⟨hserved, _, hst⟩ =>
    subst hst
    exact ⟨nofun, nofun, fun text htext =>
      ⟨rfl, rfl, message, (Option.some.inj htext).symm, hserved⟩⟩

end Backend

def sampleMoment : Moment Numeral 500 sampleIso where
  depth := 1000
  fleet := mixedFleet
  chain := sampleReadingChain
  cache := .new
  positions := []
  polled := .new sampleReadingChain (show sampleReadingChain.size < 2 ^ 64 by decide)
  stamps := sampleReadingChain_stamps
  now _ := 7
  range _ := ⟨by decide, by decide⟩
  fetched := LedgerActivity.new.fetch 1000 sampleReadingChain
  answer := Or.inl rfl

theorem sampleMoment_refreshed : (sampleMoment.cache.refresh 500 sampleIso
    (sampleMoment.cache.fetch 1000 sampleReadingChain)).2 = .refreshed :=
  congrArg Prod.snd (sampleReadingChain_refresh (Nat.zero_le 2))

def sampleApi : Api :=
  ⟨fun _ => [], 300000000, fun s => s.1, id, fun _ => [], fun _ => [], asciiClasses, fun _ => none⟩

def cameraQuery : DeviceQuery :=
  { defaultQuery with deviceType := some (word "esp32-cam" (by decide)) }

end Ledger.Frontend

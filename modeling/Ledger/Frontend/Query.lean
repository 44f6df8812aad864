import Ledger.System.Dict
import Ledger.Text.FormUrlEncoded

/-! The filters and the sort of the page: in its state, in the address bar with its history, and in
the request to `GET /devices`. -/
namespace Ledger
open Text Text.FormUrlEncoded

def word (s : String) (h : Utf8.WellFormed (ascii s)) : Utf8String :=
  ⟨ascii s, h⟩

/-- The parameters of `GET /devices`, and of the page. -/
inductive Param
  | status
  | locationId
  | deviceType
  | sort
  | order
  deriving DecidableEq

def Param.name : Param → Utf8String
  | status => word "status" (by decide)
  | locationId => word "location_id" (by decide)
  | deviceType => word "device_type" (by decide)
  | sort => word "sort" (by decide)
  | order => word "order" (by decide)

namespace Backend

def statusValues : List Utf8String :=
  [word "active" (by decide), word "inactive" (by decide), word "all" (by decide)]

def sortKeys : List Utf8String :=
  [word "last_seen" (by decide), word "name" (by decide), word "location" (by decide)]

def orderValues : List Utf8String :=
  [word "asc" (by decide), word "desc" (by decide)]

/-- `HTTPException`. -/
structure HttpException where
  statusCode : ℕ
  detail : Bytes

def oneOf (repr : Utf8String → Bytes) (value : Utf8String) (allowed : List Utf8String)
    (param : String) : Except HttpException Utf8String :=
  if allowed.contains value then .ok value
  else .error ⟨400, ascii param ++ ascii " must be one of " ++
    (ascii ", ").intercalate (allowed.map Subtype.val) ++ ascii " (got " ++ repr value ++ ascii ")"⟩

/-- The query parameters of a request; of a name that is repeated the last value counts. -/
def queryParams (query : Utf8String) : Dict Utf8String Utf8String :=
  (FormUrlEncoded.parse query).foldl (fun params e => params.set e.1 e.2) []

/-- The parameters of `devices`. -/
structure DevicesParams where
  status : Utf8String
  locationId : Option Utf8String
  deviceType : Option Utf8String
  sort : Utf8String
  order : Utf8String

/-- What `devices` makes of a query before it looks anything up. -/
def devicesParams (repr : Utf8String → Bytes) (query : Utf8String) :
    Except HttpException DevicesParams := do
  let params := queryParams query
  let status := (params.get Param.status.name).getD (word "all" (by decide))
  let sort := (params.get Param.sort.name).getD (word "last_seen" (by decide))
  let order := (params.get Param.order.name).getD (word "desc" (by decide))
  let _ ← oneOf repr status statusValues "status"
  let _ ← oneOf repr sort sortKeys "sort"
  let _ ← oneOf repr order orderValues "order"
  return ⟨status, params.get Param.locationId.name, params.get Param.deviceType.name, sort, order⟩

end Backend

namespace URLSearchParams

/-- The constructor skips a question mark in front. -/
def ofString (init : Utf8String) : Entries :=
  FormUrlEncoded.parse (if init.1.head? = some 0x3F then init.1.tail else init.1)

def text (params : Entries) : Utf8String :=
  ⟨FormUrlEncoded.serialise params, wellFormed_serialise params⟩

def get (params : Entries) (name : Utf8String) : Option Utf8String :=
  (params.find? fun e => e.1 = name).map Prod.snd

/-- The first entry of a name gets the value, and the others go. -/
def set (params : Entries) (name value : Utf8String) : Entries :=
  match params with
  | [] => [(name, value)]
  | e :: params =>
    if e.1 = name then (name, value) :: params.filter fun e => e.1 ≠ name
    else e :: set params name value

end URLSearchParams

namespace Frontend
open Backend

inductive StatusFilter
  | all
  | active
  | inactive
  deriving DecidableEq

inductive SortKey
  | lastSeen
  | name
  | location
  deriving DecidableEq

inductive SortOrder
  | asc
  | desc
  deriving DecidableEq

def StatusFilter.text : StatusFilter → Utf8String
  | all => word "all" (by decide)
  | active => word "active" (by decide)
  | inactive => word "inactive" (by decide)

def SortKey.text : SortKey → Utf8String
  | lastSeen => word "last_seen" (by decide)
  | name => word "name" (by decide)
  | location => word "location" (by decide)

def SortOrder.text : SortOrder → Utf8String
  | asc => word "asc" (by decide)
  | desc => word "desc" (by decide)

structure DeviceFilters where
  status : StatusFilter
  locationId : Option Utf8String
  deviceType : Option Utf8String
  deriving DecidableEq

structure DeviceQuery extends DeviceFilters where
  sort : SortKey
  order : SortOrder
  deriving DecidableEq

def noFilters : DeviceFilters :=
  ⟨.all, none, none⟩

def defaultQuery : DeviceQuery :=
  ⟨noFilters, .lastSeen, .desc⟩

def isFiltered (filters : DeviceFilters) : Bool :=
  filters.status ≠ .all || filters.locationId.isSome || filters.deviceType.isSome

/-- `oneOf`, where `text` is what stands for a value. -/
def oneOf {α : Type} (text : α → Utf8String) (raw : Option Utf8String) (allowed : List α)
    (fallback : α) : α :=
  (allowed.find? fun a => raw = some (text a)).getD fallback

def toSearchParams (query : DeviceQuery) : Entries :=
  let params := []
  let params := if query.status ≠ defaultQuery.status then
    URLSearchParams.set params Param.status.name query.status.text else params
  let params := match query.locationId with
    | some locationId => URLSearchParams.set params Param.locationId.name locationId
    | none => params
  let params := match query.deviceType with
    | some deviceType => URLSearchParams.set params Param.deviceType.name deviceType
    | none => params
  let params := if query.sort ≠ defaultQuery.sort then
    URLSearchParams.set params Param.sort.name query.sort.text else params
  let params := if query.order ≠ defaultQuery.order then
    URLSearchParams.set params Param.order.name query.order.text else params
  params

def nonEmpty (value : Option Utf8String) : Option Utf8String :=
  value.filter fun v => v.1 ≠ []

def fromSearchParams (search : Utf8String) : DeviceQuery :=
  let params := URLSearchParams.ofString search
  { status := oneOf StatusFilter.text (URLSearchParams.get params Param.status.name)
      [.all, .active, .inactive] defaultQuery.status
    locationId := nonEmpty (URLSearchParams.get params Param.locationId.name)
    deviceType := nonEmpty (URLSearchParams.get params Param.deviceType.name)
    sort := oneOf SortKey.text (URLSearchParams.get params Param.sort.name)
      [.lastSeen, .name, .location] defaultQuery.sort
    order := oneOf SortOrder.text (URLSearchParams.get params Param.order.name)
      [.asc, .desc] defaultQuery.order }

def toggleSort (query : DeviceQuery) (key : SortKey) : DeviceQuery :=
  if query.sort = key then { query with order := if query.order = .asc then .desc else .asc }
  else { query with sort := key, order := if key = .lastSeen then .desc else .asc }

def toValue (selected : Utf8String) : Option Utf8String :=
  if selected.1 = [] then none else some selected

/-- `Partial<DeviceFilters>`. -/
structure FilterPatch where
  status : Option StatusFilter
  locationId : Option (Option Utf8String)
  deviceType : Option (Option Utf8String)

def DeviceQuery.patch (query : DeviceQuery) (patch : FilterPatch) : DeviceQuery :=
  { query with
    status := patch.status.getD query.status
    locationId := patch.locationId.getD query.locationId
    deviceType := patch.deviceType.getD query.deviceType }

/-- The query string of the request of `useDevices`; an empty one is left out of the URL. -/
def requestQuery (query : DeviceQuery) : Utf8String :=
  URLSearchParams.text (URLSearchParams.ofString (URLSearchParams.text (toSearchParams query)))

def question (s : Utf8String) : Utf8String :=
  ⟨0x3F :: s.1, (Utf8.WellFormed.cons_ascii (by decide) s.1).mpr s.2⟩

/-- The state of the page, `location.search`, and what that is in the entries of the history behind
and ahead of the present one. -/
structure Page where
  query : DeviceQuery
  address : Utf8String
  behind : List Utf8String
  ahead : List Utf8String

namespace Page

def start (search : Utf8String) : Page :=
  ⟨fromSearchParams search, search, [], []⟩

/-- `update`: `pushState` drops what is ahead, and a bare path has no search. -/
def update (p : Page) (next : DeviceQuery) : Page :=
  let search := URLSearchParams.text (toSearchParams next)
  ⟨next, if search.1 = [] then search else question search, p.address :: p.behind, []⟩

/-- `popstate` reads the address again. At the end of the history nothing happens. -/
def back (p : Page) : Page :=
  match p.behind with
  | [] => p
  | address :: behind => ⟨fromSearchParams address, address, behind, p.address :: p.ahead⟩

def forward (p : Page) : Page :=
  match p.ahead with
  | [] => p
  | address :: ahead => ⟨fromSearchParams address, address, p.address :: p.behind, ahead⟩

end Page

inductive PageAction
  | selectStatus (status : StatusFilter)
  | selectLocation (selected : Utf8String)
  | selectType (selected : Utf8String)
  | clear
  | header (key : SortKey)
  | back
  | forward

namespace Page

/-- The button that clears is there if something is filtered. -/
def step (p : Page) : PageAction → Page
  | .selectStatus status => p.update (p.query.patch ⟨some status, none, none⟩)
  | .selectLocation selected => p.update (p.query.patch ⟨none, some (toValue selected), none⟩)
  | .selectType selected => p.update (p.query.patch ⟨none, none, some (toValue selected)⟩)
  | .clear =>
    if isFiltered p.query.toDeviceFilters then
      p.update (p.query.patch ⟨some noFilters.status, some noFilters.locationId,
        some noFilters.deviceType⟩)
    else p
  | .header key => p.update (toggleSort p.query key)
  | .back => p.back
  | .forward => p.forward

def run (p : Page) (actions : List PageAction) : Page :=
  actions.foldl step p

end Page

def entry (param : Param) (value : Option Utf8String) : Entries :=
  value.toList.map fun v => (param.name, v)

theorem name_injective : Function.Injective Param.name := by
  intro p p'
  cases p <;> cases p' <;> decide

theorem get_append (xs ys : Entries) (name : Utf8String) :
    URLSearchParams.get (xs ++ ys) name =
      (URLSearchParams.get xs name).or (URLSearchParams.get ys name) := by
  rw [URLSearchParams.get, List.find?_append, Option.map_or]
  rfl

theorem get_entry (param param' : Param) (value : Option Utf8String) :
    URLSearchParams.get (entry param value) param'.name =
      if param = param' then value else none := by
  cases value with
  | none => simp [URLSearchParams.get, entry]
  | some v =>
    by_cases h : param = param'
    · simp [URLSearchParams.get, entry, h]
    · simp [URLSearchParams.get, entry, h, name_injective.eq_iff]

theorem set_of_get_none {params : Entries} {name : Utf8String}
    (h : URLSearchParams.get params name = none) (value : Utf8String) :
    URLSearchParams.set params name value = params ++ [(name, value)] := by
  induction params with
  | nil => rfl
  | cons e params ih =>
    rw [URLSearchParams.get, Option.map_eq_none_iff, List.find?_eq_none] at h
    obtain ⟨he, hrest⟩ := List.forall_mem_cons.mp h
    rw [URLSearchParams.set, if_neg (by simpa using he), ih]
    · rfl
    · rw [URLSearchParams.get, Option.map_eq_none_iff, List.find?_eq_none]
      exact hrest

def unlessDefault {α : Type} [DecidableEq α] (text : α → Utf8String) (v fallback : α) :
    Option Utf8String :=
  if v = fallback then none else some (text v)

def DeviceQuery.value (query : DeviceQuery) : Param → Option Utf8String
  | .status => unlessDefault StatusFilter.text query.status defaultQuery.status
  | .locationId => query.locationId
  | .deviceType => query.deviceType
  | .sort => unlessDefault SortKey.text query.sort defaultQuery.sort
  | .order => unlessDefault SortOrder.text query.order defaultQuery.order

theorem elim_set {params : Entries} {param : Param}
    (h : URLSearchParams.get params param.name = none) (value : Option Utf8String) :
    value.elim params (URLSearchParams.set params param.name) = params ++ entry param value := by
  cases value with
  | none => exact (List.append_nil params).symm
  | some v => exact set_of_get_none h v

theorem ite_set {α : Type} [DecidableEq α] (text : α → Utf8String) (v fallback : α)
    (params : Entries) (name : Utf8String) :
    (if v ≠ fallback then URLSearchParams.set params name (text v) else params) =
      (unlessDefault text v fallback).elim params (URLSearchParams.set params name) := by
  by_cases h : v = fallback
  · rw [unlessDefault, if_pos h, if_neg (not_not.mpr h)]
    rfl
  · rw [unlessDefault, if_neg h, if_pos h]
    rfl

theorem toSearchParams_eq (query : DeviceQuery) :
    toSearchParams query = entry .status (query.value .status) ++
      entry .locationId (query.value .locationId) ++ entry .deviceType (query.value .deviceType) ++
      entry .sort (query.value .sort) ++ entry .order (query.value .order) := by
  have hstatus : entry .status (query.value .status) =
      (query.value .status).elim [] (URLSearchParams.set [] Param.status.name) := by
    rw [elim_set rfl, List.nil_append]
  rw [← elim_set, ← elim_set, ← elim_set, ← elim_set, hstatus]
  · unfold toSearchParams
    simp only [ite_set]
    cases hlocation : query.locationId <;> cases htype : query.deviceType <;>
      simp only [DeviceQuery.value, hlocation, htype, Option.elim_none, Option.elim_some]
  all_goals simp [get_append, get_entry]

theorem get_toSearchParams (query : DeviceQuery) (param : Param) :
    URLSearchParams.get (toSearchParams query) param.name = query.value param := by
  rw [toSearchParams_eq]
  cases param <;> simp [get_append, get_entry]

/-- Filters are never empty strings. -/
structure DeviceQuery.Sound (query : DeviceQuery) : Prop where
  locationId : ∀ v, query.locationId = some v → v.1 ≠ []
  deviceType : ∀ v, query.deviceType = some v → v.1 ≠ []

theorem nonEmpty_ne {value : Option Utf8String} {v : Utf8String} (h : nonEmpty value = some v) :
    v.1 ≠ [] :=
  of_decide_eq_true (Option.filter_eq_some_iff.mp h).2

theorem toValue_ne {selected v : Utf8String} (h : toValue selected = some v) : v.1 ≠ [] := by
  unfold toValue at h
  split_ifs at h with hempty
  rw [← Option.some.inj h]
  exact hempty

theorem nonEmpty_of_ne {value : Option Utf8String} (h : ∀ v, value = some v → v.1 ≠ []) :
    nonEmpty value = value := by
  cases value with
  | none => rfl
  | some v => exact Option.filter_some_eq_some.mpr (decide_eq_true (h v rfl))

theorem oneOf_unlessDefault {α : Type} [DecidableEq α] {text : α → Utf8String}
    (hinj : Function.Injective text) {allowed : List α} {v fallback : α} (hv : v ∈ allowed) :
    oneOf text (unlessDefault text v fallback) allowed fallback = v := by
  by_cases h : v = fallback
  · have hnone : (allowed.find? fun a => (none : Option Utf8String) = some (text a)) = none := by
      simp
    rw [oneOf, unlessDefault, if_pos h, hnone, Option.getD_none, h]
  · have hsome : (allowed.find? fun a => some (text v) = some (text a)) = some v := by
      obtain ⟨a, ha⟩ := Option.isSome_iff_exists.mp
        (List.find?_isSome.mpr ⟨v, hv, decide_eq_true rfl⟩ :
          (allowed.find? fun a => some (text v) = some (text a)).isSome)
      have htext := List.find?_some ha
      rw [ha, hinj (Option.some.inj (of_decide_eq_true htext))]
    rw [oneOf, unlessDefault, if_neg h, hsome, Option.getD_some]

theorem ofString_text (params : Entries) :
    URLSearchParams.ofString (URLSearchParams.text params) = params := by
  have hhead : (FormUrlEncoded.serialise params).head? ≠ some 0x3F := fun h =>
    not_mem_serialise params (List.mem_of_head? h)
  rw [URLSearchParams.ofString, URLSearchParams.text, if_neg hhead, parse_serialise]

theorem ofString_question (params : Entries) :
    URLSearchParams.ofString (question (URLSearchParams.text params)) = params := by
  exact parse_serialise params

theorem sound_fromSearchParams (search : Utf8String) : (fromSearchParams search).Sound :=
  ⟨fun _ h => nonEmpty_ne h, fun _ h => nonEmpty_ne h⟩

/-- A sound query is read as it was written. -/
theorem fromSearchParams_of_ofString {query : DeviceQuery} (h : query.Sound) {search : Utf8String}
    (hsearch : URLSearchParams.ofString search = toSearchParams query) :
    fromSearchParams search = query := by
  have hstatus : Function.Injective StatusFilter.text := by
    intro a b
    cases a <;> cases b <;> decide
  have hsort : Function.Injective SortKey.text := by
    intro a b
    cases a <;> cases b <;> decide
  have horder : Function.Injective SortOrder.text := by
    intro a b
    cases a <;> cases b <;> decide
  unfold fromSearchParams
  simp only [hsearch, get_toSearchParams, DeviceQuery.value, nonEmpty_of_ne h.locationId,
    nonEmpty_of_ne h.deviceType]
  rw [oneOf_unlessDefault hstatus (by cases query.status <;> decide),
    oneOf_unlessDefault hsort (by cases query.sort <;> decide),
    oneOf_unlessDefault horder (by cases query.order <;> decide)]

theorem get_foldl_set (entries : Entries) (params : Dict Utf8String Utf8String)
    (name : Utf8String) : (entries.foldl (fun params e => params.set e.1 e.2) params).get name =
      (URLSearchParams.get entries.reverse name).or (params.get name) := by
  induction entries generalizing params with
  | nil => rfl
  | cons e entries ih =>
    rw [List.foldl_cons, ih, List.reverse_cons, get_append, Option.or_assoc]
    congr 1
    by_cases h : e.1 = name
    · rw [← h, Dict.get_set_self]
      simp [URLSearchParams.get]
    · rw [Dict.get_set_of_ne (Ne.symm h)]
      simp [URLSearchParams.get, h]

theorem reverse_entry (param : Param) (value : Option Utf8String) :
    (entry param value).reverse = entry param value := by
  cases value <;> rfl

theorem get_queryParams (query : DeviceQuery) (param : Param) :
    (queryParams (requestQuery query)).get param.name = query.value param := by
  rw [requestQuery, ofString_text, queryParams, get_foldl_set, URLSearchParams.text,
    parse_serialise, toSearchParams_eq]
  simp only [List.reverse_append, reverse_entry, get_append, get_entry]
  cases param <;> simp [Dict.get]

theorem oneOf_of_mem {repr : Utf8String → Bytes} {value : Utf8String} {allowed : List Utf8String}
    (h : value ∈ allowed) (param : String) :
    Backend.oneOf repr value allowed param = .ok value :=
  if_pos (List.contains_iff_mem.mpr h)

theorem getD_unlessDefault {α : Type} [DecidableEq α] (text : α → Utf8String) (v fallback : α) :
    (unlessDefault text v fallback).getD (text fallback) = text v := by
  by_cases h : v = fallback
  · rw [unlessDefault, if_pos h, h]
    rfl
  · rw [unlessDefault, if_neg h]
    rfl

/-- The parameters that stand for a query. -/
def DeviceQuery.params (query : DeviceQuery) : DevicesParams :=
  ⟨query.status.text, query.locationId, query.deviceType, query.sort.text, query.order.text⟩

/-- The backend takes a request for what the page means by it. -/
theorem devicesParams_requestQuery (repr : Utf8String → Bytes) (query : DeviceQuery) :
    devicesParams repr (requestQuery query) = .ok query.params := by
  have hstatus : query.status.text ∈ statusValues := by
    cases query.status <;> decide
  have hsort : query.sort.text ∈ sortKeys := by
    cases query.sort <;> decide
  have horder : query.order.text ∈ orderValues := by
    cases query.order <;> decide
  have hall : (query.value .status).getD (word "all" (by decide)) = query.status.text :=
    getD_unlessDefault StatusFilter.text query.status .all
  have hlastSeen : (query.value .sort).getD (word "last_seen" (by decide)) = query.sort.text :=
    getD_unlessDefault SortKey.text query.sort .lastSeen
  have hdesc : (query.value .order).getD (word "desc" (by decide)) = query.order.text :=
    getD_unlessDefault SortOrder.text query.order .desc
  unfold devicesParams
  simp only [get_queryParams, hall, hlastSeen, hdesc, oneOf_of_mem hstatus, oneOf_of_mem hsort,
    oneOf_of_mem horder]
  rfl

/-- The address, a link to the page and the request all say what the state of the page says. -/
structure Page.Agrees (repr : Utf8String → Bytes) (p : Page) : Prop where
  address : fromSearchParams p.address = p.query
  link : fromSearchParams (question (URLSearchParams.text (toSearchParams p.query))) = p.query
  request : devicesParams repr (requestQuery p.query) = .ok p.query.params

/-- What holds in a run: the state is what the address says. -/
structure Page.Sound (p : Page) : Prop where
  query : p.query.Sound
  address : fromSearchParams p.address = p.query

namespace Page

theorem sound_start (search : Utf8String) : (start search).Sound :=
  ⟨sound_fromSearchParams search, rfl⟩

theorem sound_update (p : Page) {next : DeviceQuery} (h : next.Sound) : (p.update next).Sound := by
  refine ⟨h, fromSearchParams_of_ofString h ?_⟩
  unfold update
  dsimp only
  split_ifs
  · exact ofString_text _
  · exact ofString_question _

theorem Sound.step {p : Page} (h : p.Sound) (action : PageAction) : (p.step action).Sound := by
  obtain ⟨hlocation, htype⟩ := h.query
  cases action with
  | selectStatus status => exact sound_update p ⟨hlocation, htype⟩
  | selectLocation selected => exact sound_update p ⟨fun v hv => toValue_ne hv, htype⟩
  | selectType selected => exact sound_update p ⟨hlocation, fun v hv => toValue_ne hv⟩
  | clear =>
    rw [Page.step]
    split_ifs
    · exact sound_update p ⟨fun _ hv => (Option.some_ne_none _ hv.symm).elim,
        fun _ hv => (Option.some_ne_none _ hv.symm).elim⟩
    · exact h
  | header key =>
    refine sound_update p ?_
    by_cases hkey : p.query.sort = key
    · rw [toggleSort, if_pos hkey]
      exact ⟨hlocation, htype⟩
    · rw [toggleSort, if_neg hkey]
      exact ⟨hlocation, htype⟩
  | back =>
    rw [Page.step, back]
    split
    · exact h
    · exact ⟨sound_fromSearchParams _, rfl⟩
  | forward =>
    rw [Page.step, forward]
    split
    · exact h
    · exact ⟨sound_fromSearchParams _, rfl⟩

theorem Sound.run {p : Page} (h : p.Sound) (actions : List PageAction) : (p.run actions).Sound := by
  induction actions generalizing p with
  | nil => exact h
  | cons action actions ih => exact ih (h.step action)

/-- URL, page state and request never disagree. -/
theorem agrees_run (repr : Utf8String → Bytes) (search : Utf8String) (actions : List PageAction) :
    ((start search).run actions).Agrees repr := by
  have h := (sound_start search).run actions
  constructor
  · exact h.address
  · exact fromSearchParams_of_ofString h.query (ofString_question _)
  · exact devicesParams_requestQuery repr _

end Page

end Frontend
end Ledger

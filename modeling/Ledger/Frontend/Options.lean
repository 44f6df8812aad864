import Ledger.Frontend.Requests

/-! The filters that the page offers: they come from a request of their own, and what is chosen from
them goes back to the backend. -/
namespace Ledger.Frontend
open Text Json Backend
variable {F : Type}

/-- One more byte of a UTF-8 text, the code points read so far being the last one first. -/
def pushByte (codes : List ℕ) (b : UInt8) : List ℕ :=
  if b < 0x80 then b.toNat :: codes
  else if b < 0xC0 then
    match codes with
    | [] => []
    | c :: codes => (c * 64 + b.toNat % 64) :: codes
  else if b < 0xE0 then b.toNat % 32 :: codes
  else if b < 0xF0 then b.toNat % 16 :: codes
  else b.toNat % 8 :: codes

/-- The units of a text as the client has it. -/
def codeUnits (s : Bytes) : List ℕ :=
  (s.foldl pushByte []).reverse.flatMap fun c =>
    if c < 0x10000 then [c]
    else [0xD800 + (c - 0x10000) / 0x400, 0xDC00 + (c - 0x10000) % 0x400]

def sortedTexts (texts : List Bytes) : List Bytes :=
  texts.dedup.insertionSort fun s t => codeUnits s ≤ codeUnits t

theorem mem_sortedTexts {texts : List Bytes} {t : Bytes} : t ∈ sortedTexts texts ↔ t ∈ texts := by
  rw [sortedTexts, List.mem_insertionSort, List.mem_dedup]

theorem nodup_sortedTexts (texts : List Bytes) : (sortedTexts texts).Nodup :=
  (List.perm_insertionSort _ _).nodup_iff.mpr (List.nodup_dedup texts)

theorem sortedTexts_ascending (texts : List Bytes) :
    (sortedTexts texts).Pairwise fun s t => codeUnits s ≤ codeUnits t :=
  insertionSort_sorted ⟨fun _ _ h => h.le, fun _ _ h => not_le.mpr h⟩ _

/-- A text beyond the first plane comes before one at the end of it. -/
example : sortedTexts [Utf8.encode 0xFF01, Utf8.encode 0x1F600] =
    [Utf8.encode 0x1F600, Utf8.encode 0xFF01] := by decide

structure FleetOptions where
  locationIds : List Bytes
  deviceTypes : List Bytes
  total : ℕ

def FleetOptions.new : FleetOptions :=
  ⟨[], [], 0⟩

/-- `optionsFrom`, with the total. -/
def optionsFrom (devices : List DeviceRecord) (total : ℕ) : FleetOptions where
  locationIds := sortedTexts (devices.filterMap DeviceRecord.locationId)
  deviceTypes := sortedTexts (devices.map DeviceRecord.deviceType)
  total := total

/-- The effect of `useFleetOptions`, which runs once. A failure is silent. -/
def useFleetOptions : Effect Unit DevicesResponse Bytes FleetOptions where
  idle := id
  request := id
  answer _ data _ := optionsFrom data.devices data.count
  failure _ _ := id

/-- The options are those of a fleet. -/
structure Offers (fleet : Fleet) (options : FleetOptions) : Prop where
  locationIds : ∀ t, t ∈ options.locationIds ↔ ∃ d ∈ fleet.rows, d.locationId = some t
  deviceTypes : ∀ t, t ∈ options.deviceTypes ↔ ∃ d ∈ fleet.rows, d.deviceType = t
  total : options.total = fleet.rows.length
  nodup : options.locationIds.Nodup ∧ options.deviceTypes.Nodup
  ascending : (options.locationIds.Pairwise fun s t => codeUnits s ≤ codeUnits t) ∧
    options.deviceTypes.Pairwise fun s t => codeUnits s ≤ codeUnits t

section Backend
variable [NumberFloat F] (historyLimit : ℕ) (fromisoformat : Bytes → Option DateTime) (api : Api)

/-- What the request without a query comes to. -/
def FleetServed : Unit → Except Bytes DevicesResponse → Prop :=
  fun _ => DevicesServed (F := F) historyLimit fromisoformat api defaultQuery

/-- `GET /devices` at some moment at which this is the fleet. -/
def AnswersFor (fleet : Fleet) (query : DeviceQuery) (response : DevicesResponse) : Prop :=
  ∃ m : Moment F historyLimit fromisoformat, m.fleet = fleet ∧ (devices historyLimit fromisoformat
    api.reprQuery api.activeWindow m.now m.fleet (requestQuery query) m.cache m.fetched).2 =
      .ok response

/-- The table has the rows that match, and no more of them than the total. -/
structure TableHas (fleet : Fleet) (total : ℕ) (response : DevicesResponse)
    (wanted : DeviceRow → Prop) : Prop where
  ids : ∀ deviceId, (∃ r ∈ response.devices, r.deviceId = deviceId) ↔
    ∃ d ∈ fleet.rows, d.deviceId = deviceId ∧ wanted d
  count : response.count ≤ total

variable {historyLimit fromisoformat api}

theorem AnswersFor.rows {fleet : Fleet} {query : DeviceQuery} {response : DevicesResponse}
    (h : AnswersFor (F := F) historyLimit fromisoformat api fleet query response)
    (hall : query.status = .all) :
    response.count = (fleet.rows.filter (selected query.params)).length ∧
    (∀ r ∈ response.devices, ∃ d ∈ fleet.rows, selected query.params d = true ∧ RecordOf d r) ∧
    ∀ d ∈ fleet.rows, selected query.params d = true → ∃ r ∈ response.devices, RecordOf d r := by
  obtain ⟨m, rfl, hm⟩ := h
  obtain ⟨-, p, hp, hresponse⟩ := devices_ok hm
  rw [devicesParams_requestQuery] at hp
  obtain rfl := Except.ok.inj hp
  exact devicesResponse_rows hresponse hall

theorem AnswersFor.table {fleet : Fleet} {query : DeviceQuery} {response : DevicesResponse}
    {wanted : DeviceRow → Prop}
    (h : AnswersFor (F := F) historyLimit fromisoformat api fleet query response)
    (hall : query.status = .all) (hwanted : ∀ d, selected query.params d = true ↔ wanted d) :
    TableHas fleet fleet.rows.length response wanted := by
  obtain ⟨hcount, hsound, hcomplete⟩ := h.rows hall
  refine ⟨fun deviceId => ⟨?_, ?_⟩, hcount.le.trans (List.length_filter_le _ _)⟩
  · rintro ⟨r, hr, rfl⟩
    obtain ⟨d, hd, hselected, hrow⟩ := hsound r hr
    exact ⟨d, hd, hrow.deviceId.symm, (hwanted d).mp hselected⟩
  · rintro ⟨d, hd, rfl, hd'⟩
    obtain ⟨r, hr, hrow⟩ := hcomplete d hd ((hwanted d).mpr hd')
    exact ⟨r, hr, hrow.deviceId⟩

theorem AnswersFor.offers {fleet : Fleet} {response : DevicesResponse}
    (h : AnswersFor (F := F) historyLimit fromisoformat api fleet defaultQuery response) :
    Offers fleet (optionsFrom response.devices response.count) := by
  obtain ⟨hcount, hsound, hcomplete⟩ := h.rows rfl
  have hselected (d : DeviceRow) : selected defaultQuery.params d = true := rfl
  refine ⟨fun t => ?_, fun t => ?_, ?_, ⟨nodup_sortedTexts _, nodup_sortedTexts _⟩,
    sortedTexts_ascending _, sortedTexts_ascending _⟩
  · rw [optionsFrom, mem_sortedTexts, List.mem_filterMap]
    constructor
    · rintro ⟨r, hr, ht⟩
      obtain ⟨d, hd, -, hrow⟩ := hsound r hr
      exact ⟨d, hd, hrow.locationId.symm.trans ht⟩
    · rintro ⟨d, hd, ht⟩
      obtain ⟨r, hr, hrow⟩ := hcomplete d hd (hselected d)
      exact ⟨r, hr, hrow.locationId.trans ht⟩
  · rw [optionsFrom, mem_sortedTexts, List.mem_map]
    constructor
    · rintro ⟨r, hr, ht⟩
      obtain ⟨d, hd, -, hrow⟩ := hsound r hr
      exact ⟨d, hd, hrow.deviceType.symm.trans ht⟩
    · rintro ⟨d, hd, ht⟩
      obtain ⟨r, hr, hrow⟩ := hcomplete d hd (hselected d)
      exact ⟨r, hr, hrow.deviceType.trans ht⟩
  · rw [optionsFrom, hcount, List.filter_eq_self.mpr fun d _ => hselected d]

theorem offers_of_run {keys : List (Option Unit)}
    {s : Component Unit DevicesResponse Bytes FleetOptions}
    (h : (component useFleetOptions (FleetServed (F := F) historyLimit fromisoformat api)
      .new).Run (.new .new) keys s) : s.state = .new ∨ ∃ fleet, Offers fleet s.state := by
  refine Component.invariant_of_run h
    (P := fun _ st => st = FleetOptions.new ∨ ∃ fleet, Offers fleet st)
    (Or.inl rfl) (fun _ _ _ h => h) (fun _ _ h => h) (fun _ _ h => h)
    (fun _ _ response _ _ hserved => Or.inr ?_) fun _ _ _ _ h => h
  obtain ⟨m, hm⟩ := hserved.of_ok
  exact ⟨m.fleet, AnswersFor.offers ⟨m, rfl, mapError_ok hm⟩⟩

theorem selected_selectLocation {p : Page} {l : Utf8String} {d : DeviceRow} :
    selected (p.step (.selectLocation l)).query.params d = true ↔
      (l.1 = [] ∨ d.locationId = some l.1) ∧ ∀ v ∈ p.query.deviceType, d.deviceType = v.1 := by
  rw [selected_iff]
  change (∀ v ∈ toValue l, d.locationId = some v.1) ∧ _ ↔ _
  refine and_congr_left fun _ => ?_
  unfold toValue
  split_ifs with hl <;> simp [hl]

theorem selected_selectType {p : Page} {t : Utf8String} {d : DeviceRow} :
    selected (p.step (.selectType t)).query.params d = true ↔
      (∀ v ∈ p.query.locationId, d.locationId = some v.1) ∧ (t.1 = [] ∨ d.deviceType = t.1) := by
  rw [selected_iff]
  change _ ∧ (∀ v ∈ toValue t, d.deviceType = v.1) ↔ _
  refine and_congr_right fun _ => ?_
  unfold toValue
  split_ifs with ht <;> simp [ht]

end Backend

theorem exists_answersFor (fleet : Fleet) (query : DeviceQuery) : ∃ response, AnswersFor
    (F := Numeral) 500 sampleIso sampleApi fleet query response := by
  obtain ⟨response, hresponse, -⟩ : ∃ response, (devices 500 sampleIso sampleApi.reprQuery
      sampleApi.activeWindow sampleMoment.now fleet (requestQuery query) sampleMoment.cache
      (sampleMoment.cache.fetch 1000 sampleReadingChain)).2 = .ok response ∧ _ :=
    devices_of_polled sampleMoment.polled sampleIso_readsZulu sampleMoment.stamps
      sampleMoment_refreshed sampleMoment.range sampleApi.reprQuery query
  exact ⟨response, { sampleMoment with fleet := fleet }, rfl, hresponse⟩

end Ledger.Frontend

import Ledger.Backend.Replacement
import Ledger.Backend.Sensors
import Ledger.Frontend.Query
import Mathlib.Data.List.DropRight

/-! `GET /readings`: the newest readings of a device or of one of its sensors, behind a time that
the client may give. -/
namespace Ledger.Backend
open Text Json
variable {F : Type}

/-- What `\s` and `\d` of `re` match. -/
structure CharClasses where
  space : Char → Bool
  digit : Char → Bool

/-- `\d{2}:?\d{2}`. -/
def isOffset (classes : CharClasses) : List Char → Bool
  | [a, b, c, d] => classes.digit a && classes.digit b && classes.digit c && classes.digit d
  | [a, b, ':', c, d] => classes.digit a && classes.digit b && classes.digit c && classes.digit d
  | _ => false

/-- `\d{2}:?\d{2}$`; `$` also matches before a line feed at the end. -/
def endsInOffset (classes : CharClasses) (text : List Char) : Bool :=
  isOffset classes text || (text.getLast? = some '\n' && isOffset classes text.dropLast)

/-- `re.sub(r"\s(\d{2}:?\d{2})$", r"+\1", raw)`. -/
def repaired (classes : CharClasses) : List Char → List Char
  | [] => []
  | c :: text =>
    if classes.space c && endsInOffset classes text then '+' :: text
    else c :: repaired classes text

def DateTime.instant (t : DateTime) : ℤ :=
  t.wall - t.utcoffset.getD 0

def parseSince (classes : CharClasses) (fromisoformat : List Char → Option DateTime)
    (repr : List Char → Bytes) : Option (List Char) → Except HttpException (Option ℤ)
  | none => .ok none
  | some raw =>
    match fromisoformat raw with
    | some t => .ok (some t.instant)
    | none =>
      match fromisoformat (repaired classes raw) with
      | some t => .ok (some t.instant)
      | none =>
        .error ⟨400, ascii "since must be an ISO 8601 timestamp (got " ++ repr raw ++ ascii ")"⟩

structure ReadingsResponse (F : Type) where
  deviceId : Bytes
  sensorId : Option Bytes
  series : List (Reading F)
  count : ℕ
  limit : ℤ
  historyLimit : ℕ
  truncated : Bool
  ledgerReachable : Bool

/-- How the handler fails: with an `HTTPException`, with what `refresh` raises, or on readings that
cannot be sorted. -/
inductive ReadingsError
  | http (e : HttpException)
  | raised (e : RefreshError)
  | typeError

/-- The query of the handler; `limit` is the history limit where it is not given. -/
structure ReadingsParams where
  deviceId : Bytes
  sensorId : Option Bytes
  since : Option (List Char)
  limit : ℤ

section Handler
variable [NumberFloat F] (exact : F → ℚ) (historyLimit : ℕ)
  (fromisoformat : Bytes → Option DateTime)

/-- `readings` behind its checks, with the answer that its `refresh` gets. -/
def servedSeries (p : ReadingsParams) (cutoff : Option ℤ) (a : LedgerActivity F)
    (fetched : Fetched F) : LedgerActivity F × Except ReadingsError (ReadingsResponse F) :=
  match a.refresh historyLimit fromisoformat fetched with
  | (a, .raised e) => (a, .error (.raised e))
  | (a, _) =>
    match a.readings exact p.deviceId p.sensorId cutoff p.limit with
    | none => (a, .error .typeError)
    | some series =>
      (a, .ok ⟨p.deviceId, p.sensorId, series, series.length, p.limit, historyLimit,
        p.limit ≤ series.length, a.reachable⟩)

/-- `readings`. `isoText` is `fromisoformat` on the text of the client, `reprId` and `repr` are
`repr`, and `str` that of a number. -/
def readings (classes : CharClasses) (isoText : List Char → Option DateTime)
    (reprId : Bytes → Bytes) (repr : List Char → Bytes) (str : ℤ → Bytes) (devices : List Bytes)
    (p : ReadingsParams) (a : LedgerActivity F) (fetched : Fetched F) :
    LedgerActivity F × Except ReadingsError (ReadingsResponse F) :=
  if devices.contains p.deviceId then
    if p.limit < 1 ∨ historyLimit < p.limit then
      (a, .error (.http ⟨400, ascii "limit must be between 1 and " ++ str historyLimit ++
        ascii " (got " ++ str p.limit ++ ascii ")"⟩))
    else
      match parseSince classes isoText repr p.since with
      | .error e => (a, .error (.http e))
      | .ok cutoff => servedSeries exact historyLimit fromisoformat p cutoff a fetched
  else (a, .error (.http ⟨404, ascii "no such device: " ++ reprId p.deviceId⟩))

end Handler

section Repair
variable {classes : CharClasses}

theorem isOffset_digit {text : List Char} (h : isOffset classes text = true) :
    ∀ c ∈ text, c = ':' ∨ classes.digit c = true := by
  unfold isOffset at h
  split at h
  · simp only [Bool.and_eq_true] at h
    simp [h]
  · simp only [Bool.and_eq_true] at h
    simp [h]
  · cases h

theorem digit_of_endsInOffset {text : List Char} (h : endsInOffset classes text = true) :
    ∀ c ∈ text, c = ':' ∨ c = '\n' ∨ classes.digit c = true := by
  rw [endsInOffset, Bool.or_eq_true, Bool.and_eq_true, decide_eq_true_iff] at h
  intro c hc
  rcases h with h | ⟨hlast, h⟩
  · exact (isOffset_digit h c hc).imp_right Or.inr
  · rw [← List.dropLast_append_getLast? '\n' hlast, List.mem_append, List.mem_singleton] at hc
    rcases hc with hc | hc
    · exact (isOffset_digit h c hc).imp_right Or.inr
    · exact Or.inr (Or.inl hc)

theorem repaired_offset {offset : List Char} (hoffset : isOffset classes offset = true)
    (hspace : classes.space ' ' = true) (hdigit : classes.digit ' ' = false) (text : List Char) :
    repaired classes (text ++ ' ' :: offset) = text ++ '+' :: offset := by
  induction text with
  | nil =>
    have hends : endsInOffset classes offset = true := by simp [endsInOffset, hoffset]
    simp [repaired, hspace, hends]
  | cons c text ih =>
    have hnot : endsInOffset classes (text ++ ' ' :: offset) = false := by
      by_contra hends
      rcases digit_of_endsInOffset (by simpa using hends) ' ' (by simp) with h | h | h
      · exact absurd h (by decide)
      · exact absurd h (by decide)
      · rw [hdigit] at h
        cases h
    rw [List.cons_append, repaired, hnot, Bool.and_false, if_neg Bool.false_ne_true, ih]
    rfl

/-- A `+` that came as a space is read as it was meant, unless what came is a time itself. -/
theorem parseSince_offset {fromisoformat : List Char → Option DateTime} {offset text : List Char}
    (repr : List Char → Bytes) (hoffset : isOffset classes offset = true)
    (hspace : classes.space ' ' = true) (hdigit : classes.digit ' ' = false)
    (hraw : fromisoformat (text ++ ' ' :: offset) = none) {t : DateTime}
    (ht : fromisoformat (text ++ '+' :: offset) = some t) :
    parseSince classes fromisoformat repr (some (text ++ ' ' :: offset)) =
      parseSince classes fromisoformat repr (some (text ++ '+' :: offset)) := by
  simp only [parseSince, hraw, ht, repaired_offset hoffset hspace hdigit]

end Repair

section Pages
variable {exact : F → ℚ}

/-- What the cache has of a device, or of one of its sensors. -/
def LedgerActivity.held (a : LedgerActivity F) (deviceId : Bytes) (sensorId : Option Bytes) :
    List (Reading F) :=
  (match sensorId with
    | some sensorId => [(deviceId, sensorId)]
    | none => (a.maps.history.map Prod.fst).filter fun k => k.1 = deviceId).flatMap fun key =>
      (a.maps.history.get key).getD []

def behind (cutoff : Option ℤ) (r : Reading F) : Bool :=
  cutoff.all (· < r.timestamp)

theorem sortReadings_behind {cutoff : Option ℤ} {rs : List (Reading F)}
    (h : (sortReadings exact (rs.filter (behind cutoff))).isSome) :
    sortReadings exact (rs.filter (behind cutoff)) =
      some ((rs.insertionSort fun r s => readingLess exact s r ≠ some true).filter
        (behind cutoff)) := by
  unfold sortReadings at h ⊢
  split_ifs at h ⊢ with hall
  · have hkey : FollowsKey sortKey fun r s : Reading F => readingLess exact s r ≠ some true :=
      followsKey_readingLess
    have hsort := insertionSort_filter hkey (fun k => cutoff.all (· < (ofLex k).1)) rs
    exact congrArg some hsort
  · cases h

theorem readings_eq_sortReadings (a : LedgerActivity F) (deviceId : Bytes)
    (sensorId : Option Bytes) (since : Option ℤ) {limit : ℤ} (hlimit : 1 ≤ limit) :
    a.readings exact deviceId sensorId since limit =
      (sortReadings exact ((a.held deviceId sensorId).filter (behind since))).map
        (List.rtake · limit.toNat) := by
  unfold LedgerActivity.readings
  dsimp only
  rw [← List.filter_flatMap]
  refine Option.map_congr fun sorted _ => ?_
  rw [if_pos (by omega)]
  rfl

theorem filter_behind_suffix (cutoff : Option ℤ) {rs : List (Reading F)}
    (h : rs.Pairwise fun r s => r.timestamp ≤ s.timestamp) : rs.filter (behind cutoff) <:+ rs := by
  induction rs with
  | nil => exact List.suffix_refl _
  | cons r rs ih =>
    obtain ⟨hr, hrs⟩ := List.pairwise_cons.mp h
    by_cases hb : behind cutoff r = true
    · have hall : (r :: rs).filter (behind cutoff) = r :: rs := by
        rw [List.filter_eq_self]
        intro s hs
        rcases List.mem_cons.mp hs with rfl | hs
        · exact hb
        · have hle := hr s hs
          cases cutoff with
          | none => rfl
          | some t =>
            have hlt : t < r.timestamp := of_decide_eq_true hb
            exact decide_eq_true (hlt.trans_le hle)
      rw [hall]
    · rw [List.filter_cons_of_neg hb]
      exact (ih hrs).trans (List.suffix_cons r rs)

end Pages

section Answer
variable [NumberFloat F] (exact : F → ℚ) (historyLimit : ℕ)
  (fromisoformat : Bytes → Option DateTime)

def ReadingsParams.Wants (p : ReadingsParams) (sensorId : Bytes) : Prop :=
  ∀ wanted ∈ p.sensorId, sensorId = wanted

/-- A cache that has consumed the blocks keeps the reading, and it is asked for. -/
def ReadingsParams.Kept (p : ReadingsParams) (blocks : List (Block F)) (r : Reading F) : Prop :=
  p.Wants r.sensorId ∧
    r ∈ keptReadings historyLimit fromisoformat (p.deviceId, r.sensorId) blocks

/-- All that is kept of what is asked for, each reading as often as it is kept, in order of time and
then of the sensors. -/
structure WholeSeries (p : ReadingsParams) (blocks : List (Block F)) (all : List (Reading F)) :
    Prop where
  kept : ∀ sensorId, p.Wants sensorId → (all.filter (·.sensorId = sensorId)).Perm
    (keptReadings historyLimit fromisoformat (p.deviceId, sensorId) blocks)
  wanted : ∀ r ∈ all, p.Wants r.sensorId
  order : all.Pairwise fun r s => sortKey r ≤ sortKey s

/-- The page: the newest of the series that are behind the time. It can only say that it is not
truncated if nothing behind the time is left out. -/
structure ServesPage (p : ReadingsParams) (cutoff : Option ℤ) (all : List (Reading F))
    (response : ReadingsResponse F) : Prop where
  series : response.series = (all.filter (behind cutoff)).rtake p.limit.toNat
  suffix : response.series <:+ all
  count : response.count = response.series.length
  truncated : response.truncated = true ↔ (response.series.length : ℤ) = p.limit
  complete : response.truncated = false → response.series = all.filter (behind cutoff)

/-- Python can sort what is behind the time. -/
def Sortable (p : ReadingsParams) (cutoff : Option ℤ) (blocks : List (Block F)) : Prop :=
  ∀ r s, p.Kept historyLimit fromisoformat blocks r → p.Kept historyLimit fromisoformat blocks s →
    behind cutoff r = true → behind cutoff s = true → r.timestamp = s.timestamp →
    r.sensorId = s.sensorId → SeqComparable exact r s

variable {exact historyLimit fromisoformat} {depth : ℕ}

section Held
variable {p : ReadingsParams} {a : LedgerActivity F} {blocks : List (Block F)}

theorem get_history (hmaps : a.maps = consumed historyLimit fromisoformat blocks) (key : Key) :
    (a.maps.history.get key).getD [] = keptReadings historyLimit fromisoformat key blocks := by
  rw [hmaps, ← consumed_history]
  rfl

theorem held_filter (hmaps : a.maps = consumed historyLimit fromisoformat blocks)
    {sensorId : Bytes} (hwants : p.Wants sensorId) :
    (a.held p.deviceId p.sensorId).filter (·.sensorId = sensorId) =
      keptReadings historyLimit fromisoformat (p.deviceId, sensorId) blocks := by
  have hself : (keptReadings historyLimit fromisoformat (p.deviceId, sensorId) blocks).filter
      (·.sensorId = sensorId) =
      keptReadings historyLimit fromisoformat (p.deviceId, sensorId) blocks := by
    rw [List.filter_eq_self]
    exact fun r hr => decide_eq_true (sensorId_of_mem_keptReadings hr)
  unfold LedgerActivity.held
  cases hsensor : p.sensorId with
  | some wanted =>
    obtain rfl : sensorId = wanted := hwants wanted hsensor
    dsimp only
    rw [List.flatMap_singleton, get_history hmaps, hself]
  | none =>
    have htidy : a.maps.Tidy := by
      rw [hmaps]
      exact Maps.Tidy.foldl .new blocks
    simp only [get_history hmaps]
    rw [filter_flatMap_of_nodup (htidy.keys.filter _) (k := (p.deviceId, sensorId)), hself]
    · intro key hkey hne
      rw [List.filter_eq_nil_iff]
      intro r hr hid
      apply hne
      have hdevice : key.1 = p.deviceId := by simpa using (List.mem_filter.mp hkey).2
      have hsensor : key.2 = sensorId :=
        (sensorId_of_mem_keptReadings hr).symm.trans (of_decide_eq_true hid)
      rw [← hdevice, ← hsensor]
    · intro habsent
      have hnone : ¬(a.maps.history.get (p.deviceId, sensorId)).isSome = true := by
        rw [← Dict.mem_keys_iff]
        exact fun hmem => habsent (List.mem_filter.mpr ⟨hmem, by simp⟩)
      rw [Bool.not_eq_true, Option.isSome_eq_false_iff, Option.isNone_iff_eq_none] at hnone
      rw [← get_history hmaps, hnone]
      rfl

theorem mem_held_iff (hmaps : a.maps = consumed historyLimit fromisoformat blocks)
    {r : Reading F} : r ∈ a.held p.deviceId p.sensorId ↔
      p.Kept historyLimit fromisoformat blocks r := by
  constructor
  · intro hr
    have hwants : p.Wants r.sensorId := by
      intro wanted hwanted
      rw [Option.mem_def.mp hwanted] at hr
      unfold LedgerActivity.held at hr
      dsimp only at hr
      rw [List.flatMap_singleton, get_history hmaps] at hr
      exact sensorId_of_mem_keptReadings hr
    refine ⟨hwants, ?_⟩
    rw [← held_filter hmaps hwants]
    exact List.mem_filter.mpr ⟨hr, decide_eq_true rfl⟩
  · rintro ⟨hwants, hr⟩
    rw [← held_filter hmaps hwants] at hr
    exact List.mem_of_mem_filter hr

theorem wholeSeries_held (exact : F → ℚ)
    (hmaps : a.maps = consumed historyLimit fromisoformat blocks) :
    WholeSeries historyLimit fromisoformat p blocks
      ((a.held p.deviceId p.sensorId).insertionSort fun r s => readingLess exact s r ≠ some true)
    where
  kept sensorId hwants := by
    rw [← held_filter hmaps hwants]
    exact (List.perm_insertionSort _ _).filter _
  wanted r hr :=
    ((mem_held_iff hmaps).mp ((List.perm_insertionSort _ _).mem_iff.mp hr)).1
  order := insertionSort_sorted followsKey_readingLess _

theorem sortable_iff (hmaps : a.maps = consumed historyLimit fromisoformat blocks)
    (cutoff : Option ℤ) : Sortable exact historyLimit fromisoformat p cutoff blocks ↔
      (sortReadings exact
        ((a.held p.deviceId p.sensorId).filter (behind cutoff))).isSome := by
  rw [sortReadings_isSome_iff, Sortable]
  simp only [List.mem_filter, mem_held_iff hmaps]
  constructor
  · intro h r hr s hs
    exact h r s hr.1 hs.1 hr.2 hs.2
  · intro h r s hr hs hbr hbs
    exact h r ⟨hr, hbr⟩ s ⟨hs, hbs⟩

end Held

variable {classes : CharClasses} {isoText : List Char → Option DateTime}
  {repr : List Char → Bytes} {devices : List Bytes} {p : ReadingsParams} {cutoff : Option ℤ}
  {a : LedgerActivity F}

theorem servedSeries_eq {fetched : Fetched F} {refreshed : LedgerActivity F} {outcome : Outcome}
    (hrefresh : a.refresh historyLimit fromisoformat fetched = (refreshed, outcome))
    (houtcome : ∀ e, outcome ≠ .raised e) :
    servedSeries exact historyLimit fromisoformat p cutoff a fetched =
      (refreshed, match refreshed.readings exact p.deviceId p.sensorId cutoff p.limit with
        | none => .error .typeError
        | some series => .ok ⟨p.deviceId, p.sensorId, series, series.length, p.limit, historyLimit,
          p.limit ≤ series.length, refreshed.reachable⟩) := by
  rw [servedSeries, hrefresh]
  cases outcome with
  | raised e => exact absurd rfl (houtcome e)
  | _ =>
    dsimp only
    cases refreshed.readings exact p.deviceId p.sensorId cutoff p.limit <;> rfl

theorem servedSeries_page {blocks : List (Block F)} {fetched : Fetched F}
    {refreshed : LedgerActivity F} {outcome : Outcome}
    (hrefresh : a.refresh historyLimit fromisoformat fetched = (refreshed, outcome))
    (houtcome : ∀ e, outcome ≠ .raised e)
    (hmaps : refreshed.maps = consumed historyLimit fromisoformat blocks) (hlimit : 1 ≤ p.limit)
    (hsortable : Sortable exact historyLimit fromisoformat p cutoff blocks) :
    ∃ response all, servedSeries exact historyLimit fromisoformat p cutoff a fetched =
        (refreshed, .ok response) ∧ response.ledgerReachable = refreshed.reachable ∧
      WholeSeries historyLimit fromisoformat p blocks all ∧ ServesPage p cutoff all response := by
  let all := (refreshed.held p.deviceId p.sensorId).insertionSort fun r s =>
    readingLess exact s r ≠ some true
  have hwhole : WholeSeries historyLimit fromisoformat p blocks all := wholeSeries_held exact hmaps
  have hpage : refreshed.readings exact p.deviceId p.sensorId cutoff p.limit =
      some ((all.filter (behind cutoff)).rtake p.limit.toNat) := by
    rw [readings_eq_sortReadings refreshed _ _ _ hlimit,
      sortReadings_behind ((sortable_iff hmaps cutoff).mp hsortable)]
    rfl
  have hlength : ((all.filter (behind cutoff)).rtake p.limit.toNat).length =
      min p.limit.toNat (all.filter (behind cutoff)).length := length_rtake ..
  refine ⟨_, all, by rw [servedSeries_eq hrefresh houtcome, hpage], rfl, hwhole, ?_⟩
  constructor
  · rfl
  · have htimes : all.Pairwise fun r s => r.timestamp ≤ s.timestamp :=
      hwhole.order.imp fun hle => (Prod.Lex.toLex_le_toLex'.mp hle).1
    exact (List.drop_suffix _ _).trans (filter_behind_suffix cutoff htimes)
  · rfl
  · dsimp only
    rw [decide_eq_true_iff]
    omega
  · intro htruncated
    have hlt := of_decide_eq_false htruncated
    dsimp only
    rw [List.rtake, Nat.sub_eq_zero_of_le, List.drop_zero]
    omega

theorem servedSeries_typeError {blocks : List (Block F)} {fetched : Fetched F}
    {refreshed : LedgerActivity F} {outcome : Outcome}
    (hrefresh : a.refresh historyLimit fromisoformat fetched = (refreshed, outcome))
    (houtcome : ∀ e, outcome ≠ .raised e)
    (hmaps : refreshed.maps = consumed historyLimit fromisoformat blocks) (hlimit : 1 ≤ p.limit)
    (hsortable : ¬Sortable exact historyLimit fromisoformat p cutoff blocks) :
    servedSeries exact historyLimit fromisoformat p cutoff a fetched =
      (refreshed, .error .typeError) := by
  have hnone : refreshed.readings exact p.deviceId p.sensorId cutoff p.limit = none := by
    rw [sortable_iff hmaps, Bool.not_eq_true, Option.isSome_eq_false_iff,
      Option.isNone_iff_eq_none] at hsortable
    rw [readings_eq_sortReadings refreshed _ _ _ hlimit, hsortable]
    rfl
  rw [servedSeries_eq hrefresh houtcome, hnone]

theorem servedSeries_ok {fetched : Fetched F} {response : ReadingsResponse F}
    (h : (servedSeries exact historyLimit fromisoformat p cutoff a fetched).2 = .ok response) :
    ∀ e, (a.refresh historyLimit fromisoformat fetched).2 ≠ .raised e := by
  intro e hraised
  unfold servedSeries at h
  rcases hc : a.refresh historyLimit fromisoformat fetched with ⟨refreshed, outcome⟩
  rw [hc] at h hraised
  obtain rfl : outcome = .raised e := hraised
  cases h

theorem readings_ok {reprId : Bytes → Bytes} {str : ℤ → Bytes} {fetched : Fetched F}
    {response : ReadingsResponse F} (h : (readings exact historyLimit fromisoformat classes isoText
      reprId repr str devices p a fetched).2 = .ok response) :
    p.deviceId ∈ devices ∧ (1 ≤ p.limit ∧ p.limit ≤ historyLimit) ∧
      ∃ cutoff, parseSince classes isoText repr p.since = .ok cutoff ∧
        (servedSeries exact historyLimit fromisoformat p cutoff a fetched).2 = .ok response := by
  unfold readings at h
  split_ifs at h with hdevice hlimit
  cases hsince : parseSince classes isoText repr p.since with
  | error e =>
    rw [hsince] at h
    cases h
  | ok cutoff =>
    rw [hsince] at h
    exact ⟨List.contains_iff_mem.mp hdevice, by omega, cutoff, rfl, h⟩

end Answer

/-- `\s` and `\d` on ASCII. -/
def asciiClasses : CharClasses :=
  ⟨Char.isWhitespace, Char.isDigit⟩

def sampleParams : ReadingsParams :=
  ⟨ascii "node-1", none, none, 1⟩

end Ledger.Backend

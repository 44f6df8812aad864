import Ledger.Backend.Views

/-! The queries on a ledger that was consumed: which of them can raise, and on what. -/
namespace Ledger.Backend
open Text Json
variable {F : Type}

/-- `timedelta`, in microseconds, or `none` for an `OverflowError`. -/
def timedelta (elapsed : ℤ) : Option ℤ :=
  if -86399999913600000000 ≤ elapsed ∧ elapsed ≤ 86399999999999999999 then some elapsed else none

inductive DeviceStatus
  | active
  | inactive
  deriving DecidableEq

namespace LedgerActivity
variable (a : LedgerActivity F)

def knownActors : List Bytes :=
  a.maps.lastSeen.map Prod.fst

def sensorsSeen (deviceId : Bytes) : List Bytes :=
  (a.maps.latest.filter fun entry => entry.1.1 = deviceId).map fun entry => entry.1.2

/-- `status`, with `timedelta(seconds=ACTIVE_WINDOW_SECONDS)` for the window. -/
def status (activeWindow : ℤ) (deviceId : Bytes) (now : ℤ) : Option DeviceStatus :=
  match a.lastSeen deviceId with
  | none => some .inactive
  | some seen => (timedelta (now - seen)).map fun elapsed =>
    if elapsed ≤ activeWindow then .active else .inactive

end LedgerActivity

theorem timedelta_isSome {now seen : ℤ} (hnow : 0 ≤ now ∧ now < endOfTime)
    (hseen : 0 ≤ seen ∧ seen < endOfTime) : (timedelta (now - seen)).isSome := by
  unfold endOfTime at hnow hseen
  rw [timedelta, if_pos (by omega)]
  rfl

section Sorting
variable (exact : F → ℚ)

/-- Python can order the two values of `seq`, or finds them equal. -/
def SeqComparable (r s : Reading F) : Prop :=
  equal exact (seqKey exact r) (seqKey exact s) = true ∨
    (less exact (seqKey exact r) (seqKey exact s)).isSome

variable {exact}

theorem seqComparable_of_number {r s : Reading F} (hr : ∃ i, r.seq = .number i)
    (hs : ∃ i, s.seq = .number i) : SeqComparable exact r s := by
  have hkey {r : Reading F} (h : ∃ i, r.seq = .number i) :
      ∃ i, seqKey exact r = .number i := by
    obtain ⟨i, hi⟩ := h
    unfold seqKey
    split_ifs
    · exact ⟨i, hi⟩
    · exact ⟨_, rfl⟩
  obtain ⟨i, hi⟩ := hkey hr
  obtain ⟨j, hj⟩ := hkey hs
  right
  rw [hi, hj]
  rfl

theorem readingLess_isSome_iff {r s : Reading F} : (readingLess exact r s).isSome ↔
    (r.timestamp = s.timestamp → r.sensorId = s.sensorId → SeqComparable exact r s) := by
  unfold readingLess SeqComparable
  by_cases ht : r.timestamp = s.timestamp
  · by_cases hid : r.sensorId = s.sensorId
    · simp only [ht, hid, ne_eq, not_true_eq_false, if_false, forall_const]
      split_ifs with he
      · simp [he]
      · simp [he]
    · simp [ht, hid]
  · simp [ht]

theorem sortReadings_isSome_iff {rs : List (Reading F)} : (sortReadings exact rs).isSome ↔
    ∀ r ∈ rs, ∀ s ∈ rs, r.timestamp = s.timestamp → r.sensorId = s.sensorId →
      SeqComparable exact r s := by
  have hall : ((rs.all fun r => rs.all fun s => (readingLess exact r s).isSome) = true) ↔
      ∀ r ∈ rs, ∀ s ∈ rs, r.timestamp = s.timestamp → r.sensorId = s.sensorId →
        SeqComparable exact r s := by
    simp only [List.all_eq_true, readingLess_isSome_iff]
  rw [← hall, sortReadings]
  split_ifs with h
  · simp [h]
  · simp [h]

/-- Sensors are told apart by their names, so only readings of one sensor can clash. -/
theorem readings_isSome_iff {a : LedgerActivity F}
    (htidy : ∀ key, ∀ r ∈ (a.maps.shelf key).history, r.sensorId = key.2) :
    (∀ deviceId sensorId since limit, (a.readings exact deviceId sensorId since limit).isSome) ↔
      ∀ key, ∀ r ∈ (a.maps.shelf key).history, ∀ s ∈ (a.maps.shelf key).history,
        r.timestamp = s.timestamp → SeqComparable exact r s := by
  constructor
  · intro h key r hr s hs ht
    have hsorted := h key.1 (some key.2) none 1
    unfold LedgerActivity.readings at hsorted
    rw [Option.isSome_map, sortReadings_isSome_iff] at hsorted
    have hid : r.sensorId = s.sensorId := by rw [htidy key r hr, htidy key s hs]
    apply hsorted r _ s _ ht hid
    · simpa [Maps.shelf] using hr
    · simpa [Maps.shelf] using hs
  · intro h deviceId sensorId since limit
    unfold LedgerActivity.readings
    rw [Option.isSome_map, sortReadings_isSome_iff]
    have hshelf {keys : List Key} (hkeys : ∀ key ∈ keys, key.1 = deviceId) :
        ∀ r ∈ keys.flatMap fun key => ((a.maps.history.get key).getD []).filter fun r =>
          since.all (· < r.timestamp), r ∈ (a.maps.shelf (deviceId, r.sensorId)).history := by
      intro r hr
      obtain ⟨key, hkey, hr⟩ := List.mem_flatMap.mp hr
      have hr' : r ∈ (a.maps.shelf key).history := List.mem_of_mem_filter hr
      have hself : key = (deviceId, r.sensorId) := Prod.ext (hkeys key hkey) (htidy key r hr').symm
      rwa [← hself]
    have hcomparable {rs : List (Reading F)}
        (hrs : ∀ r ∈ rs, r ∈ (a.maps.shelf (deviceId, r.sensorId)).history) :
        ∀ r ∈ rs, ∀ s ∈ rs, r.timestamp = s.timestamp → r.sensorId = s.sensorId →
          SeqComparable exact r s := by
      intro r hr s hs ht hid
      have hr' := hrs r hr
      rw [hid] at hr'
      exact h _ r hr' s (hrs s hs) ht
    apply hcomparable
    apply hshelf
    cases sensorId with
    | some sensorId => simp
    | none =>
      intro key hkey
      simpa using (List.mem_filter.mp hkey).2

end Sorting

/-- `fromisoformat` reads the timestamps of the storage core as UTC, or refuses them. -/
structure ReadsZulu (fromisoformat : Bytes → Option DateTime) : Prop where
  utc : ∀ tm t, fromisoformat (nowRfc3339 tm) = some t →
    t.utcoffset = some 0 ∧ 0 ≤ t.wall ∧ t.wall < endOfTime

theorem ReadsZulu.parseTimestamp {fromisoformat : Bytes → Option DateTime}
    (h : ReadsZulu fromisoformat) (tm : Tm) :
    ∃ t, Backend.parseTimestamp fromisoformat (nowRfc3339 tm) = .ok t ∧
      ∀ s ∈ t, 0 ≤ s ∧ s < endOfTime := by
  cases ht : fromisoformat (nowRfc3339 tm) with
  | none =>
    refine ⟨none, ?_, by simp⟩
    rw [Backend.parseTimestamp, ht]
  | some t =>
    obtain ⟨hoffset, hrange⟩ := h.utc tm t ht
    obtain ⟨wall, utcoffset⟩ := t
    obtain rfl : utcoffset = some 0 := hoffset
    refine ⟨some wall, ?_, by simpa using hrange⟩
    rw [Backend.parseTimestamp, ht]
    simp only [sub_zero]
    exact if_pos hrange

variable [NumberFloat F]

section Stamped
variable {depth historyLimit : ℕ} {fromisoformat : Bytes → Option DateTime}

theorem ReadsZulu.not_overflows (h : ReadsZulu fromisoformat) {b : Block F} {tm : Tm}
    (hb : b.timestamp = nowRfc3339 tm) : ¬Overflows fromisoformat b := by
  rintro ⟨-, e, he⟩
  obtain ⟨t, ht, -⟩ := h.parseTimestamp tm
  rw [hb, ht] at he
  cases he

theorem ReadsZulu.readable (h : ReadsZulu fromisoformat) {b : Block F} {tm : Tm}
    (hb : b.timestamp = nowRfc3339 tm) (hshallow : ¬Deep depth b) :
    ¬Unreadable depth fromisoformat b :=
  fun hbad => h.not_overflows hb (hbad.resolve_left hshallow)

theorem ReadsZulu.readable_of_stamps (h : ReadsZulu fromisoformat) {blocks : List (Block F)}
    (hstamps : ∀ b ∈ blocks, ∃ tm, b.timestamp = nowRfc3339 tm)
    (hshallow : ∀ b ∈ blocks, ¬Deep depth b) : ∀ b ∈ blocks, ¬Unreadable depth fromisoformat b := by
  intro b hb
  obtain ⟨tm, htm⟩ := hstamps b hb
  exact h.readable htm (hshallow b hb)

theorem ReadsZulu.sighting_range (h : ReadsZulu fromisoformat) {b : Block F} {tm : Tm}
    (hb : b.timestamp = nowRfc3339 tm) {t : ℤ} (ht : sighting fromisoformat b = some t) :
    0 ≤ t ∧ t < endOfTime := by
  obtain ⟨s, hs, hrange⟩ := h.parseTimestamp tm
  unfold sighting at ht
  rw [hb, hs] at ht
  split_ifs at ht
  exact hrange t ht

theorem foldl_laterOf_mem {times : List ℤ} {previous : Option ℤ} {t : ℤ}
    (h : times.foldl laterOf previous = some t) : previous = some t ∨ t ∈ times := by
  induction times generalizing previous with
  | nil => exact Or.inl h
  | cons s times ih =>
    rcases ih h with hlater | hmem
    · unfold laterOf at hlater
      split_ifs at hlater
      · exact Or.inr (by simp [Option.some.inj hlater])
      · exact Or.inl hlater
    · exact Or.inr (List.mem_cons_of_mem s hmem)

theorem ReadsZulu.lastSeen_range (h : ReadsZulu fromisoformat) {blocks : List (Block F)}
    (hstamps : ∀ b ∈ blocks, ∃ tm, b.timestamp = nowRfc3339 tm) {deviceId : Bytes} {t : ℤ}
    (ht : (consumed historyLimit fromisoformat blocks).lastSeen.get deviceId = some t) :
    0 ≤ t ∧ t < endOfTime := by
  rw [consumed, foldl_step_lastSeen] at ht
  have hmem := (foldl_laterOf_mem ht).resolve_left (by simp [LedgerActivity.new, Dict.get])
  obtain ⟨b, hb, hsight⟩ := List.mem_filterMap.mp hmem
  unfold sightingOf at hsight
  split_ifs at hsight
  obtain ⟨tm, htm⟩ := hstamps b hb
  exact h.sighting_range htm hsight

/-- The cache after the poll that brings the chain. -/
def readChain (depth historyLimit : ℕ) (fromisoformat : Bytes → Option DateTime)
    (chain : Chain F) : LedgerActivity F × Outcome :=
  LedgerActivity.new.refresh historyLimit fromisoformat
    (decodePayload depth ⟨chain.blocks, chain.size⟩)

/-- Nothing raises: not the poll that consumes the chain, nor the two queries that do more than
look something up. -/
structure ReadersAnswer (exact : F → ℚ) (depth historyLimit : ℕ)
    (fromisoformat : Bytes → Option DateTime) (chain : Chain F) : Prop where
  consumed : (readChain depth historyLimit fromisoformat chain).2 = .refreshed
  readings : ∀ deviceId sensorId since limit,
    ((readChain depth historyLimit fromisoformat chain).1.readings exact deviceId sensorId since
      limit).isSome
  status : ∀ activeWindow deviceId now, 0 ≤ now ∧ now < endOfTime →
    ((readChain depth historyLimit fromisoformat chain).1.status activeWindow deviceId now).isSome

theorem readChain_eq (h : ReadsZulu fromisoformat) {chain : Chain F}
    (hstamps : ∀ b ∈ chain.blocks, ∃ tm, b.timestamp = nowRfc3339 tm)
    (hshallow : ∀ b ∈ chain.blocks, ¬Deep depth b) :
    readChain depth historyLimit fromisoformat chain =
      (⟨Backend.consumed historyLimit fromisoformat chain.blocks, chain.size, true⟩,
        .refreshed) := by
  have hclean : ∀ b ∈ chain.blocks, ¬Overflows fromisoformat b := by
    intro b hb
    obtain ⟨tm, htm⟩ := hstamps b hb
    exact h.not_overflows htm
  rw [readChain, decodePayload_page chain.ne_nil hshallow, LedgerActivity.refresh,
    consumeBlocks_ok hclean]

theorem not_deep_of_readChain {chain : Chain F}
    (h : (readChain depth historyLimit fromisoformat chain).2 = .refreshed) :
    ∀ b ∈ chain.blocks, ¬Deep depth b := by
  intro b hb hdeep
  rw [readChain, decodePayload_deep ⟨b, hb, hdeep⟩] at h
  cases h

end Stamped

theorem sampleIso_readsZulu : ReadsZulu sampleIso where
  utc tm t h := by
    unfold sampleIso at h
    split_ifs at h
    rw [← Option.some.inj h]
    exact ⟨rfl, by decide, by decide⟩

theorem sampleReadingChain_stamps :
    ∀ b ∈ sampleReadingChain.blocks, ∃ tm, b.timestamp = nowRfc3339 tm := by
  intro b hb
  rcases List.mem_append.mp hb with hb | hb
  · exact ⟨sampleClock, by rw [List.mem_singleton.mp hb]; rfl⟩
  · exact ⟨sampleClock, by rw [List.mem_singleton.mp hb]; rfl⟩

theorem seqMetadata_valid {seq : Json Numeral} (h : seq.Valid) :
    (Json.object [(ascii "sensor_id", .string (ascii "t1")), (ascii "seq", seq)]).Valid := by
  have hsorted : keyOrder (ascii "sensor_id") < keyOrder (ascii "seq") := by decide
  rw [Valid, ValidMembers, ValidMembers, ValidMembers, Valid]
  exact ⟨List.pairwise_pair.mpr hsorted, ⟨by decide, by decide⟩, ⟨by decide, h⟩, trivial⟩

def seqEvent (seq : Json Numeral) (h : seq.Valid) : EventPayload Numeral :=
  { sampleReadingEvent with
    metadata := ⟨.object [(ascii "sensor_id", .string (ascii "t1")), (ascii "seq", seq)],
      seqMetadata_valid h⟩ }

theorem seqText_valid : (Json.string (ascii "a") : Json Numeral).Valid := by
  rw [Valid]
  decide

def seqChain (first second : EventPayload Numeral) : Chain Numeral :=
  let chain := sampleChain.pushPersisted (buildNext sampleSha256 sampleClock sampleChain first)
  chain.pushPersisted (buildNext sampleSha256 sampleClock chain second)

theorem seqChain_stamps (first second : EventPayload Numeral) :
    ∀ b ∈ (seqChain first second).blocks, ∃ tm, b.timestamp = nowRfc3339 tm := by
  intro b hb
  refine ⟨sampleClock, ?_⟩
  simp only [seqChain, Chain.pushPersisted_blocks, List.mem_append, List.mem_singleton] at hb
  obtain (hb | rfl) | rfl := hb
  · rw [List.mem_singleton.mp hb]
    rfl
  · rfl
  · rfl

theorem seqChain_shallow (first second : EventPayload Numeral)
    (h : nesting first.metadata.1 ≤ 996 ∧ nesting second.metadata.1 ≤ 996) :
    ∀ b ∈ (seqChain first second).blocks, ¬Deep 1000 b := by
  intro b hb
  simp only [seqChain, Chain.pushPersisted_blocks, List.mem_append, List.mem_singleton] at hb
  unfold Deep
  obtain (hb | rfl) | rfl := hb
  · rw [List.mem_singleton.mp hb]
    decide
  · have hfirst : nesting first.metadata.1 + 4 ≤ 1000 := by omega
    exact hfirst.not_gt
  · have hsecond : nesting second.metadata.1 + 4 ≤ 1000 := by omega
    exact hsecond.not_gt

theorem readingOf_seqEvent {chain : Chain Numeral} {seq : Json Numeral} {h : seq.Valid} {key : Key}
    {r : Reading Numeral} (hr : readingOf sampleIso key
      (buildNext sampleSha256 sampleClock chain (seqEvent seq h)) = some r) : r.seq = seq := by
  obtain ⟨e, he, rfl⟩ := Option.map_eq_some_iff.mp hr
  have hsensor : sensorOf (seqEvent seq h) =
      some ([(ascii "sensor_id", .string (ascii "t1")), (ascii "seq", seq)], ascii "t1") := rfl
  rw [sensorEventOf, if_pos (by rfl)] at he
  obtain ⟨t, -, he⟩ := Option.bind_eq_some_iff.mp he
  obtain ⟨sensor, hs, he⟩ := Option.bind_eq_some_iff.mp he
  obtain rfl := Option.some.inj (hsensor.symm.trans hs)
  split_ifs at he
  rw [← Option.some.inj he]
  rfl

def countedChain : Chain Numeral :=
  seqChain (seqEvent (.number ⟨2, by decide⟩) trivial) (seqEvent (.number ⟨1, by decide⟩) trivial)

theorem countedChain_seq {blocks : List (Block Numeral)} (hblocks : blocks ⊆ countedChain.blocks)
    {key : Key} {r : Reading Numeral} (h : r ∈ keptReadings 500 sampleIso key blocks) :
    ∃ i, r.seq = .number i := by
  obtain ⟨b, hb, hr⟩ := List.mem_filterMap.mp (mem_of_mem_ascending (List.mem_of_mem_drop h))
  replace hb := hblocks hb
  simp only [countedChain, seqChain, Chain.pushPersisted_blocks, List.mem_append,
    List.mem_singleton] at hb
  obtain (hb | rfl) | rfl := hb
  · rw [List.mem_singleton.mp hb] at hr
    cases hr
  · exact ⟨_, readingOf_seqEvent hr⟩
  · exact ⟨_, readingOf_seqEvent hr⟩

def clashChain : Chain Numeral :=
  seqChain (seqEvent (.string (ascii "a")) seqText_valid)
    (seqEvent (.number ⟨1, by decide⟩) trivial)

end Ledger.Backend

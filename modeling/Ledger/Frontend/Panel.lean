import Ledger.Backend.Backfill

/-! The panel of a device: the series of `GET /readings`, and behind it what came over the
socket. -/
namespace Ledger.Frontend
open Text Json Backend
variable {F : Type}

/-- A `Reading` of the page; its time is text. -/
structure PanelReading (F : Type) where
  sensorId : Bytes
  sensorType : Json F
  value : Json F
  unit : Json F
  seq : Json F
  time : Bytes

inductive BlockFrame (F : Type) [NumberFloat F]
  | block (block : Block F)
  | lagged (dropped : ℕ)

/-- `StreamState`, a reading with the device that took it. -/
structure StreamState (F : Type) where
  lastSeen : Dict Bytes Bytes
  readings : List (Bytes × PanelReading F)
  dropped : ℕ

def emptyStream : StreamState F :=
  ⟨[], [], 0⟩

def maxStreamReadings : ℕ :=
  500

variable [NumberFloat F]

def readingFrom (block : Block F) : Option (PanelReading F) :=
  if block.event.eventType.1 = ascii "SENSOR_READING" then
    (sensorOf block.event).map fun sensor =>
      ⟨sensor.2, getMember sensor.1 "sensor_type", getMember sensor.1 "value",
        getMember sensor.1 "unit", getMember sensor.1 "seq", block.timestamp⟩
  else none

def applyFrame (state : StreamState F) : BlockFrame F → StreamState F
  | .lagged dropped => { state with dropped := state.dropped + dropped }
  | .block block =>
    let actor := block.event.actor.1
    if actor = [] then state
    else
      let newer := (state.lastSeen.get actor).all fun previous =>
        keyOrder previous < keyOrder block.timestamp
      let lastSeen := if newer then state.lastSeen.set actor block.timestamp else state.lastSeen
      let readings := match readingFrom block with
        | none => state.readings
        | some reading => (state.readings ++ [(actor, reading)]).rtake maxStreamReadings
      { state with lastSeen := lastSeen, readings := readings }

def streamed : BlockFrame F → Option (Bytes × PanelReading F)
  | .lagged _ => none
  | .block block =>
    if block.event.actor.1 = [] then none
    else (readingFrom block).map (block.event.actor.1, ·)

theorem streamed_time {b : Block F} {r : Bytes × PanelReading F}
    (h : streamed (.block b) = some r) : r.2.time = b.timestamp := by
  unfold streamed at h
  dsimp only at h
  split_ifs at h
  obtain ⟨reading, hreading, rfl⟩ := Option.map_eq_some_iff.mp h
  unfold readingFrom at hreading
  split_ifs at hreading
  obtain ⟨sensor, -, rfl⟩ := Option.map_eq_some_iff.mp hreading
  rfl

theorem applyFrame_readings (state : StreamState F) (frame : BlockFrame F) :
    (applyFrame state frame).readings =
      (streamed frame).elim state.readings (pushBounded maxStreamReadings state.readings) := by
  cases frame with
  | lagged dropped => rfl
  | block block =>
    unfold applyFrame streamed
    dsimp only
    by_cases hactor : block.event.actor.1 = []
    · rw [if_pos hactor, if_pos hactor]
      rfl
    · rw [if_neg hactor, if_neg hactor]
      cases readingFrom block with
      | none => rfl
      | some reading => simp [pushBounded_eq_rtake]

theorem foldl_applyFrame_readings (frames : List (BlockFrame F)) :
    (frames.foldl applyFrame emptyStream).readings =
      (frames.filterMap streamed).rtake maxStreamReadings := by
  induction frames using List.reverseRecOn with
  | nil => exact (List.rtake_nil _).symm
  | append_singleton frames frame ih =>
    rw [List.foldl_concat, applyFrame_readings, ih, List.filterMap_append]
    cases h : streamed frame with
    | none => simp [h]
    | some reading =>
      rw [Option.elim_some, pushBounded_eq_rtake, rtake_append_rtake, List.filterMap_cons_some h,
      List.filterMap_nil]

/-- `panelReadings`: what is streamed and has a key the backfill does not have goes behind it. -/
def panelReadings {α : Type} (key : α → Bytes) (backfill streamed : List α) : List α :=
  backfill ++ streamed.filter fun r => key r ∉ backfill.map key

theorem map_panelReadings {α β : Type} (f : α → β) (key : β → Bytes) (backfill streamed : List α) :
    (panelReadings (key ∘ f) backfill streamed).map f =
      panelReadings key (backfill.map f) (streamed.map f) := by
  simp only [panelReadings, List.map_append, List.filter_map, List.map_map]
  rfl

theorem panelReadings_of_disjoint {α : Type} {key : α → Bytes} {backfill streamed : List α}
    (h : ∀ r ∈ streamed, ∀ s ∈ backfill, key s ≠ key r) :
    panelReadings key backfill streamed = backfill ++ streamed := by
  unfold panelReadings
  congr 1
  rw [List.filter_eq_self]
  intro r hr
  have hnot : key r ∉ backfill.map key := by
    intro hmem
    obtain ⟨s, hs, hkey⟩ := List.mem_map.mp hmem
    exact h r hr s hs hkey
  simpa using hnot

/-- A frame of the stream, the block by its position in the chain. -/
inductive Sent
  | block (position : ℕ)
  | lagged (dropped : ℕ)

def Sent.position? : Sent → Option ℕ
  | block position => some position
  | lagged _ => none

def Sent.frame (chain : Chain F) : Sent → Option (BlockFrame F)
  | block position => (chain.blocks[position]?).map .block
  | lagged dropped => some (.lagged dropped)

def streamState (chain : Chain F) (sent : List Sent) : StreamState F :=
  (sent.filterMap (Sent.frame chain)).foldl applyFrame emptyStream

def placedStreamed (chain : Chain F) : Sent → Option (ℕ × Bytes × PanelReading F)
  | .block position =>
    ((chain.blocks[position]?).bind fun b => streamed (.block b)).map (position, ·)
  | .lagged _ => none

def streamBuffer (chain : Chain F) (sent : List Sent) (deviceId : Bytes) :
    List (ℕ × PanelReading F) :=
  (((sent.filterMap (placedStreamed chain)).rtake maxStreamReadings).filter fun r =>
    r.2.1 = deviceId).map fun r => (r.1, r.2.2)

def streamedForDevice (state : StreamState F) (deviceId : Bytes) : List (PanelReading F) :=
  (state.readings.filter fun r => r.1 = deviceId).map Prod.snd

theorem streamBuffer_map_snd (chain : Chain F) (sent : List Sent) (deviceId : Bytes) :
    (streamBuffer chain sent deviceId).map Prod.snd =
      streamedForDevice (streamState chain sent) deviceId := by
  have hplaced : (sent.filterMap (placedStreamed chain)).map Prod.snd =
      (sent.filterMap (Sent.frame chain)).filterMap streamed := by
    rw [List.filterMap_filterMap, List.map_filterMap]
    apply List.filterMap_congr
    intro frame _
    cases frame with
    | lagged dropped => rfl
    | block position =>
      cases h : chain.blocks[position]? with
      | none => simp [placedStreamed, Sent.frame, h]
      | some b => cases hs : streamed (.block b) <;> simp [placedStreamed, Sent.frame, h, hs]
  rw [streamedForDevice, streamState, foldl_applyFrame_readings, ← hplaced, ← map_rtake,
    List.filter_map, streamBuffer, List.map_map, List.map_map]
  rfl

theorem placedStreamed_sublist (chain : Chain F) (sent : List Sent) :
    ((sent.filterMap (placedStreamed chain)).map Prod.fst).Sublist
      (sent.filterMap Sent.position?) := by
  induction sent with
  | nil => exact List.Sublist.refl _
  | cons frame sent ih =>
    cases frame with
    | lagged dropped => exact ih
    | block position =>
      rw [List.filterMap_cons_some (show Sent.position? (.block position) = some position from rfl)]
      cases h : (chain.blocks[position]?).bind fun b => streamed (.block b) with
      | none =>
        rw [List.filterMap_cons_none (by simp [placedStreamed, h])]
        exact ih.trans (List.sublist_cons_self ..)
      | some r =>
        rw [List.filterMap_cons_some (show placedStreamed chain (.block position) =
          some (position, r) by simp [placedStreamed, h])]
        exact ih.cons_cons position

theorem streamBuffer_nodup {chain : Chain F} {sent : List Sent}
    (h : (sent.filterMap Sent.position?).Nodup) (deviceId : Bytes) :
    ((streamBuffer chain sent deviceId).map Prod.fst).Nodup := by
  refine List.Nodup.sublist ?_ h
  refine List.Sublist.trans ?_ (placedStreamed_sublist chain sent)
  rw [streamBuffer, List.map_map]
  exact (List.filter_sublist.trans (List.drop_sublist _ _)).map Prod.fst

section Page
variable (text : Json F → Bytes) (isoformat : ℤ → Bytes)

def readingKey (r : PanelReading F) : Bytes :=
  r.sensorId ++ ascii "|" ++ text r.seq ++ ascii "|" ++ r.time

def serialise (r : Reading F) : PanelReading F :=
  ⟨r.sensorId, r.sensorType, r.value, r.unit, r.seq, isoformat r.timestamp⟩

def backfill (historyLimit : ℕ) (fromisoformat : Bytes → Option DateTime) (exact : F → ℚ)
    (chain : Chain F) (a : LedgerActivity F) (positions : List ℕ) (deviceId : Bytes) :
    List (ℕ × PanelReading F) :=
  (servedReadings historyLimit fromisoformat exact chain a positions deviceId).map
    (Prod.map id (serialise isoformat))

/-- Every block that is in the backfill or in the stream buffer is shown by one entry. -/
def ShownOnce (backfill streamed : List (ℕ × PanelReading F)) : Prop :=
  ∀ i ∈ (backfill ++ streamed).map Prod.fst,
    ((panelReadings (readingKey text ∘ Prod.snd) backfill streamed).map Prod.fst).count i = 1

variable {text isoformat}

omit [NumberFloat F] in
/-- The two services write the same instant with different last characters. -/
theorem readingKey_ne_of_suffix {r s : PanelReading F} {t u : Bytes}
    (hr : r.time = t ++ ascii "+00:00") (hs : s.time = u ++ ascii "Z") :
    readingKey text r ≠ readingKey text s := by
  intro h
  have hlast := congrArg List.getLast? h
  rw [readingKey, readingKey, hr, hs] at hlast
  have hzero : (ascii "+00:00").getLast? = some 0x30 := by decide
  have hz : (ascii "Z").getLast? = some 0x5A := by decide
  simp only [← List.append_assoc, List.getLast?_append, hzero, hz, Option.some_or] at hlast
  cases hlast

omit [NumberFloat F] in
theorem readingKey_ne {r : Reading F} {s : PanelReading F} {tm : Tm}
    (hiso : ∃ t, isoformat r.timestamp = t ++ ascii "+00:00") (hs : s.time = nowRfc3339 tm) :
    readingKey text (serialise isoformat r) ≠ readingKey text s := by
  obtain ⟨t, ht⟩ := hiso
  exact readingKey_ne_of_suffix ht hs

theorem placedStreamed_eq_some {chain : Chain F} {frame : Sent}
    {r : ℕ × Bytes × PanelReading F} (h : placedStreamed chain frame = some r) :
    ∃ b, chain.blocks[r.1]? = some b ∧ streamed (.block b) = some r.2 := by
  cases frame with
  | lagged dropped => cases h
  | block position =>
    obtain ⟨reading, hreading, rfl⟩ := Option.map_eq_some_iff.mp h
    exact Option.bind_eq_some_iff.mp hreading

theorem streamBuffer_time {chain : Chain F}
    (hstamps : ∀ b ∈ chain.blocks, ∃ tm, b.timestamp = nowRfc3339 tm) {sent : List Sent}
    {deviceId : Bytes} {r : ℕ × PanelReading F} (h : r ∈ streamBuffer chain sent deviceId) :
    ∃ tm, r.2.time = nowRfc3339 tm := by
  obtain ⟨s, hs, rfl⟩ := List.mem_map.mp h
  have hs' : s ∈ sent.filterMap (placedStreamed chain) :=
    List.mem_of_mem_drop (List.mem_of_mem_filter hs)
  obtain ⟨frame, -, hframe⟩ := List.mem_filterMap.mp hs'
  obtain ⟨b, hb, hr⟩ := placedStreamed_eq_some hframe
  obtain ⟨tm, htm⟩ := hstamps b (List.mem_of_getElem? hb)
  exact ⟨tm, (streamed_time hr).trans htm⟩

end Page

def samplePolled : LedgerActivity Numeral :=
  ⟨sampleReadingChain.blocks.foldl (step 500 sampleIso) LedgerActivity.new.maps, 2, true⟩

theorem polled_samplePolled : Polled 1000 500 sampleIso sampleReadingChain samplePolled [0, 1] := by
  have hrefresh : LedgerActivity.new.refresh 500 sampleIso
      (LedgerActivity.new.fetch 1000 sampleReadingChain) = (samplePolled, .refreshed) :=
    sampleReadingChain_refresh (Nat.zero_le 2)
  have hpolled : Polled 1000 500 sampleIso sampleReadingChain _ _ :=
    .refresh (.new sampleReadingChain (by decide)) (by rw [hrefresh])
  rw [hrefresh] at hpolled
  exact hpolled

def sampleIsoformat (_ : ℤ) : Bytes :=
  ascii "2026-09-01T00:00:00+00:00"

def streamedChain : Chain Numeral :=
  sampleReadingChain.pushPersisted
    (buildNext sampleSha256 sampleClock sampleReadingChain sampleReadingEvent)

theorem streamedChain_stamps : ∀ b ∈ streamedChain.blocks, ∃ tm, b.timestamp = nowRfc3339 tm := by
  intro b hb
  rcases List.mem_append.mp hb with hb | hb
  · exact sampleReadingChain_stamps b hb
  · exact ⟨sampleClock, by rw [List.mem_singleton.mp hb]; rfl⟩

end Ledger.Frontend

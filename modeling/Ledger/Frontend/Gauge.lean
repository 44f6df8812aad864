import Ledger.Backend.Overlap
import Ledger.Frontend.LastSeen
import Ledger.System.FirstMax

/-! The newest reading of a sensor as its gauge shows it: of what was fetched and what is streamed,
the one with the greatest text for a time. -/
namespace Ledger.Frontend
open Text Json Backend
variable {F : Type}

/-- `newest` of a sensor of the panel. -/
def newestReading {α : Type} (sensorId time : α → Bytes) (id : Bytes) (latest : Option α)
    (readings : List α) : Option α :=
  readings.foldl (fun best reading =>
    if sensorId reading ≠ id then best
    else if best.all fun b => keyOrder (time b) < keyOrder (time reading) then some reading
    else best) latest

theorem newestReading_eq_firstMax {α : Type} (sensorId time : α → Bytes) (id : Bytes)
    (latest : Option α) (readings : List α) :
    newestReading sensorId time id latest readings =
      firstMax (keyOrder ∘ time) (latest.toList ++ readings.filter fun r => sensorId r = id) := by
  rw [← foldl_takeAbove, List.foldl_filter]
  unfold newestReading takeAbove
  congr 1
  funext best reading
  by_cases hid : sensorId reading = id
  · rw [if_neg (not_not.mpr hid), if_pos (decide_eq_true hid)]
    cases best with
    | none => rfl
    | some b => exact if_congr (by simp) rfl rfl
  · simp [hid]

theorem newestReading_map {α β : Type} (f : α → β) (sensorId time : β → Bytes) (id : Bytes)
    (latest : Option α) (readings : List α) :
    (newestReading (sensorId ∘ f) (time ∘ f) id latest readings).map f =
      newestReading sensorId time id (latest.map f) (readings.map f) := by
  rw [newestReading_eq_firstMax, newestReading_eq_firstMax, ← Function.comp_assoc, ← firstMax_map,
    List.map_append, List.filter_map]
  cases latest <;> rfl

variable [NumberFloat F]

section Gauge
variable (text : Json F → Bytes) (fromisoformat : Bytes → Option DateTime) (isoformat : ℤ → Bytes)

/-- What was fetched for a sensor of the panel, with positions: its newest reading, and the backfill
of the device. -/
structure PanelFetch (F : Type) where
  latest : Option (ℕ × PanelReading F)
  backfill : List (ℕ × PanelReading F)

/-- Two answers, of a cache that has consumed the blocks at some positions when it gives the one and
at some when it gives the other. -/
def panelFetch (historyLimit : ℕ) (exact : F → ℚ) (chain : Chain F) (sensorsAt : List ℕ)
    (a : LedgerActivity F) (readingsAt : List ℕ) (key : Key) : PanelFetch F :=
  ⟨(latestPlaced fromisoformat chain sensorsAt key).map (Prod.map id (serialise isoformat)),
    backfill isoformat historyLimit fromisoformat exact chain a readingsAt key.1⟩

/-- What the gauge shows, with its position. -/
def gauge (chain : Chain F) (key : Key) (fetched : PanelFetch F) (sent : List Sent) :
    Option (ℕ × PanelReading F) :=
  newestReading (PanelReading.sensorId ∘ Prod.snd) (PanelReading.time ∘ Prod.snd) key.2
    fetched.latest
    (panelReadings (readingKey text ∘ Prod.snd) fetched.backfill (streamBuffer chain sent key.1))

def positionsOf (id : Bytes) (readings : List (ℕ × PanelReading F)) : List ℕ :=
  (readings.filter fun r => r.2.sensorId = id).map Prod.fst

/-- The readings of a device that were streamed, those that have left the buffer too. -/
def streamedReadings (chain : Chain F) (sent : List Sent) (deviceId : Bytes) :
    List (ℕ × PanelReading F) :=
  ((sent.filterMap (placedStreamed chain)).filter fun r => r.2.1 = deviceId).map fun r =>
    (r.1, r.2.2)

/-- Where the readings of a sensor stand that have come to the page. -/
def received (chain : Chain F) (key : Key) (fetched : PanelFetch F) (sent : List Sent) : List ℕ :=
  positionsOf key.2 (streamedReadings chain sent key.1) ++
    (fetched.latest.toList.map Prod.fst ++ positionsOf key.2 fetched.backfill)

/-- Where those stand that are still there: the stream buffer first, the backfill last. -/
def present (chain : Chain F) (key : Key) (fetched : PanelFetch F) (sent : List Sent) : List ℕ :=
  positionsOf key.2 (streamBuffer chain sent key.1) ++
    (fetched.latest.toList.map Prod.fst ++ positionsOf key.2 fetched.backfill)

def timestampAt (chain : Chain F) (i : ℕ) : Option Bytes :=
  (chain.blocks[i]?).map Block.timestamp

/-- The gauge shows the last block. -/
def ShowsNewest (chain : Chain F) (key : Key) (fetched : PanelFetch F) (sent : List Sent) : Prop :=
  (gauge text chain key fetched sent).map Prod.fst = (received chain key fetched sent).max?

/-- The last block is still there, and before those that are from the same second. -/
def NewestLeads (chain : Chain F) (key : Key) (fetched : PanelFetch F) (sent : List Sent) : Prop :=
  ∀ newest ∈ (received chain key fetched sent).max?,
    ((present chain key fetched sent).find? fun i =>
      timestampAt chain i = timestampAt chain newest) = some newest

/-- While more frames come in, the gauge shows the last block and never goes back. -/
structure KeepsUp (chain : Chain F) (key : Key) (fetched : PanelFetch F) (sent more : List Sent) :
    Prop where
  newest : ∀ frames, frames <+: more → ShowsNewest text chain key fetched (sent ++ frames)
  forward : ∀ first second, first <+: second → second <+: more →
    ∀ shown ∈ gauge text chain key fetched (sent ++ first),
      ∃ shown' ∈ gauge text chain key fetched (sent ++ second), shown.1 ≤ shown'.1

/-- A block with a timestamp of the storage core that Python reads. -/
def Dated (b : Block F) : Prop :=
  ∃ tm : Tm, tm.Valid ∧ b.timestamp = nowRfc3339 tm ∧ ReadsSecond fromisoformat isoformat tm

/-- The time at which the block at a position was seen. -/
def secondAt (chain : Chain F) (i : ℕ) : ℤ :=
  ((chain.blocks[i]?).bind (sighting fromisoformat)).getD 0

/-- An entry has the second of its block, with something behind it. -/
def Writes (chain : Chain F) (suffix : Bytes) (e : ℕ × PanelReading F) : Prop :=
  ∃ b tm, chain.blocks[e.1]? = some b ∧ tm.Valid ∧ b.timestamp = nowRfc3339 tm ∧
    sighting fromisoformat b = some tm.micros ∧ e.2.time = stampPrefix tm ++ suffix

variable {text fromisoformat isoformat} {chain : Chain F}

theorem Dated.sighting_eq {b : Block F} (h : Dated fromisoformat isoformat b)
    (hactor : b.event.actor.1 ≠ []) : ∃ tm : Tm, tm.Valid ∧ b.timestamp = nowRfc3339 tm ∧
      sighting fromisoformat b = some tm.micros ∧
      isoformat tm.micros = stampPrefix tm ++ ascii "+00:00" := by
  obtain ⟨tm, hvalid, hstamp, hreads⟩ := h
  refine ⟨tm, hvalid, hstamp, ?_, hreads.isoformat⟩
  unfold sighting
  rw [if_neg hactor, hstamp, hreads.parseTimestamp hvalid]

theorem actor_ne_of_sighting {b : Block F} {t : ℤ} (h : sighting fromisoformat b = some t) :
    b.event.actor.1 ≠ [] := by
  intro hempty
  unfold sighting at h
  rw [if_pos hempty] at h
  cases h

theorem streamedReadings_writes (hdated : ∀ b ∈ chain.blocks, Dated fromisoformat isoformat b)
    {sent : List Sent} {deviceId : Bytes} {e : ℕ × PanelReading F}
    (h : e ∈ streamedReadings chain sent deviceId) :
    Writes fromisoformat chain (ascii "Z") e := by
  obtain ⟨s, hs, rfl⟩ := List.mem_map.mp h
  obtain ⟨frame, -, hframe⟩ := List.mem_filterMap.mp (List.mem_of_mem_filter hs)
  obtain ⟨b, hb, hr⟩ := placedStreamed_eq_some hframe
  have hactor : b.event.actor.1 ≠ [] := by
    intro hempty
    unfold streamed at hr
    dsimp only at hr
    rw [if_pos hempty] at hr
    cases hr
  obtain ⟨tm, hvalid, hstamp, hsight, -⟩ :=
    (hdated b (List.mem_of_getElem? hb)).sighting_eq hactor
  refine ⟨b, tm, hb, hvalid, hstamp, hsight, ?_⟩
  rw [streamed_time hr, hstamp, nowRfc3339_eq]

theorem placedReading_writes (hdated : ∀ b ∈ chain.blocks, Dated fromisoformat isoformat b)
    {key : Key} {i : ℕ} {r : ℕ × Reading F}
    (h : placedReading fromisoformat chain key i = some r) :
    Writes fromisoformat chain (ascii "+00:00") (Prod.map id (serialise isoformat) r) := by
  obtain ⟨reading, hreading, rfl⟩ := Option.map_eq_some_iff.mp h
  obtain ⟨b, hb, hreading⟩ := Option.bind_eq_some_iff.mp hreading
  have hsight := sighting_of_readingOf b reading hreading
  obtain ⟨tm, hvalid, hstamp, hmicros, hiso⟩ :=
    (hdated b (List.mem_of_getElem? hb)).sighting_eq (actor_ne_of_sighting hsight)
  rw [hsight] at hmicros
  refine ⟨b, tm, hb, hvalid, hstamp, ?_, ?_⟩
  · rw [hsight, hmicros]
  · rw [← hiso, ← Option.some.inj hmicros]
    rfl

theorem Writes.lt_iff {s s' : Bytes} {e e' : ℕ × PanelReading F}
    (h : Writes fromisoformat chain s e) (h' : Writes fromisoformat chain s' e') :
    keyOrder e.2.time < keyOrder e'.2.time ↔
      secondAt fromisoformat chain e.1 < secondAt fromisoformat chain e'.1 ∨
        secondAt fromisoformat chain e.1 = secondAt fromisoformat chain e'.1 ∧
          keyOrder s < keyOrder s' := by
  obtain ⟨b, tm, hb, hvalid, -, hsight, htime⟩ := h
  obtain ⟨b', tm', hb', hvalid', -, hsight', htime'⟩ := h'
  have hsecond : secondAt fromisoformat chain e.1 = tm.micros := by
    rw [secondAt, hb, Option.bind_some, hsight, Option.getD_some]
  have hsecond' : secondAt fromisoformat chain e'.1 = tm'.micros := by
    rw [secondAt, hb', Option.bind_some, hsight', Option.getD_some]
  have hlt : tm.micros < tm'.micros ↔ tm.seconds < tm'.seconds := by
    unfold Tm.micros
    omega
  have heq : tm.micros = tm'.micros ↔ tm.seconds = tm'.seconds := by
    unfold Tm.micros
    omega
  rw [htime, htime', stampPrefix_lt_iff hvalid hvalid', hsecond, hsecond', hlt, heq]

theorem Writes.same_lt_iff {s : Bytes} {e e' : ℕ × PanelReading F}
    (h : Writes fromisoformat chain s e) (h' : Writes fromisoformat chain s e') :
    keyOrder e.2.time < keyOrder e'.2.time ↔
      secondAt fromisoformat chain e.1 < secondAt fromisoformat chain e'.1 := by
  rw [h.lt_iff h']
  simp

theorem Writes.offset_lt_iff {e e' : ℕ × PanelReading F}
    (h : Writes fromisoformat chain (ascii "+00:00") e)
    (h' : Writes fromisoformat chain (ascii "Z") e') :
    keyOrder e.2.time < keyOrder e'.2.time ↔
      secondAt fromisoformat chain e.1 ≤ secondAt fromisoformat chain e'.1 := by
  have hsuffix : keyOrder (ascii "+00:00") < keyOrder (ascii "Z") := by decide
  rw [h.lt_iff h', and_iff_left hsuffix, le_iff_lt_or_eq]

theorem Writes.timestampAt_eq_iff {s s' : Bytes} {e e' : ℕ × PanelReading F}
    (h : Writes fromisoformat chain s e) (h' : Writes fromisoformat chain s' e') :
    timestampAt chain e.1 = timestampAt chain e'.1 ↔
      secondAt fromisoformat chain e.1 = secondAt fromisoformat chain e'.1 := by
  obtain ⟨b, tm, hb, hvalid, hstamp, hsight, -⟩ := h
  obtain ⟨b', tm', hb', hvalid', hstamp', hsight', -⟩ := h'
  unfold timestampAt secondAt
  rw [hb, hb', Option.map_some, Option.map_some, Option.bind_some, Option.bind_some, hsight,
    hsight', hstamp, hstamp', Option.some.injEq, Option.getD_some, Option.getD_some]
  constructor
  · intro heq
    rw [nowRfc3339_injOn hvalid hvalid' heq]
  · intro heq
    unfold Tm.micros at heq
    rw [Tm.eq_of_seconds_eq hvalid hvalid' (by omega)]

theorem Writes.secondAt_le (hsteady : Steady fromisoformat chain) {s s' : Bytes}
    {e e' : ℕ × PanelReading F} (h : Writes fromisoformat chain s e)
    (h' : Writes fromisoformat chain s' e') (hle : e.1 ≤ e'.1) :
    secondAt fromisoformat chain e.1 ≤ secondAt fromisoformat chain e'.1 := by
  rcases hle.eq_or_lt with heq | hlt
  · rw [heq]
  · obtain ⟨b, tm, hb, -, -, hsight, -⟩ := h
    obtain ⟨b', tm', hb', -, -, hsight', -⟩ := h'
    obtain ⟨hi, hget⟩ := List.getElem?_eq_some_iff.mp hb
    obtain ⟨hi', hget'⟩ := List.getElem?_eq_some_iff.mp hb'
    have horder := List.pairwise_iff_getElem.mp (List.pairwise_filterMap.mp hsteady.order) e.1 e'.1
      hi hi' hlt
    rw [hget, hget'] at horder
    unfold secondAt
    rw [hb, hb', Option.bind_some, Option.bind_some, hsight, hsight']
    exact horder _ hsight _ hsight'

/-- What was fetched has the times of its blocks as Python writes them. -/
structure PanelFetch.Written (fromisoformat : Bytes → Option DateTime) (chain : Chain F)
    (fetched : PanelFetch F) : Prop where
  latest : ∀ e ∈ fetched.latest, Writes fromisoformat chain (ascii "+00:00") e
  backfill : ∀ e ∈ fetched.backfill, Writes fromisoformat chain (ascii "+00:00") e

theorem panelFetch_written (hdated : ∀ b ∈ chain.blocks, Dated fromisoformat isoformat b)
    (historyLimit : ℕ) (exact : F → ℚ) (sensorsAt : List ℕ) (a : LedgerActivity F)
    (readingsAt : List ℕ) (key : Key) :
    (panelFetch fromisoformat isoformat historyLimit exact chain sensorsAt a readingsAt
      key).Written fromisoformat chain := by
  constructor
  · intro e he
    obtain ⟨r, hr, rfl⟩ := Option.map_eq_some_iff.mp he
    have hr' : r ∈ sensorsAt.filterMap (placedReading fromisoformat chain key) :=
      mem_of_mem_ascending (List.mem_of_getLast? hr)
    obtain ⟨i, -, hi⟩ := List.mem_filterMap.mp hr'
    exact placedReading_writes hdated hi
  · intro e he
    obtain ⟨r, hr, rfl⟩ := List.mem_map.mp he
    have hr' := (List.mem_insertionSort _).mp (List.mem_of_mem_drop hr)
    obtain ⟨key', -, hkept⟩ := List.mem_flatMap.mp hr'
    have hr'' : r ∈ readingsAt.filterMap (placedReading fromisoformat chain key') :=
      mem_of_mem_ascending (List.mem_of_mem_drop hkept)
    obtain ⟨i, -, hi⟩ := List.mem_filterMap.mp hr''
    exact placedReading_writes hdated hi

variable (chain) in
theorem streamBuffer_sublist (sent : List Sent) (deviceId : Bytes) :
    (streamBuffer chain sent deviceId).Sublist (streamedReadings chain sent deviceId) :=
  ((List.drop_sublist _ _).filter _).map _

/-- The gauge goes by the seconds, and within one of them by the order of what is present. -/
theorem gauge_eq_firstMax (hdated : ∀ b ∈ chain.blocks, Dated fromisoformat isoformat b)
    {fetched : PanelFetch F} (hfetched : fetched.Written fromisoformat chain) (key : Key)
    (sent : List Sent) :
    (gauge text chain key fetched sent).map Prod.fst =
      firstMax (secondAt fromisoformat chain) (present chain key fetched sent) := by
  have hbuffer : ∀ e ∈ streamBuffer chain sent key.1, Writes fromisoformat chain (ascii "Z") e :=
    fun e he => streamedReadings_writes hdated ((streamBuffer_sublist chain sent key.1).subset he)
  have hdisjoint : ∀ r ∈ streamBuffer chain sent key.1, ∀ s ∈ fetched.backfill,
      (readingKey text ∘ Prod.snd) s ≠ (readingKey text ∘ Prod.snd) r := by
    intro r hr s hs
    obtain ⟨-, tm, -, -, -, -, htime⟩ := hfetched.backfill s hs
    obtain ⟨-, tm', -, -, -, -, htime'⟩ := hbuffer r hr
    exact readingKey_ne_of_suffix htime htime'
  have hfetch : ∀ e ∈ fetched.latest.toList ++ fetched.backfill.filter fun r =>
      r.2.sensorId = key.2, Writes fromisoformat chain (ascii "+00:00") e := by
    intro e he
    rcases List.mem_append.mp he with he | he
    · exact hfetched.latest e (Option.mem_toList.mp he)
    · exact hfetched.backfill e (List.mem_of_mem_filter he)
  have hstream : ∀ e ∈ (streamBuffer chain sent key.1).filter fun r => r.2.sensorId = key.2,
      Writes fromisoformat chain (ascii "Z") e := fun e he => hbuffer e (List.mem_of_mem_filter he)
  have hsplit : firstMax (keyOrder ∘ PanelReading.time ∘ Prod.snd)
      ((fetched.latest.toList ++ fetched.backfill.filter fun r => r.2.sensorId = key.2) ++
        (streamBuffer chain sent key.1).filter fun r => r.2.sensorId = key.2) =
      firstMax (secondAt fromisoformat chain ∘ Prod.fst)
        (((streamBuffer chain sent key.1).filter fun r => r.2.sensorId = key.2) ++
          (fetched.latest.toList ++ fetched.backfill.filter fun r => r.2.sensorId = key.2)) := by
    apply firstMax_append_comm
    · exact fun e he e' he' => (hfetch e he).same_lt_iff (hfetch e' he')
    · exact fun e he e' he' => (hstream e he).same_lt_iff (hstream e' he')
    · exact fun e he e' he' => (hfetch e he).offset_lt_iff (hstream e' he')
  have hpresent : present chain key fetched sent =
      (((streamBuffer chain sent key.1).filter fun r => r.2.sensorId = key.2) ++
        (fetched.latest.toList ++ fetched.backfill.filter fun r => r.2.sensorId = key.2)).map
        Prod.fst := by
    rw [List.map_append, List.map_append]
    rfl
  rw [gauge, newestReading_eq_firstMax, panelReadings_of_disjoint hdisjoint, List.filter_append,
    ← List.append_assoc, hpresent, firstMax_map]
  exact congrArg (Option.map Prod.fst) hsplit

variable (chain) in
theorem present_subset_received (key : Key) (fetched : PanelFetch F) (sent : List Sent) :
    present chain key fetched sent ⊆ received chain key fetched sent := by
  have hsub := ((streamBuffer_sublist chain sent key.1).filter fun r =>
    r.2.sensorId = key.2).map Prod.fst
  exact (hsub.append_right _).subset

theorem received_writes (hdated : ∀ b ∈ chain.blocks, Dated fromisoformat isoformat b)
    {fetched : PanelFetch F} (hfetched : fetched.Written fromisoformat chain) {key : Key}
    {sent : List Sent} {i : ℕ} (h : i ∈ received chain key fetched sent) :
    ∃ s e, e.1 = i ∧ Writes fromisoformat chain s e := by
  rcases List.mem_append.mp h with h | h
  · obtain ⟨e, he, rfl⟩ := List.mem_map.mp h
    exact ⟨_, e, rfl, streamedReadings_writes hdated (List.mem_of_mem_filter he)⟩
  · rcases List.mem_append.mp h with h | h
    · obtain ⟨e, he, rfl⟩ := List.mem_map.mp h
      exact ⟨_, e, rfl, hfetched.latest e (Option.mem_toList.mp he)⟩
    · obtain ⟨e, he, rfl⟩ := List.mem_map.mp h
      exact ⟨_, e, rfl, hfetched.backfill e (List.mem_of_mem_filter he)⟩

theorem showsNewest_iff (hdated : ∀ b ∈ chain.blocks, Dated fromisoformat isoformat b)
    (hsteady : Steady fromisoformat chain) {fetched : PanelFetch F}
    (hfetched : fetched.Written fromisoformat chain) (key : Key) (sent : List Sent) :
    ShowsNewest text chain key fetched sent ↔ NewestLeads chain key fetched sent := by
  have hsub := present_subset_received chain key fetched sent
  have hmono : ∀ i ∈ received chain key fetched sent, ∀ j ∈ received chain key fetched sent,
      i ≤ j → secondAt fromisoformat chain i ≤ secondAt fromisoformat chain j := by
    intro i hi j hj hij
    obtain ⟨s, e, rfl, he⟩ := received_writes hdated hfetched hi
    obtain ⟨s', e', rfl, he'⟩ := received_writes hdated hfetched hj
    exact he.secondAt_le hsteady he' hij
  have hfind : ∀ newest ∈ (received chain key fetched sent).max?,
      ((present chain key fetched sent).find? fun i =>
        secondAt fromisoformat chain i = secondAt fromisoformat chain newest) =
      (present chain key fetched sent).find? fun i =>
        timestampAt chain i = timestampAt chain newest := by
    intro newest hnewest
    obtain ⟨s, e, rfl, he⟩ := received_writes hdated hfetched (List.max?_mem hnewest)
    apply List.find?_congr
    intro i hi
    obtain ⟨s', e', rfl, he'⟩ := received_writes hdated hfetched (hsub hi)
    rw [decide_eq_decide, he'.timestampAt_eq_iff he]
  rw [ShowsNewest, gauge_eq_firstMax hdated hfetched, firstMax_eq_max?_iff hsub hmono, NewestLeads]
  constructor
  · intro h newest hnewest
    rw [← hfind newest hnewest]
    exact h newest hnewest
  · intro h newest hnewest
    rw [hfind newest hnewest]
    exact h newest hnewest

theorem received_subset (key : Key) (fetched : PanelFetch F) {sent sent' : List Sent}
    (h : sent <+: sent') : received chain key fetched sent ⊆ received chain key fetched sent' := by
  have hstream : (streamedReadings chain sent key.1).Sublist (streamedReadings chain sent' key.1) :=
    ((h.sublist.filterMap _).filter _).map _
  have hsub := (hstream.filter fun r => r.2.sensorId = key.2).map Prod.fst
  exact (hsub.append_right _).subset

theorem ShowsNewest.forward {key : Key} {fetched : PanelFetch F} {sent sent' : List Sent}
    (h : ShowsNewest text chain key fetched sent) (h' : ShowsNewest text chain key fetched sent')
    (hsent : sent <+: sent') : ∀ shown ∈ gauge text chain key fetched sent,
      ∃ shown' ∈ gauge text chain key fetched sent', shown.1 ≤ shown'.1 := by
  intro shown hshown
  have hnewest : (received chain key fetched sent).max? = some shown.1 := by
    rw [← h, Option.mem_def.mp hshown, Option.map_some]
  have hmem := received_subset key fetched hsent (List.max?_mem hnewest)
  cases hlast : (received chain key fetched sent').max? with
  | none =>
    rw [List.max?_eq_none_iff.mp hlast] at hmem
    exact absurd hmem List.not_mem_nil
  | some last =>
    have hshown' := h'.trans hlast
    obtain ⟨shown', hgauge, rfl⟩ := Option.map_eq_some_iff.mp hshown'
    exact ⟨shown', hgauge, (List.max?_eq_some_iff.mp hlast).2 _ hmem⟩

end Gauge

theorem dated_of_sampleClock {b : Block Numeral} (h : b.timestamp = nowRfc3339 sampleClock) :
    Dated sampleIso sampleIsoformat b :=
  ⟨sampleClock, sampleClock_valid, h, sampleClock_known.toReadsSecond⟩

def stepIsoformat (t : ℤ) : Bytes :=
  if t = 63923817599000000 then ascii "2026-08-31T23:59:59+00:00" else sampleIsoformat t

theorem dated_of_earlierClock {b : Block Numeral} (h : b.timestamp = nowRfc3339 earlierClock) :
    Dated stepIso stepIsoformat b :=
  ⟨earlierClock, ⟨by decide, ⟨by decide, by decide, by decide⟩, by decide, by decide, by decide⟩, h,
    by decide, by decide⟩

theorem dated_of_laterClock {b : Block Numeral} (h : b.timestamp = nowRfc3339 sampleClock) :
    Dated stepIso stepIsoformat b :=
  ⟨sampleClock, sampleClock_valid, h, by decide, by decide⟩

def risingChain : Chain Numeral :=
  let chain : Chain Numeral := ⟨[genesis sampleSha256 earlierClock], List.cons_ne_nil _ _⟩
  let chain := chain.pushPersisted (buildNext sampleSha256 earlierClock chain sampleReadingEvent)
  chain.pushPersisted (buildNext sampleSha256 sampleClock chain sampleReadingEvent)

theorem risingChain_dated : ∀ b ∈ risingChain.blocks, Dated stepIso stepIsoformat b := by
  intro b hb
  simp only [risingChain, Chain.pushPersisted_blocks, List.mem_append, List.mem_singleton] at hb
  obtain (rfl | rfl) | rfl := hb
  · exact dated_of_earlierClock rfl
  · exact dated_of_earlierClock rfl
  · exact dated_of_laterClock rfl

theorem steady_risingChain : Steady stepIso risingChain where
  stamps b hb := by
    obtain ⟨tm, -, hstamp, -⟩ := risingChain_dated b hb
    exact ⟨tm, hstamp⟩
  order := by
    have htimes : risingChain.blocks.filterMap (sighting stepIso) =
        [63923817599000000, 63923817599000000, 63923817600000000] := rfl
    rw [htimes]
    simp

def risingCache : LedgerActivity Numeral :=
  ⟨consumed 500 stepIso (blocksAt risingChain [0, 1]), 2, true⟩

end Ledger.Frontend

import Ledger.Backend.Activity
import Ledger.Core.Recovery
import Mathlib.Logic.Relation

/-! Polling against one full scan: every poll reads the last block again, which is harmless for
all maps but the history. -/
namespace Ledger.Backend
open Text Json
variable {F : Type}

/-- The queries of two caches agree. -/
structure SameAnswers (exact : F → ℚ) (a b : LedgerActivity F) : Prop where
  lastSeen : ∀ deviceId, a.lastSeen deviceId = b.lastSeen deviceId
  latestReading : ∀ deviceId sensorId,
    a.latestReading deviceId sensorId = b.latestReading deviceId sensorId
  cameraState : ∀ deviceId sensorId,
    a.cameraState deviceId sensorId = b.cameraState deviceId sensorId
  history : a.maps.history = b.maps.history
  readings : ∀ deviceId sensorId since limit,
    a.readings exact deviceId sensorId since limit = b.readings exact deviceId sensorId since limit

theorem SameAnswers.of_maps {exact : F → ℚ} {a b : LedgerActivity F} (h : a.maps = b.maps) :
    SameAnswers exact a b := by
  obtain ⟨maps, n, r⟩ := a
  obtain ⟨maps', n', r'⟩ := b
  obtain rfl : maps = maps' := h
  exact ⟨fun _ => rfl, fun _ _ => rfl, fun _ _ => rfl, rfl, fun _ _ _ _ => rfl⟩

theorem see_of_lastSeen {maps seen : Maps F} {actor : Bytes} {t : ℤ}
    (h : seen.lastSeen = (see maps actor t).lastSeen) : see seen actor t = seen := by
  have hnot : ¬(seen.lastSeen.get actor).all (· < t) = true := by
    rw [h, see]
    split_ifs with ht
    · simp
    · exact ht
  rw [see, if_neg hnot]

variable [NumberFloat F]

theorem not_isAfter_self (t : ℤ) : ¬isAfter (some t) t := by
  simp [isAfter]

theorem consumeCameraEvent_twice (maps : Maps F) (actor : Bytes) (event : EventPayload F)
    (t : ℤ) : consumeCameraEvent (consumeCameraEvent maps actor event t) actor event t =
      consumeCameraEvent maps actor event t := by
  unfold consumeCameraEvent
  cases hs : sensorOf event with
  | none => rfl
  | some sensor =>
    obtain ⟨metadata, sensorId⟩ := sensor
    dsimp only
    by_cases ha : isAfter ((maps.camera.get (actor, sensorId)).map CameraState.timestamp) t
    · rw [if_pos ha, if_pos ha]
    · rw [if_neg ha]
      simp only [Dict.get_set_self, Option.map_some, if_neg (not_isAfter_self t), Option.bind_some]
      rw [Dict.set_of_get]
      rw [Dict.get_set_self]
      -- a camera that announced no stream keeps the one it has
      cases nonEmptyString (getMember metadata "url") <;> simp

/-- Whether a reading goes into the history. -/
def Records (maps : Maps F) (actor : Bytes) (event : EventPayload F) (t : ℤ) : Prop :=
  event.eventType.1 = ascii "SENSOR_READING" ∧
    ∃ sensor, sensorOf event = some sensor ∧
      ¬isAfter ((maps.latest.get (actor, sensor.2)).map Reading.timestamp) t

theorem consumeReading_lastSeen (historyLimit : ℕ) (maps : Maps F) (actor : Bytes)
    (event : EventPayload F) (t : ℤ) :
    (consumeReading historyLimit maps actor event t).lastSeen = maps.lastSeen := by
  unfold consumeReading consumeCameraEvent
  split_ifs
  · cases sensorOf event with
    | none => rfl
    | some sensor => dsimp only; split_ifs <;> rfl
  · cases sensorOf event with
    | none => rfl
    | some sensor => dsimp only; split_ifs <;> rfl
  · rfl

theorem consumeReading_twice {historyLimit : ℕ} {maps : Maps F} {actor : Bytes}
    {event : EventPayload F} {t : ℤ}
    (h : historyLimit ≤ 1 ∨ ¬Records (consumeReading historyLimit maps actor event t) actor event t) :
    consumeReading historyLimit (consumeReading historyLimit maps actor event t) actor event t =
      consumeReading historyLimit maps actor event t := by
  unfold consumeReading at h ⊢
  by_cases hcam : event.eventType.1 = ascii "CAMERA_EVENT"
  · simp only [if_pos hcam]
    exact consumeCameraEvent_twice ..
  simp only [if_neg hcam] at h ⊢
  by_cases hread : event.eventType.1 = ascii "SENSOR_READING"
  · simp only [if_pos hread] at h ⊢
    cases hs : sensorOf event with
    | none => rfl
    | some sensor =>
      obtain ⟨metadata, sensorId⟩ := sensor
      simp only [hs] at h ⊢
      by_cases ha : isAfter ((maps.latest.get (actor, sensorId)).map Reading.timestamp) t
      · rw [if_pos ha, if_pos ha]
      · simp only [if_neg ha] at h ⊢
        simp only [Dict.get_set_self, Option.map_some, if_neg (not_isAfter_self t),
          Option.getD_some]
        have hlimit : historyLimit ≤ 1 := by
          refine h.resolve_right fun hr => hr ⟨hread, _, hs, ?_⟩
          simp [not_isAfter_self]
        rw [pushBounded_twice hlimit, Dict.set_of_get (Dict.get_set_self ..),
          Dict.set_of_get (Dict.get_set_self ..)]
  · simp only [if_neg hread]

section Consume
variable (depth historyLimit : ℕ) (fromisoformat : Bytes → Option DateTime)

/-- A block too deep for `json.loads`, with the levels of a page around its metadata. -/
def Deep (b : Block F) : Prop :=
  depth < nesting b.event.metadata.1 + 4

instance (b : Block F) : Decidable (Deep depth b) :=
  inferInstanceAs (Decidable (_ < _))

/-- A timestamp in range for `fromisoformat` and out of range in UTC. -/
def Overflows (b : Block F) : Prop :=
  b.event.actor.1 ≠ [] ∧ ∃ e, parseTimestamp fromisoformat b.timestamp = .error e

/-- A block on which every refresh that reads it raises. -/
def Unreadable (b : Block F) : Prop :=
  Deep depth b ∨ Overflows fromisoformat b

/-- `consumeBlock`, with nothing done where it raises. -/
def step (maps : Maps F) (b : Block F) : Maps F :=
  match consumeBlock historyLimit fromisoformat maps b with
  | .ok maps => maps
  | .error _ => maps

def RecordsReading (maps : Maps F) (b : Block F) : Prop :=
  b.event.actor.1 ≠ [] ∧ ∃ t, parseTimestamp fromisoformat b.timestamp = .ok (some t) ∧
    Records maps b.event.actor.1 b.event t

variable {depth historyLimit fromisoformat}

theorem decodePayload_page {payload : BlocksPage F} (hne : payload.blocks ≠ [])
    (h : ∀ b ∈ payload.blocks, ¬Deep depth b) : decodePayload depth payload = .page payload := by
  refine if_neg (not_lt.mpr ((BlocksPage.nesting_toJson_le_iff hne).mpr fun b hb => ?_))
  exact not_lt.mp (h b hb)

theorem decodePayload_deep {payload : BlocksPage F} (h : ∃ b ∈ payload.blocks, Deep depth b) :
    decodePayload depth payload = .recursionError := by
  obtain ⟨b, hb, hdeep⟩ := h
  refine if_pos (not_le.mp fun hle => ?_)
  exact hdeep.not_ge ((BlocksPage.nesting_toJson_le_iff (List.ne_nil_of_mem hb)).mp hle b hb)

theorem consumeBlock_ok {b : Block F} (h : ¬Overflows fromisoformat b) (maps : Maps F) :
    consumeBlock historyLimit fromisoformat maps b = .ok (step historyLimit fromisoformat maps b) := by
  unfold step
  cases hc : consumeBlock historyLimit fromisoformat maps b with
  | ok maps' => rfl
  | error e =>
    refine absurd ?_ h
    unfold consumeBlock at hc
    dsimp only at hc
    split_ifs at hc with hactor
    cases hp : parseTimestamp fromisoformat b.timestamp with
    | error e' => exact ⟨hactor, e', hp⟩
    | ok t => rw [hp] at hc; rcases t with _ | t <;> cases hc

theorem consumeBlock_error {b : Block F} (h : Overflows fromisoformat b) (maps : Maps F) :
    ∃ e, consumeBlock historyLimit fromisoformat maps b = .error e := by
  obtain ⟨hactor, e, he⟩ := h
  exact ⟨e, by rw [consumeBlock, if_neg hactor, he]⟩

theorem consumeBlocks_ok {blocks : List (Block F)} (h : ∀ b ∈ blocks, ¬Overflows fromisoformat b)
    (maps : Maps F) : consumeBlocks historyLimit fromisoformat maps blocks =
      (blocks.foldl (step historyLimit fromisoformat) maps, none) := by
  induction blocks generalizing maps with
  | nil => rfl
  | cons b blocks ih =>
    rw [List.forall_mem_cons] at h
    rw [consumeBlocks, consumeBlock_ok h.1]
    exact ih h.2 _

theorem consumeBlocks_raised {blocks : List (Block F)} (h : ∃ b ∈ blocks, Overflows fromisoformat b)
    (maps : Maps F) : ∃ e, (consumeBlocks historyLimit fromisoformat maps blocks).2 = some e := by
  induction blocks generalizing maps with
  | nil => simp at h
  | cons b blocks ih =>
    rw [consumeBlocks]
    by_cases hb : Overflows fromisoformat b
    · obtain ⟨e, he⟩ := consumeBlock_error hb maps
      exact ⟨e, by rw [he]⟩
    · rw [consumeBlock_ok hb]
      refine ih ?_ _
      simpa [hb] using h

/-- Only the history can tell that a block was read twice. -/
theorem step_twice {maps : Maps F} {b : Block F}
    (h : historyLimit ≤ 1 ∨
      ¬RecordsReading fromisoformat (step historyLimit fromisoformat maps b) b) :
    step historyLimit fromisoformat (step historyLimit fromisoformat maps b) b =
      step historyLimit fromisoformat maps b := by
  by_cases hactor : b.event.actor.1 = []
  · simp [step, consumeBlock, hactor]
  cases hp : parseTimestamp fromisoformat b.timestamp with
  | error e => simp [step, consumeBlock, hactor, hp]
  | ok t =>
    cases t with
    | none => simp [step, consumeBlock, hactor, hp]
    | some t =>
      have hstep (maps : Maps F) : step historyLimit fromisoformat maps b =
          consumeReading historyLimit (see maps b.event.actor.1 t) b.event.actor.1 b.event t := by
        simp [step, consumeBlock, hactor, hp]
      rw [hstep maps] at h ⊢
      rw [hstep, see_of_lastSeen (consumeReading_lastSeen ..)]
      exact consumeReading_twice (h.imp_right fun hr hrec => hr ⟨hactor, t, hp, hrec⟩)

end Consume

/-- The ledger, the cache, and whether the last step was a refresh that succeeded. -/
structure Poller (F : Type) [NumberFloat F] where
  chain : Chain F
  cache : LedgerActivity F
  upToDate : Bool

def Poller.start (chain : Chain F) : Poller F :=
  ⟨chain, .new, false⟩

section Poll
variable (depth historyLimit : ℕ) (fromisoformat : Bytes → Option DateTime)
  (Allowed : Chain F → LedgerActivity F → Prop)

/-- Appends, polls that reach storage-core, and polls that do not. -/
inductive Poll : Poller F → Poller F → Prop
  | append (w : Poller F) (b : Block F) (hroom : w.chain.size + 1 < 2 ^ 64) :
    Poll w ⟨w.chain.pushPersisted b, w.cache, false⟩
  | refresh (w : Poller F) (h : Allowed w.chain w.cache) :
    Poll w ⟨w.chain, (w.cache.refresh historyLimit fromisoformat (w.cache.fetch depth w.chain)).1,
      decide ((w.cache.refresh historyLimit fromisoformat (w.cache.fetch depth w.chain)).2 = .refreshed)⟩
  | outage (w : Poller F) (fetched : Fetched F)
      (h : fetched = .failed ∨ ∃ code, code ≠ 400 ∧ fetched = .status code) :
    Poll w ⟨w.chain, (w.cache.refresh historyLimit fromisoformat fetched).1, false⟩

/-- A poll that reads no recorded reading again, or whose history could not tell. -/
def Harmless (chain : Chain F) (cache : LedgerActivity F) : Prop :=
  historyLimit ≤ 1 ∨ cache.nextIndex = 0 ∨ ∀ b, chain.blocks[cache.nextIndex - 1]? = some b →
    ¬RecordsReading fromisoformat cache.maps b

def fullScan (chain : Chain F) : LedgerActivity F :=
  (LedgerActivity.new.refresh historyLimit fromisoformat (LedgerActivity.new.fetch depth chain)).1

/-- What consuming the blocks of a chain from the start gives. -/
abbrev consumed (blocks : List (Block F)) : Maps F :=
  blocks.foldl (step historyLimit fromisoformat) LedgerActivity.new.maps

/-- The cache holds the blocks before its cursor, unless a later block keeps every poll from
succeeding. -/
structure Synced (w : Poller F) : Prop where
  room : w.chain.size < 2 ^ 64
  bound : w.cache.nextIndex ≤ w.chain.size
  maps : (∀ b ∈ w.chain.blocks.take w.cache.nextIndex, ¬Unreadable depth fromisoformat b) ∧
      w.cache.maps = consumed historyLimit fromisoformat (w.chain.blocks.take w.cache.nextIndex) ∨
    ∃ b ∈ w.chain.blocks.drop w.cache.nextIndex, Unreadable depth fromisoformat b
  upToDate : w.upToDate = true → (∀ b ∈ w.chain.blocks, ¬Unreadable depth fromisoformat b) ∧
    w.cache.maps = consumed historyLimit fromisoformat w.chain.blocks

variable {depth historyLimit fromisoformat}

theorem Synced.start {chain : Chain F} (h : chain.size < 2 ^ 64) :
    Synced depth historyLimit fromisoformat (Poller.start chain) where
  room := h
  bound := Nat.zero_le _
  maps := Or.inl ⟨by simp [Poller.start, LedgerActivity.new], rfl⟩
  upToDate h := by cases h

theorem refresh_outage {cache : LedgerActivity F} {fetched : Fetched F}
    (h : fetched = .failed ∨ ∃ code, code ≠ 400 ∧ fetched = .status code) :
    cache.refresh historyLimit fromisoformat fetched =
      ({ cache with reachable := false }, .unreachable) := by
  rcases h with rfl | ⟨code, hcode, rfl⟩
  · rfl
  · rw [LedgerActivity.refresh, if_neg hcode]

theorem answer_page {chain : Chain F} {lower : ℕ} (hlower : lower < chain.size)
    (hroom : chain.size < 2 ^ 64) (h : ∀ b ∈ chain.blocks.drop lower, ¬Deep depth b) :
    answer depth chain lower = .page ⟨chain.blocks.drop lower, chain.size⟩ := by
  rw [answer, installBlocks_tail hlower hroom]
  exact decodePayload_page (List.drop_eq_nil_iff.not.mpr hlower.not_ge) h

theorem answer_deep {chain : Chain F} {lower : ℕ} (hlower : lower < chain.size)
    (hroom : chain.size < 2 ^ 64) (h : ∃ b ∈ chain.blocks.drop lower, Deep depth b) :
    answer depth chain lower = .recursionError := by
  rw [answer, installBlocks_tail hlower hroom]
  exact decodePayload_deep h

theorem cursor_lt {chain : Chain F} {n : ℕ} (h : n ≤ chain.size) : n - 1 < chain.size := by
  have hpos : 0 < chain.size := List.length_pos_of_ne_nil chain.ne_nil
  omega

theorem refresh_fetch_deep {chain : Chain F} {cache : LedgerActivity F}
    (hroom : chain.size < 2 ^ 64) (hbound : cache.nextIndex ≤ chain.size)
    (h : ∃ b ∈ chain.blocks.drop (cache.nextIndex - 1), Deep depth b) :
    cache.refresh historyLimit fromisoformat (cache.fetch depth chain) =
      (cache, .raised .recursion) := by
  rw [LedgerActivity.fetch, answer_deep (cursor_lt hbound) hroom h]
  rfl

theorem refresh_fetch_overflow {chain : Chain F} {cache : LedgerActivity F}
    (hroom : chain.size < 2 ^ 64) (hbound : cache.nextIndex ≤ chain.size)
    (hshallow : ∀ b ∈ chain.blocks.drop (cache.nextIndex - 1), ¬Deep depth b)
    (h : ∃ b ∈ chain.blocks.drop (cache.nextIndex - 1), Overflows fromisoformat b) :
    ∃ maps e, cache.refresh historyLimit fromisoformat (cache.fetch depth chain) =
      (⟨maps, cache.nextIndex, true⟩, .raised (.overflow e)) := by
  obtain ⟨e, he⟩ : ∃ e, (consumeBlocks historyLimit fromisoformat cache.maps _).2 = some e :=
    consumeBlocks_raised h cache.maps
  rw [LedgerActivity.fetch, answer_page (cursor_lt hbound) hroom hshallow, LedgerActivity.refresh]
  rcases hc : consumeBlocks historyLimit fromisoformat cache.maps
    (chain.blocks.drop (cache.nextIndex - 1)) with ⟨maps, o⟩
  rw [hc] at he
  obtain rfl : o = some e := he
  exact ⟨maps, e, rfl⟩

theorem refresh_fetch_raised {chain : Chain F} {cache : LedgerActivity F}
    (hroom : chain.size < 2 ^ 64) (hbound : cache.nextIndex ≤ chain.size)
    (h : ∃ b ∈ chain.blocks.drop (cache.nextIndex - 1), Unreadable depth fromisoformat b) :
    ∃ maps reachable e, cache.refresh historyLimit fromisoformat (cache.fetch depth chain) =
      (⟨maps, cache.nextIndex, reachable⟩, .raised e) := by
  by_cases hdeep : ∃ b ∈ chain.blocks.drop (cache.nextIndex - 1), Deep depth b
  · exact ⟨cache.maps, cache.reachable, .recursion, refresh_fetch_deep hroom hbound hdeep⟩
  · have hshallow : ∀ b ∈ chain.blocks.drop (cache.nextIndex - 1), ¬Deep depth b :=
      fun b hb hd => hdeep ⟨b, hb, hd⟩
    obtain ⟨b, hb, hbad⟩ := h
    obtain ⟨maps, e, hr⟩ :
        ∃ maps e, cache.refresh historyLimit fromisoformat (cache.fetch depth chain) = _ :=
      refresh_fetch_overflow hroom hbound hshallow ⟨b, hb, hbad.resolve_left (hshallow b hb)⟩
    exact ⟨maps, true, .overflow e, hr⟩

theorem refresh_fetch_ok {chain : Chain F} {cache : LedgerActivity F}
    (hroom : chain.size < 2 ^ 64) (hbound : cache.nextIndex ≤ chain.size)
    (h : ∀ b ∈ chain.blocks.drop (cache.nextIndex - 1), ¬Unreadable depth fromisoformat b) :
    cache.refresh historyLimit fromisoformat (cache.fetch depth chain) =
      (⟨(chain.blocks.drop (cache.nextIndex - 1)).foldl (step historyLimit fromisoformat)
        cache.maps, chain.size, true⟩, .refreshed) := by
  have hshallow : ∀ b ∈ chain.blocks.drop (cache.nextIndex - 1), ¬Deep depth b :=
    fun b hb hd => h b hb (Or.inl hd)
  rw [LedgerActivity.fetch, answer_page (cursor_lt hbound) hroom hshallow, LedgerActivity.refresh,
    consumeBlocks_ok fun b hb ho => h b hb (Or.inr ho)]

/-- The poll starts one block before the cursor; the fold over the whole chain does not notice. -/
theorem consumed_resume {w : Poller F} (h : Harmless historyLimit fromisoformat w.chain w.cache)
    (hmaps : w.cache.maps =
      consumed historyLimit fromisoformat (w.chain.blocks.take w.cache.nextIndex)) :
    (w.chain.blocks.drop (w.cache.nextIndex - 1)).foldl (step historyLimit fromisoformat)
      w.cache.maps = consumed historyLimit fromisoformat w.chain.blocks := by
  rw [hmaps]
  cases hn : w.cache.nextIndex with
  | zero => rfl
  | succ n =>
    refine foldl_resume fun b hb => ?_
    have htake : w.chain.blocks.take (n + 1) = w.chain.blocks.take n ++ [b] := by
      rw [List.take_add_one, hb]
      rfl
    rw [hn] at hmaps
    rw [htake, List.foldl_append]
    refine step_twice (h.imp_right fun h => ?_)
    have hb' := (h.resolve_left (by omega)) b (by rw [hn]; exact hb)
    rwa [hmaps, htake, consumed, List.foldl_append] at hb'

theorem Synced.refresh {w : Poller F} (hs : Synced depth historyLimit fromisoformat w)
    (h : Harmless historyLimit fromisoformat w.chain w.cache) :
    Synced depth historyLimit fromisoformat
      ⟨w.chain, (w.cache.refresh historyLimit fromisoformat (w.cache.fetch depth w.chain)).1,
        decide ((w.cache.refresh historyLimit fromisoformat (w.cache.fetch depth w.chain)).2 =
          .refreshed)⟩ := by
  obtain ⟨room, bound, maps, -⟩ := hs
  have hsplit {b : Block F} (hb : b ∈ w.chain.blocks) :
      b ∈ w.chain.blocks.take w.cache.nextIndex ∨ b ∈ w.chain.blocks.drop w.cache.nextIndex := by
    rwa [← List.mem_append, List.take_append_drop]
  by_cases hov : ∃ b ∈ w.chain.blocks.drop (w.cache.nextIndex - 1), Unreadable depth fromisoformat b
  · obtain ⟨maps', reachable, e, hr⟩ :
        ∃ maps reachable e, w.cache.refresh historyLimit fromisoformat _ = _ :=
      refresh_fetch_raised room bound hov
    rw [hr]
    refine ⟨room, bound, Or.inr ?_, fun h => by simp at h⟩
    rcases maps with ⟨hclean, -⟩ | hdirty
    · obtain ⟨b, hb, hbo⟩ := hov
      exact ⟨b, (hsplit (List.mem_of_mem_drop hb)).resolve_left fun ht => hclean b ht hbo, hbo⟩
    · exact hdirty
  · have hno : ∀ b ∈ w.chain.blocks.drop (w.cache.nextIndex - 1), ¬Unreadable depth fromisoformat b :=
      fun b hb hbo => hov ⟨b, hb, hbo⟩
    have hsub : w.chain.blocks.drop w.cache.nextIndex ⊆
        w.chain.blocks.drop (w.cache.nextIndex - 1) :=
      List.drop_subset_drop_left _ (Nat.sub_le _ 1)
    obtain ⟨hclean, hmaps⟩ := maps.resolve_right fun ⟨b, hb, hbo⟩ => hno b (hsub hb) hbo
    have hall : ∀ b ∈ w.chain.blocks, ¬Unreadable depth fromisoformat b := fun b hb =>
      (hsplit hb).elim (hclean b) fun hd => hno b (hsub hd)
    rw [refresh_fetch_ok room bound hno, consumed_resume h hmaps]
    refine ⟨room, le_rfl, Or.inl ⟨fun b hb => hall b (List.mem_of_mem_take hb), ?_⟩,
      fun _ => ⟨hall, rfl⟩⟩
    exact congrArg _ (List.take_of_length_le le_rfl).symm

theorem Synced.step {w w' : Poller F} (hs : Synced depth historyLimit fromisoformat w)
    (h : Poll depth historyLimit fromisoformat (Harmless historyLimit fromisoformat) w w') :
    Synced depth historyLimit fromisoformat w' := by
  cases h with
  | append b hroom =>
    obtain ⟨room, bound, maps, -⟩ := hs
    refine ⟨by simpa using hroom, bound.trans (by simp), ?_, fun h => by cases h⟩
    simp only [Chain.pushPersisted_blocks, List.take_append_of_le_length bound,
      List.drop_append_of_le_length bound]
    refine maps.imp_right fun ⟨b', hb', hbo⟩ => ⟨b', List.mem_append_left _ hb', hbo⟩
  | refresh h => exact hs.refresh h
  | outage fetched h =>
    obtain ⟨room, bound, maps, -⟩ := hs
    rw [refresh_outage h]
    exact ⟨room, bound, maps, fun h => by cases h⟩

theorem Synced.run {chain : Chain F} (hroom : chain.size < 2 ^ 64) {w : Poller F}
    (h : Relation.ReflTransGen
      (Poll depth historyLimit fromisoformat (Harmless historyLimit fromisoformat)) (.start chain) w) :
    Synced depth historyLimit fromisoformat w := by
  induction h with
  | refl => exact .start hroom
  | tail _ hstep ih => exact ih.step hstep

/-- In a schedule whose polls read no recorded reading twice, a cache that is up to date answers
as one that scanned the ledger once. -/
theorem polling_equals_full_scan (exact : F → ℚ) {chain : Chain F} (hroom : chain.size < 2 ^ 64)
    {w : Poller F}
    (h : Relation.ReflTransGen
      (Poll depth historyLimit fromisoformat (Harmless historyLimit fromisoformat)) (.start chain) w)
    (hup : w.upToDate = true) :
    SameAnswers exact w.cache (fullScan depth historyLimit fromisoformat w.chain) := by
  have hs := Synced.run hroom h
  obtain ⟨hall, hmaps⟩ := hs.upToDate hup
  refine .of_maps (hmaps.trans ?_)
  have hdrop : ∀ b ∈ w.chain.blocks.drop (LedgerActivity.new (F := F).nextIndex - 1),
      ¬Unreadable depth fromisoformat b := fun b hb => hall b (List.mem_of_mem_drop hb)
  rw [fullScan, refresh_fetch_ok hs.room (Nat.zero_le _) hdrop]
  rfl

end Poll

/-- `fromisoformat` on the timestamp of the samples. -/
def sampleIso (raw : Bytes) : Option DateTime :=
  if raw = nowRfc3339 sampleClock then some ⟨63923817600000000, some 0⟩ else none

theorem sampleMetadata_valid :
    (Json.object [(ascii "sensor_id", .string (ascii "t1"))] : Json Numeral).Valid := by
  rw [Valid, ValidMembers, ValidMembers, Valid]
  exact ⟨List.pairwise_singleton .., ⟨by decide, by decide⟩, trivial⟩

def sampleReadingEvent : EventPayload Numeral where
  eventType := ⟨ascii "SENSOR_READING", by decide⟩
  locationId := (sampleEvent (F := Numeral)).locationId
  actor := ⟨ascii "node-1", by decide⟩
  description := ⟨ascii "temperature", by decide⟩
  metadata := ⟨.object [(ascii "sensor_id", .string (ascii "t1"))], sampleMetadata_valid⟩

def sampleReadingChain : Chain Numeral :=
  sampleChain.pushPersisted
    (makeBlock sampleSha256 sampleClock 1 sampleReadingEvent sampleGenesis.hash)

theorem readable_of_timestamp {b : Block Numeral} (h : b.timestamp = nowRfc3339 sampleClock)
    (hshallow : ¬Deep 1000 b) : ¬Unreadable 1000 sampleIso b := by
  rintro (hdeep | ⟨-, e, he⟩)
  · exact hshallow hdeep
  · simp [parseTimestamp, sampleIso, h, endOfTime] at he

theorem sampleReadingChain_shallow : ∀ b ∈ sampleReadingChain.blocks, ¬Deep 1000 b := by
  decide

theorem sampleReadingChain_readable :
    ∀ b ∈ sampleReadingChain.blocks, ¬Unreadable 1000 sampleIso b := by
  intro b hb
  refine readable_of_timestamp ?_ (sampleReadingChain_shallow b hb)
  rcases List.mem_append.mp hb with hb | hb
  · rw [List.mem_singleton.mp hb]
    rfl
  · rw [List.mem_singleton.mp hb]
    rfl

theorem sampleReadingChain_refresh {historyLimit : ℕ} {cache : LedgerActivity Numeral}
    (h : cache.nextIndex ≤ 2) :
    cache.refresh historyLimit sampleIso (cache.fetch 1000 sampleReadingChain) =
      (⟨(sampleReadingChain.blocks.drop (cache.nextIndex - 1)).foldl (step historyLimit sampleIso)
        cache.maps, 2, true⟩, .refreshed) :=
  refresh_fetch_ok (show sampleReadingChain.size < 2 ^ 64 by decide) h fun b hb =>
    sampleReadingChain_readable b (List.mem_of_mem_drop hb)

theorem poll_sampleReadingChain (Allowed : Chain Numeral → LedgerActivity Numeral → Prop)
    (cache : LedgerActivity Numeral) (h : Allowed sampleReadingChain cache)
    (hn : cache.nextIndex ≤ 2) (upToDate : Bool) :
    Poll 1000 500 sampleIso Allowed ⟨sampleReadingChain, cache, upToDate⟩
      ⟨sampleReadingChain, ⟨(sampleReadingChain.blocks.drop (cache.nextIndex - 1)).foldl
        (step 500 sampleIso) cache.maps, 2, true⟩, true⟩ := by
  have hpoll : Poll 1000 500 sampleIso Allowed ⟨sampleReadingChain, cache, upToDate⟩ _ :=
    .refresh _ h
  rw [sampleReadingChain_refresh hn] at hpoll
  exact hpoll

def genesisCache : LedgerActivity Numeral :=
  ⟨step 500 sampleIso LedgerActivity.new.maps sampleGenesis, 1, true⟩

theorem poll_sampleChain : Poll 1000 500 sampleIso (Harmless 500 sampleIso)
    (.start sampleChain) ⟨sampleChain, genesisCache, true⟩ := by
  have hrefresh : LedgerActivity.new.refresh 500 sampleIso
      (LedgerActivity.new.fetch 1000 sampleChain) = (genesisCache, .refreshed) :=
    refresh_fetch_ok (show sampleChain.size < 2 ^ 64 by decide) (Nat.zero_le _) fun b hb =>
      sampleReadingChain_readable b (List.mem_append_left _ (List.mem_of_mem_drop hb))
  have hpoll : Poll 1000 500 sampleIso (Harmless 500 sampleIso) (.start sampleChain) _ :=
    .refresh _ (Or.inr (Or.inl rfl))
  simp only [Poller.start, hrefresh] at hpoll
  exact hpoll

theorem harmless_genesisCache : Harmless 500 sampleIso sampleReadingChain genesisCache := by
  right
  right
  intro b hb hrecords
  obtain rfl : sampleGenesis = b := Option.some.inj hb
  obtain ⟨-, t, -, htype, -⟩ := hrecords
  exact absurd htype (by decide)

/-- A poll, a reading that is appended, and a poll that starts at the block before it. -/
theorem polling_equals_full_scan_sample :
    ∃ w : Poller Numeral, Relation.ReflTransGen (Poll 1000 500 sampleIso (Harmless 500 sampleIso))
        (.start sampleChain) ⟨sampleReadingChain, genesisCache, false⟩ ∧
      Poll 1000 500 sampleIso (Harmless 500 sampleIso)
        ⟨sampleReadingChain, genesisCache, false⟩ w ∧ w.cache.nextIndex = 2 ∧
      SameAnswers (fun _ => 0) w.cache (fullScan 1000 500 sampleIso w.chain) ∧
      (w.cache.readings (fun _ => 0) (ascii "node-1") none none 500).map List.length = some 1 := by
  have hroom : sampleChain.size < 2 ^ 64 := by decide
  have happend : Poll 1000 500 sampleIso (Harmless 500 sampleIso)
      ⟨sampleChain, genesisCache, true⟩ ⟨sampleReadingChain, genesisCache, false⟩ :=
    .append _ _ (by decide)
  have hsecond := poll_sampleReadingChain (Harmless 500 sampleIso) genesisCache
    harmless_genesisCache (by decide) false
  have hrun := (Relation.ReflTransGen.single poll_sampleChain).tail happend
  refine ⟨_, hrun, hsecond, rfl, polling_equals_full_scan _ hroom (hrun.tail hsecond) rfl, ?_⟩
  decide

/-- Two polls with nothing new between them, and the reading is there twice. -/
theorem repeated_poll_repeats_reading :
    ¬ ∀ w : Poller Numeral, Relation.ReflTransGen (Poll 1000 500 sampleIso fun _ _ => True)
      (.start sampleReadingChain) w → w.upToDate = true →
      SameAnswers (fun _ => 0) w.cache (fullScan 1000 500 sampleIso w.chain) := by
  intro h
  have hfirst := poll_sampleReadingChain (fun _ _ => True) .new trivial
    (Nat.zero_le 2) false
  have hsame := h _ (.tail (.single hfirst) (poll_sampleReadingChain _ _ trivial le_rfl true)) rfl
  have hreadings := congrArg (Option.map List.length)
    (hsame.readings (ascii "node-1") (some (ascii "t1")) none 500)
  rw [fullScan, sampleReadingChain_refresh (Nat.zero_le 2)] at hreadings
  revert hreadings
  decide

end Ledger.Backend

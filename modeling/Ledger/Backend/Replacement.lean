import Ledger.Backend.Readers
import Ledger.Backend.Cursor
import Ledger.System.KeyedSort

/-! A ledger that was replaced behind the cache: what the cache goes on holding of the old one. -/
namespace Ledger.Backend
open Text Json
variable {F : Type}

/-- The queries agree. -/
structure SameQueries (exact : F → ℚ) (a b : LedgerActivity F) : Prop where
  lastSeen : ∀ deviceId, a.lastSeen deviceId = b.lastSeen deviceId
  knownActors : ∀ deviceId, deviceId ∈ a.knownActors ↔ deviceId ∈ b.knownActors
  latestReading : ∀ deviceId sensorId,
    a.latestReading deviceId sensorId = b.latestReading deviceId sensorId
  cameraState : ∀ deviceId sensorId,
    a.cameraState deviceId sensorId = b.cameraState deviceId sensorId
  readings : ∀ deviceId sensorId since limit,
    a.readings exact deviceId sensorId since limit = b.readings exact deviceId sensorId since limit

section Sorting
variable {exact : F → ℚ}

def sortKey (r : Reading F) : ℤ ×ₗ List ℕ :=
  toLex (r.timestamp, keyOrder r.sensorId)

theorem followsKey_readingLess :
    FollowsKey sortKey fun r s : Reading F => readingLess exact s r ≠ some true where
  of_lt r s h := by
    rcases Prod.Lex.toLex_lt_toLex.mp h with ht | ⟨ht, hid⟩
    · simp [readingLess, ht.ne', ht.le]
    · have hne : s.sensorId ≠ r.sensorId := by
        intro heq
        simp [heq] at hid
      simp [readingLess, show s.timestamp = r.timestamp from ht.symm, hne, hid.le]
  of_gt r s h := by
    rw [not_not]
    rcases Prod.Lex.toLex_lt_toLex.mp h with ht | ⟨ht, hid⟩
    · simp only [] at ht
      simp [readingLess, ht.ne, ht]
    · have hne : s.sensorId ≠ r.sensorId := by
        intro heq
        simp [heq] at hid
      simp [readingLess, show s.timestamp = r.timestamp from ht, hne, hid]

theorem sortReadings_congr {rs ss : List (Reading F)}
    (h : ∀ k, rs.filter (sortKey · = k) = ss.filter (sortKey · = k)) :
    sortReadings exact rs = sortReadings exact ss := by
  have hmem (r : Reading F) : r ∈ rs ↔ r ∈ ss := by
    have hr : r ∈ rs.filter (sortKey · = sortKey r) ↔ r ∈ ss.filter (sortKey · = sortKey r) := by
      rw [h]
    simpa only [List.mem_filter, decide_true, and_true] using hr
  have hall : (rs.all fun r => rs.all fun s => (readingLess exact r s).isSome) =
      ss.all fun r => ss.all fun s => (readingLess exact r s).isSome := by
    rw [Bool.eq_iff_iff]
    simp only [List.all_eq_true, hmem]
  have hsort : rs.insertionSort (fun r s => readingLess exact s r ≠ some true) =
      ss.insertionSort fun r s => readingLess exact s r ≠ some true := by
    apply insertionSort_eq_of_filter_eq followsKey_readingLess
    intro k
    convert h k
  rw [sortReadings, sortReadings, hall, hsort]

theorem filter_flatMap_of_nodup {κ α : Type} {keys : List κ} (hnodup : keys.Nodup)
    {f : κ → List α} {p : α → Bool} {k : κ} (hother : ∀ l ∈ keys, l ≠ k → (f l).filter p = [])
    (habsent : k ∉ keys → f k = []) : (keys.flatMap f).filter p = (f k).filter p := by
  induction keys with
  | nil => rw [habsent List.not_mem_nil]; rfl
  | cons l keys ih =>
    obtain ⟨hl, hnodup⟩ := List.nodup_cons.mp hnodup
    rw [List.flatMap_cons, List.filter_append]
    by_cases hlk : l = k
    · subst hlk
      have hrest : (keys.flatMap f).filter p = [] := by
        rw [List.filter_flatMap, List.flatMap_eq_nil_iff]
        intro m hm
        exact hother m (List.mem_cons_of_mem _ hm) (by rintro rfl; exact hl hm)
      rw [hrest, List.append_nil]
    · rw [hother l List.mem_cons_self hlk, List.nil_append]
      apply ih hnodup fun m hm => hother m (List.mem_cons_of_mem _ hm)
      intro hk
      exact habsent (by simp [hk, Ne.symm hlk])

/-- One history for each sensor, of readings of that sensor. -/
structure Maps.Tidy (maps : Maps F) : Prop where
  keys : (maps.history.map Prod.fst).Nodup
  sensorId : ∀ key, ∀ r ∈ (maps.shelf key).history, r.sensorId = key.2

theorem Maps.Tidy.filter_collected {maps : Maps F} (h : maps.Tidy) (deviceId : Bytes)
    (p : Reading F → Bool) (k : ℤ ×ₗ List ℕ) :
    (((maps.history.map Prod.fst).filter fun key => key.1 = deviceId).flatMap fun key =>
      ((maps.history.get key).getD []).filter p).filter (sortKey · = k) =
    ((maps.shelf (deviceId, (ofLex k).2.map UInt8.ofNat)).history.filter p).filter
      (sortKey · = k) := by
  apply filter_flatMap_of_nodup (h.keys.filter _)
  · intro key hkey hne
    rw [List.filter_eq_nil_iff]
    intro r hr hsort
    apply hne
    have hr' : r ∈ (maps.shelf key).history := List.mem_of_mem_filter hr
    have hkey' : key.1 = deviceId := by simpa using (List.mem_filter.mp hkey).2
    have hid : (ofLex k).2.map UInt8.ofNat = r.sensorId := by
      have hinverse : UInt8.ofNat ∘ UInt8.toNat = id := funext fun _ => UInt8.ofNat_toNat
      rw [← of_decide_eq_true hsort]
      simp [sortKey, keyOrder, hinverse]
    rw [hid, h.sensorId key r hr', ← hkey']
  · intro habsent
    have hnone : ¬(maps.history.get (deviceId, (ofLex k).2.map UInt8.ofNat)).isSome = true := by
      rw [← Dict.mem_keys_iff]
      intro hmem
      exact habsent (List.mem_filter.mpr ⟨hmem, by simp⟩)
    rw [Bool.not_eq_true, Option.isSome_eq_false_iff, Option.isNone_iff_eq_none] at hnone
    rw [hnone]
    rfl

theorem readings_congr {a b : LedgerActivity F} (ha : a.maps.Tidy) (hb : b.maps.Tidy)
    (h : ∀ key, (a.maps.shelf key).history = (b.maps.shelf key).history) (deviceId : Bytes)
    (sensorId : Option Bytes) (since : Option ℤ) (limit : ℤ) :
    a.readings exact deviceId sensorId since limit =
      b.readings exact deviceId sensorId since limit := by
  unfold LedgerActivity.readings
  dsimp only
  congr 1
  apply sortReadings_congr
  intro k
  cases sensorId with
  | some sensorId =>
    have hshelf : (a.maps.history.get (deviceId, sensorId)).getD [] =
        (b.maps.history.get (deviceId, sensorId)).getD [] := h (deviceId, sensorId)
    simp only [List.flatMap_cons, List.flatMap_nil, hshelf]
  | none => rw [ha.filter_collected, hb.filter_collected, h]

end Sorting

theorem Maps.Tidy.new : (LedgerActivity.new : LedgerActivity F).maps.Tidy :=
  ⟨List.nodup_nil, by simp [Maps.shelf, LedgerActivity.new, Dict.get]⟩

theorem see_history (maps : Maps F) (actor : Bytes) (t : ℤ) :
    (see maps actor t).history = maps.history := by
  unfold see
  split_ifs <;> rfl

variable [NumberFloat F] {depth historyLimit : ℕ} {fromisoformat : Bytes → Option DateTime}

theorem step_history (maps : Maps F) (b : Block F) :
    (step historyLimit fromisoformat maps b).history = maps.history ∨
      ∃ key history, (step historyLimit fromisoformat maps b).history =
        maps.history.set key history := by
  rw [step_eq]
  cases sighting fromisoformat b with
  | none => exact Or.inl rfl
  | some t =>
    rw [Option.elim_some, ← see_history maps b.event.actor.1 t]
    generalize see maps b.event.actor.1 t = maps
    unfold consumeReading consumeCameraEvent
    cases sensorOf b.event with
    | none =>
      left
      split_ifs <;> rfl
    | some sensor =>
      dsimp only
      split_ifs
      · exact Or.inl rfl
      · exact Or.inl rfl
      · exact Or.inl rfl
      · exact Or.inr ⟨_, _, rfl⟩
      · exact Or.inl rfl

theorem Maps.Tidy.step {maps : Maps F} (h : maps.Tidy) (b : Block F) :
    (step historyLimit fromisoformat maps b).Tidy := by
  constructor
  · obtain heq | ⟨key, history, heq⟩ : (Backend.step historyLimit fromisoformat maps b).history =
        maps.history ∨ ∃ key history, _ := step_history maps b
    · rw [heq]
      exact h.keys
    · rw [heq]
      exact Dict.nodup_keys_set h.keys key history
  · intro key r hr
    rw [step_shelf] at hr
    cases hb : readingOf fromisoformat key b with
    | none =>
      rw [hb] at hr
      exact h.sensorId key r hr
    | some s =>
      rw [hb, Option.elim_some, Shelf.add] at hr
      split_ifs at hr
      · exact h.sensorId key r hr
      · rcases List.mem_append.mp (List.mem_of_mem_drop hr) with hr | hr
        · exact h.sensorId key r hr
        · rw [List.mem_singleton.mp hr]
          exact readingOf_sensorId hb

theorem Maps.Tidy.foldl {maps : Maps F} (h : maps.Tidy) (blocks : List (Block F)) :
    (blocks.foldl (Backend.step historyLimit fromisoformat) maps).Tidy := by
  induction blocks generalizing maps with
  | nil => exact h
  | cons b blocks ih => exact ih (h.step b)

theorem Maps.Tidy.consumeBlocks {maps : Maps F} (h : maps.Tidy) (blocks : List (Block F)) :
    (consumeBlocks historyLimit fromisoformat maps blocks).1.Tidy := by
  induction blocks generalizing maps with
  | nil => exact h
  | cons b blocks ih =>
    by_cases hb : Overflows fromisoformat b
    · obtain ⟨e, he⟩ : ∃ e, consumeBlock historyLimit fromisoformat maps b = .error e :=
        consumeBlock_error hb maps
      rw [Backend.consumeBlocks, he]
      exact h
    · rw [Backend.consumeBlocks, consumeBlock_ok hb]
      exact ih (h.step b)

theorem Maps.Tidy.refresh {a : LedgerActivity F} (h : a.maps.Tidy) (fetched : Fetched F) :
    (a.refresh historyLimit fromisoformat fetched).1.maps.Tidy := by
  cases fetched with
  | failed => exact h
  | recursionError => exact h
  | status code =>
    rw [LedgerActivity.refresh]
    split_ifs <;> exact h
  | page payload =>
    have hconsumed : (Backend.consumeBlocks historyLimit fromisoformat a.maps
        payload.blocks).1.Tidy := h.consumeBlocks payload.blocks
    rw [LedgerActivity.refresh]
    revert hconsumed
    rcases Backend.consumeBlocks historyLimit fromisoformat a.maps payload.blocks with
      ⟨maps, _ | e⟩ <;> exact id

theorem Maps.Tidy.run {chain : Chain F} {w : Poller F}
    (hrun : Relation.ReflTransGen (Poll depth historyLimit fromisoformat fun _ _ => True)
      (.start chain) w) : w.cache.maps.Tidy := by
  induction hrun with
  | refl => exact .new
  | tail _ hstep ih =>
    cases hstep with
    | append b hroom => exact ih
    | refresh _ => exact ih.refresh _
    | outage fetched hf => exact ih.refresh _

omit [NumberFloat F] in
theorem foldl_add_eq {first second : Shelf F} {rs newest : List (Reading F)}
    (h : newest <:+ ascending Reading.timestamp rs) (hne : newest ≠ [])
    (hlength : historyLimit ≤ newest.length)
    (hfirst : ∀ r ∈ newest, ∀ s ∈ first.latest, s.timestamp ≤ r.timestamp)
    (hsecond : ∀ r ∈ newest, ∀ s ∈ second.latest, s.timestamp ≤ r.timestamp) :
    rs.foldl (Shelf.add historyLimit) first = rs.foldl (Shelf.add historyLimit) second := by
  have hhistory {shelf : Shelf F}
      (hshelf : ∀ r ∈ newest, ∀ s ∈ shelf.latest, s.timestamp ≤ r.timestamp) :
      (if ascendingFrom Reading.timestamp shelf.latest rs = [] then shelf.history
        else (shelf.history ++ ascendingFrom Reading.timestamp shelf.latest rs).rtake
          historyLimit) = newest.rtake historyLimit := by
    have hsuffix := suffix_ascendingFrom h hshelf
    have hnil : ascendingFrom Reading.timestamp shelf.latest rs ≠ [] := by
      intro hnil
      rw [hnil, List.suffix_nil] at hsuffix
      exact hne hsuffix
    rw [if_neg hnil]
    exact rtake_of_suffix (hsuffix.trans (List.suffix_append ..)) hlength
  obtain ⟨r, hr⟩ := List.exists_mem_of_ne_nil newest hne
  have hlatest : rs.foldl (renew Reading.timestamp) first.latest =
      rs.foldl (renew Reading.timestamp) second.latest := by
    rw [foldl_renew_eq_iff]
    exact Or.inr ⟨r, mem_of_mem_ascending (h.subset hr), hfirst r hr, hsecond r hr⟩
  rw [foldl_add, foldl_add, hhistory hfirst, hhistory hsecond, hlatest]

omit [NumberFloat F] in
theorem foldl_announce_le {cs : List (CameraState F)} {previous : Option (CameraState F)} {t : ℤ}
    (hprevious : ∀ c ∈ previous, c.timestamp ≤ t) (hcs : ∀ c ∈ cs, c.timestamp ≤ t) :
    ∀ c ∈ cs.foldl announce previous, c.timestamp ≤ t := by
  induction cs generalizing previous with
  | nil => exact hprevious
  | cons c cs ih =>
    rw [List.forall_mem_cons] at hcs
    apply ih _ hcs.2
    unfold announce
    split_ifs
    · exact hprevious
    · intro d hd
      rw [← Option.some.inj hd]
      exact hcs.1

omit [NumberFloat F] in
theorem foldl_announce_url {cs : List (CameraState F)} {previous : Option (CameraState F)}
    (hcs : ∀ c ∈ cs, c.streamUrl = none) :
    (cs.foldl announce previous).bind CameraState.streamUrl =
      previous.bind CameraState.streamUrl := by
  induction cs generalizing previous with
  | nil => rfl
  | cons c cs ih =>
    rw [List.forall_mem_cons] at hcs
    rw [List.foldl_cons, ih hcs.2, announce]
    split_ifs
    · rfl
    · simp [hcs.1]

omit [NumberFloat F] in
theorem foldl_announce_eq {first second : Option (CameraState F)}
    {before after : List (CameraState F)} {e : CameraState F}
    (hbefore : ∀ c ∈ before, c.timestamp ≤ e.timestamp)
    (hfirst : ∀ c ∈ first, c.timestamp ≤ e.timestamp)
    (hsecond : ∀ c ∈ second, c.timestamp ≤ e.timestamp)
    (hurl : e.streamUrl.isSome ∨ first.bind CameraState.streamUrl =
      second.bind CameraState.streamUrl ∧ ∀ c ∈ before, c.streamUrl = none) :
    (before ++ e :: after).foldl announce first = (before ++ e :: after).foldl announce second := by
  have hannounce {previous : Option (CameraState F)}
      (h : ∀ c ∈ previous, c.timestamp ≤ e.timestamp) :
      announce (before.foldl announce previous) e = some { e with
        streamUrl := e.streamUrl.or ((before.foldl announce previous).bind CameraState.streamUrl) } := by
    apply if_neg
    rw [isAfter_map_iff]
    rintro ⟨c, hc, hlt⟩
    exact absurd hlt (not_lt.mpr (foldl_announce_le h hbefore c hc))
  rw [List.foldl_append, List.foldl_append, List.foldl_cons, List.foldl_cons, hannounce hfirst,
    hannounce hsecond]
  congr 3
  rcases hurl with hurl | ⟨hurl, hnone⟩
  · obtain ⟨url, hurl⟩ := Option.isSome_iff_exists.mp hurl
    rw [hurl, Option.some_or, Option.some_or]
  · rw [foldl_announce_url hnone, foldl_announce_url hnone, hurl]

/-- The blocks of a ledger that a cache does not read, its cursor being where it is. -/
def skipped (chain : Chain F) (nextIndex : ℕ) : List (Block F) :=
  if nextIndex ≤ chain.size then chain.blocks.take (nextIndex - 1) else []

theorem skipped_append_unread (chain : Chain F) (nextIndex : ℕ) :
    skipped chain nextIndex ++ unread chain nextIndex = chain.blocks := by
  unfold skipped unread
  split_ifs
  · exact List.take_append_drop _ _
  · rfl

variable (depth historyLimit fromisoformat) in
/-- Every block can be read, and for every actor and every sensor the cache holds what the skipped
blocks would have left in it, or the unread blocks replace both: a sighting that is not older, as
many readings that are not older as the history holds, a camera event that is not older and says
where the stream is, unless nothing read before it does and both know the same stream. The last
block, which is read again, is no reading that goes into the history. -/
structure Overwritten (cache : LedgerActivity F) (chain : Chain F) : Prop where
  readable : ∀ b ∈ chain.blocks, ¬Unreadable depth fromisoformat b
  actors : ∀ actor,
    let held := cache.lastSeen actor
    let wanted := (consumed historyLimit fromisoformat (skipped chain cache.nextIndex)).lastSeen.get
      actor
    held = wanted ∨ ∃ t ∈ (unread chain cache.nextIndex).filterMap (sightingOf fromisoformat actor),
      (∀ s ∈ held, s ≤ t) ∧ ∀ s ∈ wanted, s ≤ t
  sensors : ∀ key,
    let held := cache.maps.shelf key
    let wanted := (consumed historyLimit fromisoformat (skipped chain cache.nextIndex)).shelf key
    held = wanted ∨ ∃ newest, newest <:+ ascending Reading.timestamp
        ((unread chain cache.nextIndex).filterMap (readingOf fromisoformat key)) ∧
      newest ≠ [] ∧ historyLimit ≤ newest.length ∧
      (∀ r ∈ newest, ∀ s ∈ held.latest, s.timestamp ≤ r.timestamp) ∧
      ∀ r ∈ newest, ∀ s ∈ wanted.latest, s.timestamp ≤ r.timestamp
  cameras : ∀ key,
    let held := cache.maps.camera.get key
    let wanted := (consumed historyLimit fromisoformat
      (skipped chain cache.nextIndex)).camera.get key
    held = wanted ∨ ∃ before e after,
      (unread chain cache.nextIndex).filterMap (cameraEventOf fromisoformat key) =
        before ++ e :: after ∧
      (∀ c ∈ before, c.timestamp ≤ e.timestamp) ∧ (∀ c ∈ held, c.timestamp ≤ e.timestamp) ∧
      (∀ c ∈ wanted, c.timestamp ≤ e.timestamp) ∧
      (e.streamUrl.isSome ∨ held.bind CameraState.streamUrl =
        wanted.bind CameraState.streamUrl ∧ ∀ c ∈ before, c.streamUrl = none)
  lastBlock : chain.size < cache.nextIndex ∨ historyLimit ≤ 1 ∨
    ∀ b ∈ chain.blocks.getLast?, ∀ key, ∀ r ∈ readingOf fromisoformat key b, ∃ s,
      (s ∈ (cache.maps.shelf key).latest ∨
        s ∈ (unread chain cache.nextIndex).filterMap (readingOf fromisoformat key)) ∧
      r.timestamp < s.timestamp

theorem RecordsReading.exists_readingOf {maps : Maps F} {b : Block F}
    (h : RecordsReading fromisoformat maps b) :
    ∃ key, ∃ r ∈ readingOf fromisoformat key b,
      ∀ s ∈ (maps.shelf key).latest, s.timestamp ≤ r.timestamp := by
  obtain ⟨hactor, t, ht, htype, ⟨metadata, sensorId⟩, hsensor, hafter⟩ := h
  have hsight : sighting fromisoformat b = some t := by
    rw [sighting, if_neg hactor, ht]
  have hreading : readingOf fromisoformat (b.event.actor.1, sensorId) b =
      some ⟨sensorId, getMember metadata "sensor_type", getMember metadata "value",
        getMember metadata "unit", getMember metadata "seq", t⟩ := by
    rw [readingOf, sensorEventOf_some hsight htype, hsensor, Option.bind_some, if_pos rfl]
    rfl
  refine ⟨_, _, hreading, ?_⟩
  intro s hs
  rw [isAfter_map_iff] at hafter
  exact not_lt.mp fun hlt => hafter ⟨s, hs, hlt⟩

theorem foldl_step_latest (maps : Maps F) (blocks : List (Block F)) (key : Key) :
    ((blocks.foldl (step historyLimit fromisoformat) maps).shelf key).latest =
      (blocks.filterMap (readingOf fromisoformat key)).foldl (renew Reading.timestamp)
        (maps.shelf key).latest := by
  rw [foldl_step_shelf, foldl_add]

/-- A block whose reading is older than what was there, or was read before it, records nothing. -/
theorem not_recordsReading_of_older {maps : Maps F} {blocks : List (Block F)} {b : Block F}
    (h : ∀ key, ∀ r ∈ readingOf fromisoformat key b, ∃ s,
      (s ∈ (maps.shelf key).latest ∨ s ∈ blocks.filterMap (readingOf fromisoformat key)) ∧
      r.timestamp < s.timestamp) :
    ¬RecordsReading fromisoformat (blocks.foldl (step historyLimit fromisoformat) maps) b := by
  intro hrec
  obtain ⟨key, r, hr, hnewest⟩ := hrec.exists_readingOf
  obtain ⟨s, hs, hlt⟩ := h key r hr
  obtain ⟨y, hy, hsy⟩ : ∃ y ∈ ((blocks.foldl (step historyLimit fromisoformat) maps).shelf
      key).latest, s.timestamp ≤ y.timestamp := by
    rw [foldl_step_latest]
    exact le_foldl_renew hs
  exact absurd (hlt.trans_le (hsy.trans (hnewest y hy))) (lt_irrefl _)

/-- The two refreshes leave what reading the unread blocks once leaves. -/
theorem Overwritten.refreshTwice_maps {cache : LedgerActivity F} {chain : Chain F}
    (h : Overwritten depth historyLimit fromisoformat cache chain) (hroom : chain.size < 2 ^ 64) :
    (cache.refreshTwice depth historyLimit fromisoformat chain).maps =
      (unread chain cache.nextIndex).foldl (step historyLimit fromisoformat) cache.maps := by
  have hclean (n : ℕ) : ∀ b ∈ chain.blocks.drop (n - 1), ¬Unreadable depth fromisoformat b :=
    fun b hb => h.readable b (List.mem_of_mem_drop hb)
  have hlast := h.lastBlock
  unfold unread at hlast ⊢
  split_ifs at hlast ⊢ with hle
  · -- the second refresh reads the last block again
    have hpos : 0 < chain.size := List.length_pos_of_ne_nil chain.ne_nil
    unfold LedgerActivity.refreshTwice
    rw [refresh_fetch_ok hroom hle (hclean _)]
    dsimp only
    rw [refresh_fetch_ok hroom le_rfl (hclean _)]
    dsimp only
    obtain ⟨init, b, hinit⟩ : ∃ init b, chain.blocks = init ++ [b] :=
      ⟨_, _, (List.dropLast_append_getLast chain.ne_nil).symm⟩
    have hsize : chain.size = init.length + 1 := by
      rw [Chain.size, hinit, List.length_append, List.length_singleton]
    have hdrop : chain.blocks.drop (chain.size - 1) = [b] := by
      rw [hsize, hinit, Nat.add_sub_cancel, List.drop_left]
    have hread : chain.blocks.drop (cache.nextIndex - 1) =
        init.drop (cache.nextIndex - 1) ++ [b] := by
      rw [hinit, List.drop_append_of_le_length (by omega)]
    rw [hdrop, List.foldl_cons, List.foldl_nil]
    have hstep : (chain.blocks.drop (cache.nextIndex - 1)).foldl
        (step historyLimit fromisoformat) cache.maps = step historyLimit fromisoformat
          ((init.drop (cache.nextIndex - 1)).foldl (step historyLimit fromisoformat) cache.maps)
          b := by
      rw [hread, List.foldl_concat]
    have hnot : historyLimit ≤ 1 ∨ ¬RecordsReading fromisoformat
        ((chain.blocks.drop (cache.nextIndex - 1)).foldl (step historyLimit fromisoformat)
          cache.maps) b := by
      refine (hlast.resolve_left (by omega)).imp_right fun hlast => ?_
      exact not_recordsReading_of_older (hlast b (by rw [hinit, List.getLast?_concat]; rfl))
    rw [hstep] at hnot ⊢
    exact step_twice hnot
  · rw [refreshTwice_past_end (Nat.lt_of_not_le hle), refresh_fetch_ok hroom (Nat.zero_le _)
      (hclean 0)]
    rfl

theorem fullScan_maps {chain : Chain F} (hroom : chain.size < 2 ^ 64)
    (h : ∀ b ∈ chain.blocks, ¬Unreadable depth fromisoformat b) :
    (fullScan depth historyLimit fromisoformat chain).maps =
      consumed historyLimit fromisoformat chain.blocks := by
  have hclean : ∀ b ∈ chain.blocks.drop ((LedgerActivity.new : LedgerActivity F).nextIndex - 1),
      ¬Unreadable depth fromisoformat b := fun b hb => h b (List.mem_of_mem_drop hb)
  rw [fullScan, refresh_fetch_ok hroom (Nat.zero_le _) hclean]
  rfl

/-- A cache whose contents the new ledger overwrites answers, after two refreshes, as one that
scanned the new ledger. -/
theorem replaced_ledger_forgotten (exact : F → ℚ) {old : Chain F} {w : Poller F}
    (hrun : Relation.ReflTransGen (Poll depth historyLimit fromisoformat fun _ _ => True)
      (.start old) w)
    {chain : Chain F} (hroom : chain.size < 2 ^ 64)
    (h : Overwritten depth historyLimit fromisoformat w.cache chain) :
    SameQueries exact (w.cache.refreshTwice depth historyLimit fromisoformat chain)
      (fullScan depth historyLimit fromisoformat chain) := by
  have hmaps := h.refreshTwice_maps hroom
  have hwanted : (fullScan depth historyLimit fromisoformat chain).maps =
      (unread chain w.cache.nextIndex).foldl (step historyLimit fromisoformat)
        (consumed historyLimit fromisoformat (skipped chain w.cache.nextIndex)) := by
    rw [fullScan_maps hroom h.readable, consumed, ← List.foldl_append, skipped_append_unread]
  have hlastSeen : ∀ deviceId,
      (w.cache.refreshTwice depth historyLimit fromisoformat chain).lastSeen deviceId =
        (fullScan depth historyLimit fromisoformat chain).lastSeen deviceId := by
    intro deviceId
    unfold LedgerActivity.lastSeen
    rw [hmaps, hwanted, foldl_step_lastSeen, foldl_step_lastSeen, laterOf_eq_renew,
      foldl_renew_eq_iff]
    exact h.actors deviceId
  have hshelf : ∀ key,
      (w.cache.refreshTwice depth historyLimit fromisoformat chain).maps.shelf key =
        (fullScan depth historyLimit fromisoformat chain).maps.shelf key := by
    intro key
    rw [hmaps, hwanted, foldl_step_shelf, foldl_step_shelf]
    obtain heq | ⟨newest, hsuffix, hne, hlength, hheld, hwanted⟩ := h.sensors key
    · rw [heq]
    · exact foldl_add_eq hsuffix hne hlength hheld hwanted
  constructor
  · exact hlastSeen
  · intro deviceId
    have hseen := hlastSeen deviceId
    unfold LedgerActivity.lastSeen at hseen
    unfold LedgerActivity.knownActors
    rw [Dict.mem_keys_iff, Dict.mem_keys_iff, hseen]
  · intro deviceId sensorId
    exact congrArg Shelf.latest (hshelf (deviceId, sensorId))
  · intro deviceId sensorId
    unfold LedgerActivity.cameraState
    rw [hmaps, hwanted, foldl_step_camera, foldl_step_camera]
    obtain heq | ⟨before, e, after, hsplit, hbefore, hheld, hwanted, hurl⟩ :=
      h.cameras (deviceId, sensorId)
    · rw [heq]
    · rw [hsplit]
      exact foldl_announce_eq hbefore hheld hwanted hurl
  · apply readings_congr
    · rw [hmaps]
      exact (Maps.Tidy.run hrun).foldl _
    · rw [fullScan_maps hroom h.readable]
      exact Maps.Tidy.new.foldl _
    · exact fun key => congrArg Shelf.history (hshelf key)

def earlierClock : Tm :=
  ⟨2026, 8, 31, 23, 59, 59⟩

/-- `fromisoformat` on the second before the sample, too. -/
def stepIso (raw : Bytes) : Option DateTime :=
  if raw = nowRfc3339 earlierClock then some ⟨63923817599000000, some 0⟩ else sampleIso raw

theorem stepIso_readsZulu : ReadsZulu stepIso where
  utc tm t h := by
    unfold stepIso at h
    split_ifs at h
    · rw [← Option.some.inj h]
      exact ⟨rfl, by decide, by decide⟩
    · exact sampleIso_readsZulu.utc tm t h

def replacedChain : Chain Numeral :=
  let chain : Chain Numeral := ⟨[genesis sampleSha256 earlierClock], by simp⟩
  let chain := chain.pushPersisted (buildNext sampleSha256 earlierClock chain sampleReadingEvent)
  chain.pushPersisted (buildNext sampleSha256 earlierClock chain sampleReadingEvent)

def staleCache : LedgerActivity Numeral :=
  ⟨replacedChain.blocks.foldl (step 1 stepIso) LedgerActivity.new.maps, 3, true⟩

theorem staleCache_maps : staleCache.maps =
    ⟨[(ascii "system", 63923817599000000), (ascii "node-1", 63923817599000000)],
      [((ascii "node-1", ascii "t1"), ⟨ascii "t1", .null, .null, .null, .null, 63923817599000000⟩)],
      [((ascii "node-1", ascii "t1"),
        [⟨ascii "t1", .null, .null, .null, .null, 63923817599000000⟩])], []⟩ := rfl

theorem replacedChain_readable : ∀ b ∈ replacedChain.blocks, ¬Unreadable 1000 stepIso b := by
  intro b hb
  simp only [replacedChain, Chain.pushPersisted_blocks, List.mem_append, List.mem_singleton] at hb
  obtain (rfl | rfl) | rfl := hb
  · exact stepIso_readsZulu.readable rfl (by decide)
  · exact stepIso_readsZulu.readable rfl (by decide)
  · exact stepIso_readsZulu.readable rfl (by decide)

theorem overwritten_staleCache : Overwritten 1000 1 stepIso staleCache sampleReadingChain where
  readable b hb := by
    rcases List.mem_append.mp hb with hb | hb
    · rw [List.mem_singleton.mp hb]
      exact stepIso_readsZulu.readable rfl (by decide)
    · rw [List.mem_singleton.mp hb]
      exact stepIso_readsZulu.readable rfl (by decide)
  actors actor := by
    by_cases hsystem : actor = ascii "system"
    · right
      rw [hsystem]
      exact ⟨63923817600000000, by decide, by decide, by decide⟩
    by_cases hnode : actor = ascii "node-1"
    · right
      rw [hnode]
      exact ⟨63923817600000000, by decide, by decide, by decide⟩
    · left
      rw [LedgerActivity.lastSeen, staleCache_maps]
      simp only [Dict.get, hsystem, hnode, if_false]
      rfl
  sensors key := by
    by_cases hkey : key = (ascii "node-1", ascii "t1")
    · right
      rw [hkey]
      refine ⟨[⟨ascii "t1", .null, .null, .null, .null, 63923817600000000⟩], ⟨[], rfl⟩,
        by simp, le_rfl, ?_, ?_⟩
      · rw [staleCache_maps]
        simp [Maps.shelf, Dict.get]
      · intro r hr s hs
        cases hs
    · left
      rw [staleCache_maps]
      simp only [Maps.shelf, Dict.get, hkey, if_false]
      rfl
  cameras key := Or.inl rfl
  lastBlock := Or.inl (by decide)

theorem replaced_ledger_forgotten_sample :
    SameQueries (fun _ => 0) (staleCache.refreshTwice 1000 1 stepIso sampleReadingChain)
        (fullScan 1000 1 stepIso sampleReadingChain) ∧
      staleCache.lastSeen (ascii "node-1") = some 63923817599000000 ∧
      (staleCache.refreshTwice 1000 1 stepIso sampleReadingChain).lastSeen (ascii "node-1") =
        some 63923817600000000 := by
  have hpoll : Poll 1000 1 stepIso (fun _ _ => True) (.start replacedChain) _ :=
    .refresh _ trivial
  have hrefresh : LedgerActivity.new.refresh 1 stepIso
      (LedgerActivity.new.fetch 1000 replacedChain) = (staleCache, .refreshed) :=
    refresh_fetch_ok (show replacedChain.size < 2 ^ 64 by decide) (Nat.zero_le _) fun b hb =>
      replacedChain_readable b (List.mem_of_mem_drop hb)
  simp only [Poller.start, hrefresh] at hpoll
  refine ⟨replaced_ledger_forgotten _ (.single hpoll) (by decide) overwritten_staleCache, ?_, ?_⟩
  · decide
  · decide

/-- A sensor of the old ledger is still known after the new one has been scanned. -/
theorem stale_actor_survives_replacement :
    ¬ ∀ (old chain : Chain Numeral) (w : Poller Numeral), chain.size < 2 ^ 64 →
      Relation.ReflTransGen (Poll 1000 500 sampleIso fun _ _ => True) (.start old) w →
      SameQueries (fun _ => 0) (w.cache.refreshTwice 1000 500 sampleIso chain)
        (fullScan 1000 500 sampleIso chain) := by
  intro h
  have hpoll := poll_sampleReadingChain (fun _ _ => True) .new trivial (Nat.zero_le 2) false
  have hseen := (h sampleReadingChain sampleChain _ (by decide) (.single hpoll)).lastSeen
    (ascii "node-1")
  revert hseen
  decide

end Ledger.Backend

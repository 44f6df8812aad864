import Ledger.Backend.Backfill
import Ledger.Backend.Replacement
import Ledger.System.Recency

/-! The history of one sensor over a chain whose clock may step back. -/
namespace Ledger.Backend
open Text Json
variable {F : Type} [NumberFloat F]

/-- What the blocks of a chain state, with their positions. -/
def placedEvents {α : Type} (event : Block F → Option α) (chain : Chain F) : List (ℕ × α) :=
  (List.range chain.size).filterMap fun i => ((chain.blocks[i]?).bind event).map (i, ·)

theorem inPlace_placedEvents {α : Type} (event : Block F → Option α) (chain : Chain F) :
    InPlace (placedEvents event chain) := by
  have hrange : (List.range chain.size).Pairwise (· < ·) := List.pairwise_lt_range
  refine List.Pairwise.filterMap _ ?_ hrange
  intro i j hij x hx y hy
  obtain ⟨a, -, rfl⟩ := Option.map_eq_some_iff.mp hx
  obtain ⟨b, -, rfl⟩ := Option.map_eq_some_iff.mp hy
  exact hij

theorem filterMap_range_map_snd {α : Type} (event : Block F → Option α) (blocks : List (Block F)) :
    ((List.range blocks.length).filterMap fun i => ((blocks[i]?).bind event).map (i, ·)).map
      Prod.snd = blocks.filterMap event := by
  have hblocks : (List.range blocks.length).filterMap (blocks[·]?) = blocks := by
    rw [List.range_eq_range']
    exact filterMap_getElem?_range' blocks 0
  conv_rhs => rw [← hblocks, List.filterMap_filterMap]
  rw [List.map_filterMap]
  apply List.filterMap_congr
  intro i _
  cases h : (blocks[i]?).bind event with
  | none => rfl
  | some a => rfl

theorem placedEvents_map_snd {α : Type} (event : Block F → Option α) (chain : Chain F) :
    (placedEvents event chain).map Prod.snd = chain.blocks.filterMap event :=
  filterMap_range_map_snd event chain.blocks

theorem placedEvents_take {α : Type} (event : Block F → Option α) {chain : Chain F} {m : ℕ}
    (hm : m ≤ chain.size) :
    ((placedEvents event chain).filter (·.1 < m)).map Prod.snd =
      (chain.blocks.take m).filterMap event := by
  have hlength : (chain.blocks.take m).length = m := by
    rw [List.length_take]
    exact min_eq_left hm
  have hfirst : (List.range m).filterMap (fun i => ((chain.blocks[i]?).bind event).map (i, ·)) =
      (List.range m).filterMap fun i =>
        (((chain.blocks.take m)[i]?).bind event).map (i, ·) := by
    apply List.filterMap_congr
    intro i hi
    rw [List.getElem?_take_of_lt (List.mem_range.mp hi)]
  have hrange : List.range chain.size = List.range m ++ (List.range (chain.size - m)).map (m + ·) := by
    rw [← List.range_add, Nat.add_sub_cancel' hm]
  have hkept : ((List.range m).filterMap fun i =>
      ((chain.blocks[i]?).bind event).map (i, ·)).filter (·.1 < m) =
      (List.range m).filterMap fun i => ((chain.blocks[i]?).bind event).map (i, ·) := by
    rw [List.filter_eq_self]
    intro e he
    obtain ⟨i, hi, heq⟩ := List.mem_filterMap.mp he
    obtain ⟨a, -, rfl⟩ := Option.map_eq_some_iff.mp heq
    simpa using List.mem_range.mp hi
  have hleft : (((List.range (chain.size - m)).map (m + ·)).filterMap fun i =>
      ((chain.blocks[i]?).bind event).map (i, ·)).filter (·.1 < m) = [] := by
    rw [List.filter_eq_nil_iff]
    intro e he
    obtain ⟨i, hi, heq⟩ := List.mem_filterMap.mp he
    obtain ⟨a, -, rfl⟩ := Option.map_eq_some_iff.mp heq
    obtain ⟨j, -, rfl⟩ := List.mem_map.mp hi
    simp
  have hplaced := filterMap_range_map_snd event (chain.blocks.take m)
  rw [hlength, ← hfirst] at hplaced
  rw [placedEvents, hrange, List.filterMap_append, List.filter_append, hkept, hleft,
    List.append_nil, hplaced]

theorem mem_placedEvents {α : Type} {event : Block F → Option α} {chain : Chain F} {i : ℕ} {a : α} :
    (i, a) ∈ placedEvents event chain ↔ ∃ b, chain.blocks[i]? = some b ∧ event b = some a := by
  unfold placedEvents
  rw [List.mem_filterMap]
  constructor
  · rintro ⟨j, -, hj⟩
    obtain ⟨c, hc, heq⟩ := Option.map_eq_some_iff.mp hj
    obtain ⟨rfl, rfl⟩ := Prod.mk.inj heq
    exact Option.bind_eq_some_iff.mp hc
  · rintro ⟨b, hb, ha⟩
    have hi : i < chain.size := (List.getElem?_eq_some_iff.mp hb).1
    refine ⟨i, List.mem_range.mpr hi, ?_⟩
    rw [hb, Option.bind_some, ha]
    rfl

section History
variable {depth historyLimit : ℕ} {fromisoformat : Bytes → Option DateTime}

theorem readChain_maps {chain : Chain F}
    (h : (readChain depth historyLimit fromisoformat chain).2 = .refreshed) :
    (readChain depth historyLimit fromisoformat chain).1.maps =
      consumed historyLimit fromisoformat chain.blocks := by
  have hpage : decodePayload depth ⟨chain.blocks, chain.size⟩ = .page ⟨chain.blocks, chain.size⟩ :=
    decodePayload_page chain.ne_nil (not_deep_of_readChain h)
  unfold readChain at h ⊢
  rw [hpage] at h ⊢
  by_cases hov : ∃ b ∈ chain.blocks, Overflows fromisoformat b
  · obtain ⟨e, he⟩ : ∃ e, (consumeBlocks historyLimit fromisoformat
        (LedgerActivity.new : LedgerActivity F).maps chain.blocks).2 = some e :=
      consumeBlocks_raised hov _
    unfold LedgerActivity.refresh at h
    rcases hc : consumeBlocks historyLimit fromisoformat
      (LedgerActivity.new : LedgerActivity F).maps chain.blocks with ⟨maps, o⟩
    rw [hc] at he
    obtain rfl : o = some e := he
    simp [hc] at h
  · have hclean : ∀ b ∈ chain.blocks, ¬Overflows fromisoformat b :=
      fun b hb hbo => hov ⟨b, hb, hbo⟩
    rw [LedgerActivity.refresh, consumeBlocks_ok hclean]

variable (historyLimit fromisoformat) in
def servedPlaced (exact : F → ℚ) (chain : Chain F) (key : Key) :
    Option (List (ℕ × Reading F)) :=
  let kept := keptPlaced historyLimit fromisoformat chain (List.range chain.size) key
  if kept.all fun r => kept.all fun s => (readingLess exact r.2 s.2).isSome then
    some (kept.insertionSort fun r s => readingLess exact s.2 r.2 ≠ some true)
  else none

theorem blocksAt_range (chain : Chain F) : blocksAt chain (List.range chain.size) = chain.blocks := by
  rw [List.range_eq_range']
  exact filterMap_getElem?_range' chain.blocks 0

omit [NumberFloat F] in
theorem sortReadings_map {exact : F → ℚ} (kept : List (ℕ × Reading F)) :
    sortReadings exact (kept.map Prod.snd) =
      (if kept.all fun r => kept.all fun s => (readingLess exact r.2 s.2).isSome then
        some (kept.insertionSort fun r s => readingLess exact s.2 r.2 ≠ some true)
      else none).map (List.map Prod.snd) := by
  have hmap := List.map_insertionSort (fun r s : ℕ × Reading F =>
    readingLess exact s.2 r.2 ≠ some true) (fun r s => readingLess exact s r ≠ some true) Prod.snd
    kept fun _ _ _ _ => Iff.rfl
  unfold sortReadings
  rw [← hmap, List.all_map]
  simp only [Function.comp_def, List.all_map]
  split_ifs <;> rfl

/-- The series of a sensor is that of the cache. -/
theorem readings_eq_servedPlaced (exact : F → ℚ) {chain : Chain F}
    (h : (readChain depth historyLimit fromisoformat chain).2 = .refreshed) (key : Key) :
    (readChain depth historyLimit fromisoformat chain).1.readings exact key.1 (some key.2) none
        historyLimit =
      (servedPlaced historyLimit fromisoformat exact chain key).map (List.map Prod.snd) := by
  have hkept : (((consumed historyLimit fromisoformat chain.blocks).history.get key).getD []) =
      (keptPlaced historyLimit fromisoformat chain (List.range chain.size) key).map Prod.snd := by
    rw [keptPlaced_map_snd, blocksAt_range, ← consumed_history]
    rfl
  have hlength : (keptPlaced historyLimit fromisoformat chain (List.range chain.size) key).length ≤
      historyLimit := by
    rw [keptPlaced, length_rtake]
    exact min_le_left _ _
  unfold LedgerActivity.readings servedPlaced
  rw [readChain_maps h]
  dsimp only
  have hall : ((keptPlaced historyLimit fromisoformat chain (List.range chain.size) key).map
      Prod.snd).filter (fun r => (none : Option ℤ).all (· < r.timestamp)) = _ := List.filter_true _
  rw [List.flatMap_cons, List.flatMap_nil, List.append_nil, hkept, hall, sortReadings_map,
    Option.map_map]
  apply Option.map_congr
  intro sorted hsorted
  split_ifs at hsorted
  have hsize : sorted.length ≤ historyLimit := by
    rw [← Option.some.inj hsorted, List.length_insertionSort]
    exact hlength
  rw [Function.comp_apply, List.length_map, Int.toNat_natCast]
  split_ifs with hpos
  · rw [Nat.sub_eq_zero_of_le hsize, List.drop_zero]
  · obtain rfl : historyLimit = 0 := by omega
    rw [List.length_eq_zero_iff.mp (Nat.le_zero.mp hsize)]
    rfl

variable (historyLimit fromisoformat) in
/-- The answer is the newest readings of the sensor, each of them once and in order of time. -/
def ServesNewest (exact : F → ℚ) (chain : Chain F) (key : Key) : Prop :=
  ∃ served ∈ servedPlaced historyLimit fromisoformat exact chain key,
    served.Perm
      (newest Reading.timestamp historyLimit (placedEvents (readingOf fromisoformat key) chain)) ∧
    served.Pairwise fun r s => r.2.timestamp ≤ s.2.timestamp

variable (historyLimit fromisoformat) in
/-- None of the newest readings is behind a later one of the sensor, and two of them from one
instant have values of `seq` that Python can order. -/
structure NewestInOrder (exact : F → ℚ) (chain : Chain F) (key : Key) : Prop where
  ordered : ∀ r ∈ newest Reading.timestamp historyLimit
      (placedEvents (readingOf fromisoformat key) chain),
    InOrder Reading.timestamp (placedEvents (readingOf fromisoformat key) chain) r
  comparable : ∀ r ∈ newest Reading.timestamp historyLimit
      (placedEvents (readingOf fromisoformat key) chain),
    ∀ s ∈ newest Reading.timestamp historyLimit
      (placedEvents (readingOf fromisoformat key) chain),
    r.2.timestamp = s.2.timestamp → SeqComparable exact r.2 s.2

theorem sensorId_of_mem_keptPlaced {chain : Chain F} {positions : List ℕ} {key : Key}
    {r : ℕ × Reading F}
    (h : r ∈ keptPlaced historyLimit fromisoformat chain positions key) : r.2.sensorId = key.2 := by
  have hr : r.2 ∈ (keptPlaced historyLimit fromisoformat chain positions key).map Prod.snd :=
    List.mem_map_of_mem h
  rw [keptPlaced_map_snd] at hr
  exact sensorId_of_mem_keptReadings hr

theorem servedPlaced_eq_some_iff {exact : F → ℚ} {chain : Chain F} {key : Key}
    {served : List (ℕ × Reading F)} :
    servedPlaced historyLimit fromisoformat exact chain key = some served ↔
      (∀ r ∈ keptPlaced historyLimit fromisoformat chain (List.range chain.size) key,
        ∀ s ∈ keptPlaced historyLimit fromisoformat chain (List.range chain.size) key,
          r.2.timestamp = s.2.timestamp → SeqComparable exact r.2 s.2) ∧
      (keptPlaced historyLimit fromisoformat chain (List.range chain.size) key).insertionSort
        (fun r s => readingLess exact s.2 r.2 ≠ some true) = served := by
  unfold servedPlaced
  dsimp only
  rw [Option.ite_none_right_eq_some, Option.some.injEq]
  apply and_congr_left'
  simp only [List.all_eq_true, readingLess_isSome_iff]
  constructor
  · intro h r hr s hs ht
    apply h r hr s hs ht
    rw [sensorId_of_mem_keptPlaced hr, sensorId_of_mem_keptPlaced hs]
  · intro h r hr s hs ht _
    exact h r hr s hs ht

omit [NumberFloat F] in
theorem insertionSort_timestamp {exact : F → ℚ} (kept : List (ℕ × Reading F)) :
    (kept.insertionSort fun r s => readingLess exact s.2 r.2 ≠ some true).Pairwise fun r s =>
      r.2.timestamp ≤ s.2.timestamp := by
  have hkey : FollowsKey (sortKey ∘ Prod.snd)
      fun r s : ℕ × Reading F => readingLess exact s.2 r.2 ≠ some true :=
    ⟨fun r s => followsKey_readingLess.of_lt r.2 s.2,
      fun r s => followsKey_readingLess.of_gt r.2 s.2⟩
  refine (insertionSort_sorted hkey kept).imp ?_
  intro r s h
  exact (Prod.Lex.toLex_le_toLex'.mp h).1

/-- After one refresh over the chain the history of a sensor is its newest readings exactly if none
of those is behind a later one, and those of one instant can be sorted. -/
theorem history_newest_iff (exact : F → ℚ) {chain : Chain F}
    (h : (readChain depth historyLimit fromisoformat chain).2 = .refreshed) (key : Key) :
    (readChain depth historyLimit fromisoformat chain).1.readings exact key.1 (some key.2) none
        historyLimit =
      (servedPlaced historyLimit fromisoformat exact chain key).map (List.map Prod.snd) ∧
    (ServesNewest historyLimit fromisoformat exact chain key ↔
      NewestInOrder historyLimit fromisoformat exact chain key) := by
  refine ⟨readings_eq_servedPlaced exact h key, ?_⟩
  have hperm : (keptPlaced historyLimit fromisoformat chain (List.range chain.size) key).Perm
      (newest Reading.timestamp historyLimit (placedEvents (readingOf fromisoformat key) chain)) ↔
      ∀ r ∈ newest Reading.timestamp historyLimit
        (placedEvents (readingOf fromisoformat key) chain),
      InOrder Reading.timestamp (placedEvents (readingOf fromisoformat key) chain) r :=
    newest_perm_iff (inPlace_placedEvents (readingOf fromisoformat key) chain)
  constructor
  · rintro ⟨served, hserved, hnewest, -⟩
    obtain ⟨hcomparable, rfl⟩ := servedPlaced_eq_some_iff.mp hserved
    have hkept := (List.perm_insertionSort _ _).symm.trans hnewest
    constructor
    · exact hperm.mp hkept
    · intro r hr s hs ht
      exact hcomparable r (hkept.mem_iff.mpr hr) s (hkept.mem_iff.mpr hs) ht
  · rintro ⟨hordered, hcomparable⟩
    have hkept := hperm.mpr hordered
    refine ⟨_, servedPlaced_eq_some_iff.mpr ⟨?_, rfl⟩, ?_, insertionSort_timestamp _⟩
    · intro r hr s hs ht
      exact hcomparable r (hkept.mem_iff.mp hr) s (hkept.mem_iff.mp hs) ht
    · exact (List.perm_insertionSort _ _).trans hkept

end History

def countedReading (seq : JsonInt) : Reading Numeral :=
  ⟨ascii "t1", .null, .null, .null, .number seq, 63923817600000000⟩

theorem placedEvents_countedChain :
    placedEvents (readingOf sampleIso (ascii "node-1", ascii "t1")) countedChain =
      [(1, countedReading ⟨2, by decide⟩), (2, countedReading ⟨1, by decide⟩)] := rfl

theorem newestInOrder_countedChain (historyLimit : ℕ) :
    NewestInOrder historyLimit sampleIso (fun _ => 0) countedChain (ascii "node-1", ascii "t1") := by
  have hplaced {r : ℕ × Reading Numeral} (h : r ∈ placedEvents
      (readingOf sampleIso (ascii "node-1", ascii "t1")) countedChain) :
      r.2.timestamp = 63923817600000000 ∧ ∃ i, r.2.seq = .number i := by
    rw [placedEvents_countedChain] at h
    obtain rfl | rfl := List.mem_pair.mp h
    · exact ⟨rfl, _, rfl⟩
    · exact ⟨rfl, _, rfl⟩
  constructor
  · intro r hr y hy _
    rw [(hplaced (mem_of_mem_newest hr)).1, (hplaced hy).1]
  · intro r hr s hs _
    exact seqComparable_of_number (hplaced (mem_of_mem_newest hr)).2
      (hplaced (mem_of_mem_newest hs)).2

/-- Two readings of one second come in the order of their numbers, and a history of one keeps the
second. -/
theorem history_newest_iff_sample :
    (∀ historyLimit, ServesNewest historyLimit sampleIso (fun _ => 0) countedChain
      (ascii "node-1", ascii "t1")) ∧
    (servedPlaced 500 sampleIso (fun _ => 0) countedChain (ascii "node-1", ascii "t1")).map
      (List.map Prod.fst) = some [2, 1] ∧
    (servedPlaced 1 sampleIso (fun _ => 0) countedChain (ascii "node-1", ascii "t1")).map
      (List.map Prod.fst) = some [2] := by
  have hrefreshed (historyLimit : ℕ) :
      (readChain 1000 historyLimit sampleIso countedChain).2 = .refreshed := by
    have hread : readChain 1000 historyLimit sampleIso countedChain = _ :=
      readChain_eq sampleIso_readsZulu (seqChain_stamps _ _) (seqChain_shallow _ _ (by decide))
    rw [hread]
  refine ⟨fun historyLimit => ?_, ?_, ?_⟩
  · exact (history_newest_iff _ (hrefreshed historyLimit) _).2.mpr
      (newestInOrder_countedChain historyLimit)
  · decide
  · decide

def steppedChain : Chain Numeral :=
  sampleReadingChain.pushPersisted
    (buildNext sampleSha256 earlierClock sampleReadingChain sampleReadingEvent)

/-- The second reading is not in the history. -/
theorem stepped_clock_loses_reading :
    ¬ ∀ chain : Chain Numeral, (readChain 1000 500 stepIso chain).2 = .refreshed →
      ∀ key, ServesNewest 500 stepIso (fun _ => 0) chain key := by
  intro h
  have hrefreshed : (readChain 1000 500 stepIso steppedChain).2 = .refreshed := by decide
  obtain ⟨served, hserved, hnewest, -⟩ := h steppedChain hrefreshed (ascii "node-1", ascii "t1")
  have hone : (servedPlaced 500 stepIso (fun _ => 0) steppedChain
      (ascii "node-1", ascii "t1")).map List.length = some 1 := by decide
  have htwo : (newest Reading.timestamp 500 (placedEvents
      (readingOf stepIso (ascii "node-1", ascii "t1")) steppedChain)).length = 2 := by decide
  rw [hserved, Option.map_some, hnewest.length_eq, htwo] at hone
  cases hone

end Ledger.Backend

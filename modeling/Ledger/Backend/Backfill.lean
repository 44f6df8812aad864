import Ledger.Backend.Readers
import Mathlib.Data.List.Sort

/-! The readings of a device as `GET /readings` serves them, each with the position of the block
it comes from. -/
namespace Ledger.Backend
open Text Json
variable {F : Type} [NumberFloat F]

theorem filterMap_getElem?_range' {α : Type*} (l : List α) (n : ℕ) :
    (List.range' n (l.length - n)).filterMap (l[·]?) = l.drop n := by
  induction hk : l.length - n generalizing n with
  | zero =>
    rw [List.drop_of_length_le (by omega)]
    rfl
  | succ k ih =>
    have hn : n < l.length := by omega
    rw [List.range'_succ, List.filterMap_cons_some (List.getElem?_eq_getElem hn),
      List.drop_eq_getElem_cons hn, ih (n + 1) (by omega)]

section Polled
variable (depth historyLimit : ℕ) (fromisoformat : Bytes → Option DateTime)

/-- A cache behind a chain that grows, with the positions of the blocks it has consumed. -/
inductive Polled : Chain F → LedgerActivity F → List ℕ → Prop
  | new (chain : Chain F) (hroom : chain.size < 2 ^ 64) : Polled chain .new []
  | append {chain : Chain F} {a : LedgerActivity F} {positions : List ℕ}
      (h : Polled chain a positions) (b : Block F) (hroom : chain.size + 1 < 2 ^ 64) :
    Polled (chain.pushPersisted b) a positions
  | refresh {chain : Chain F} {a : LedgerActivity F} {positions : List ℕ}
      (h : Polled chain a positions)
      (hr : (a.refresh historyLimit fromisoformat (a.fetch depth chain)).2 = .refreshed) :
    Polled chain (a.refresh historyLimit fromisoformat (a.fetch depth chain)).1
      (positions ++ List.range' (a.nextIndex - 1) (chain.size - (a.nextIndex - 1)))
  | outage {chain : Chain F} {a : LedgerActivity F} {positions : List ℕ}
      (h : Polled chain a positions) (fetched : Fetched F)
      (hf : fetched = .failed ∨ ∃ code, code ≠ 400 ∧ fetched = .status code) :
    Polled chain (a.refresh historyLimit fromisoformat fetched).1 positions

def blocksAt (chain : Chain F) (positions : List ℕ) : List (Block F) :=
  positions.filterMap (chain.blocks[·]?)

/-- What the cache owes to the blocks it has consumed. -/
structure PolledSpec (chain : Chain F) (a : LedgerActivity F) (positions : List ℕ) : Prop where
  room : chain.size < 2 ^ 64
  bound : a.nextIndex ≤ chain.size
  inside : ∀ i ∈ positions, i < chain.size
  maps : a.maps = consumed historyLimit fromisoformat (blocksAt chain positions)

variable {depth historyLimit fromisoformat}

theorem refresh_fetch_refreshed {chain : Chain F} {a : LedgerActivity F}
    (hroom : chain.size < 2 ^ 64) (hbound : a.nextIndex ≤ chain.size)
    (hr : (a.refresh historyLimit fromisoformat (a.fetch depth chain)).2 = .refreshed) :
    a.refresh historyLimit fromisoformat (a.fetch depth chain) =
      (⟨(chain.blocks.drop (a.nextIndex - 1)).foldl (step historyLimit fromisoformat) a.maps,
        chain.size, true⟩, .refreshed) := by
  apply refresh_fetch_ok hroom hbound
  intro b hb hov
  obtain ⟨maps, reachable, e, hraised⟩ : ∃ maps reachable e,
      a.refresh historyLimit fromisoformat (a.fetch depth chain) = (_, .raised e) :=
    refresh_fetch_raised hroom hbound ⟨b, hb, hov⟩
  rw [hraised] at hr
  cases hr

theorem Polled.spec {chain : Chain F} {a : LedgerActivity F} {positions : List ℕ}
    (h : Polled depth historyLimit fromisoformat chain a positions) :
    PolledSpec historyLimit fromisoformat chain a positions := by
  induction h with
  | new chain hroom => exact ⟨hroom, Nat.zero_le _, by simp, rfl⟩
  | @append chain a positions h b hroom ih =>
    constructor
    · simpa using hroom
    · exact ih.bound.trans (by simp)
    · intro i hi
      have := ih.inside i hi
      simp
      omega
    · rw [ih.maps]
      congr 1
      apply List.filterMap_congr
      intro i hi
      rw [Chain.pushPersisted_blocks, List.getElem?_append_left (ih.inside i hi)]
  | @refresh chain a positions h hr ih =>
    rw [refresh_fetch_refreshed ih.room ih.bound hr]
    constructor
    · exact ih.room
    · exact le_rfl
    · intro i hi
      rcases List.mem_append.mp hi with hi | hi
      · exact ih.inside i hi
      · have := List.mem_range'_1.mp hi
        omega
    · have hread : blocksAt chain (List.range' (a.nextIndex - 1)
          (chain.size - (a.nextIndex - 1))) = chain.blocks.drop (a.nextIndex - 1) :=
        filterMap_getElem?_range' chain.blocks _
      unfold blocksAt at hread ⊢
      rw [List.filterMap_append, hread, consumed, List.foldl_append]
      exact congrArg (List.foldl _ · _) ih.maps
  | @outage chain a positions h fetched hf ih =>
    rw [refresh_outage hf]
    exact ⟨ih.room, ih.bound, ih.inside, ih.maps⟩

theorem Polled.covers {chain : Chain F} {a : LedgerActivity F} {positions : List ℕ}
    (h : Polled depth historyLimit fromisoformat chain a positions) :
    ∀ i < a.nextIndex, i ∈ positions := by
  induction h with
  | new => exact fun i hi => absurd hi (Nat.not_lt_zero i)
  | append h b hroom ih => exact ih
  | @refresh chain a positions h hr ih =>
    rw [refresh_fetch_refreshed h.spec.room h.spec.bound hr]
    intro i hi
    rw [List.mem_append, List.mem_range'_1]
    rcases Nat.lt_or_ge i a.nextIndex with hlt | hge
    · exact Or.inl (ih i hlt)
    · right
      dsimp only at hi
      omega
  | @outage chain a positions h fetched hf ih =>
    rw [refresh_outage hf]
    exact ih

end Polled

section Served
variable (historyLimit : ℕ) (fromisoformat : Bytes → Option DateTime)

def placedReading (chain : Chain F) (key : Key) (i : ℕ) : Option (ℕ × Reading F) :=
  ((chain.blocks[i]?).bind (readingOf fromisoformat key)).map (i, ·)

def keptPlaced (chain : Chain F) (positions : List ℕ) (key : Key) : List (ℕ × Reading F) :=
  (ascending (Reading.timestamp ∘ Prod.snd)
    (positions.filterMap (placedReading fromisoformat chain key))).rtake historyLimit

def servedReadings (exact : F → ℚ) (chain : Chain F) (a : LedgerActivity F) (positions : List ℕ)
    (deviceId : Bytes) : List (ℕ × Reading F) :=
  ((((a.maps.history.map Prod.fst).filter fun key => key.1 = deviceId).flatMap
    (keptPlaced historyLimit fromisoformat chain positions)).insertionSort
      fun r s => readingLess exact s.2 r.2 ≠ some true).rtake historyLimit

variable {historyLimit fromisoformat} {depth : ℕ}

theorem map_rtake {α β : Type*} (f : α → β) (xs : List α) (n : ℕ) :
    (xs.rtake n).map f = (xs.map f).rtake n := by
  rw [List.rtake, List.rtake, List.map_drop, List.length_map]

theorem placedReading_map_snd (chain : Chain F) (positions : List ℕ) (key : Key) :
    (positions.filterMap (placedReading fromisoformat chain key)).map Prod.snd =
      (blocksAt chain positions).filterMap (readingOf fromisoformat key) := by
  rw [blocksAt, List.filterMap_filterMap, List.map_filterMap]
  apply List.filterMap_congr
  intro i _
  cases h : (chain.blocks[i]?).bind (readingOf fromisoformat key) <;> simp [placedReading, h]

theorem keptPlaced_map_snd (chain : Chain F) (positions : List ℕ) (key : Key) :
    (keptPlaced historyLimit fromisoformat chain positions key).map Prod.snd =
      keptReadings historyLimit fromisoformat key (blocksAt chain positions) := by
  rw [keptPlaced, map_rtake, ← ascending_map, placedReading_map_snd]
  rfl

theorem readings_eq_consumed {exact : F → ℚ} {chain : Chain F} {a : LedgerActivity F}
    {positions : List ℕ}
    (hmaps : a.maps = consumed historyLimit fromisoformat (blocksAt chain positions))
    {deviceId : Bytes} {series : List (Reading F)}
    (hseries : a.readings exact deviceId none none historyLimit = some series) :
    series = (servedReadings historyLimit fromisoformat exact chain a positions deviceId).map
      Prod.snd := by
  have hkept (key : Key) : ((a.maps.history.get key).getD []).filter (fun r =>
      (none : Option ℤ).all (· < r.timestamp)) =
      (keptPlaced historyLimit fromisoformat chain positions key).map Prod.snd := by
    rw [keptPlaced_map_snd, ← consumed_history, ← hmaps]
    exact List.filter_true _
  unfold LedgerActivity.readings at hseries
  dsimp only at hseries
  simp only [hkept, ← List.map_flatMap] at hseries
  obtain ⟨sorted, hsorted, hlast⟩ := Option.map_eq_some_iff.mp hseries
  unfold sortReadings at hsorted
  split_ifs at hsorted with hall
  have hmap := List.map_insertionSort (fun r s : ℕ × Reading F =>
    readingLess exact s.2 r.2 ≠ some true) (fun r s => readingLess exact s r ≠ some true) Prod.snd
    (((a.maps.history.map Prod.fst).filter fun key => key.1 = deviceId).flatMap
      (keptPlaced historyLimit fromisoformat chain positions)) fun _ _ _ _ => Iff.rfl
  rw [← hlast, ← Option.some.inj hsorted, servedReadings, map_rtake, hmap]
  split_ifs with hlimit
  · rw [Int.toNat_natCast]
    rfl
  · obtain rfl : historyLimit = 0 := by omega
    exact (List.rtake_zero _).symm

theorem readings_eq_served {exact : F → ℚ} {chain : Chain F} {a : LedgerActivity F}
    {positions : List ℕ} (h : Polled depth historyLimit fromisoformat chain a positions)
    {deviceId : Bytes} {series : List (Reading F)}
    (hseries : a.readings exact deviceId none none historyLimit = some series) :
    series = (servedReadings historyLimit fromisoformat exact chain a positions deviceId).map
      Prod.snd :=
  readings_eq_consumed h.spec.maps hseries

def latestPlaced (fromisoformat : Bytes → Option DateTime) (chain : Chain F) (positions : List ℕ)
    (key : Key) : Option (ℕ × Reading F) :=
  (ascending (Reading.timestamp ∘ Prod.snd)
    (positions.filterMap (placedReading fromisoformat chain key))).getLast?

theorem latestReading_eq_placed {chain : Chain F} {a : LedgerActivity F} {positions : List ℕ}
    (hmaps : a.maps = consumed historyLimit fromisoformat (blocksAt chain positions)) (key : Key) :
    a.latestReading key.1 key.2 =
      (latestPlaced fromisoformat chain positions key).map Prod.snd := by
  have hempty : (LedgerActivity.new : LedgerActivity F).maps.shelf key = ⟨none, []⟩ := rfl
  have hshelf : a.latestReading key.1 key.2 = (a.maps.shelf key).latest := rfl
  rw [hshelf, hmaps, consumed, foldl_step_shelf, hempty, foldl_add_empty,
    ← placedReading_map_snd, ascending_map, List.getLast?_map]
  rfl

end Served

end Ledger.Backend

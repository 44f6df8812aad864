import Ledger.Backend.Polling

/-! The polling cursor: what it asks storage-core for while requests overlap, and how it comes back
from any value it may have. -/
namespace Ledger.Backend
open Text Json
variable {F : Type} [NumberFloat F]

/-- The ledger, the cache, the requests under way with what each of them asks for, and the answers
under way. -/
structure Traffic (F : Type) [NumberFloat F] where
  chain : Chain F
  cache : LedgerActivity F
  requests : List ℕ
  answers : List (Fetched F)

def Traffic.start (chain : Chain F) : Traffic F :=
  ⟨chain, .new, [], []⟩

section Traffic
variable (depth historyLimit : ℕ) (fromisoformat : Bytes → Option DateTime)

/-- Appends, and any number of refreshes, each one sent, answered and applied in its own time. -/
inductive Traffic.Step : Traffic F → Traffic F → Prop
  | append (w : Traffic F) (b : Block F) (hroom : w.chain.size + 1 < 2 ^ 64) :
    Step w { w with chain := w.chain.pushPersisted b }
  | send (w : Traffic F) :
    Step w { w with requests := w.requests ++ [w.cache.nextIndex - 1] }
  | serve (w : Traffic F) (i lower : ℕ) (h : w.requests[i]? = some lower) :
    Step w { w with
      requests := w.requests.eraseIdx i, answers := w.answers ++ [answer depth w.chain lower] }
  /-- The request or its answer is lost, or storage-core fails. -/
  | lose (w : Traffic F) (i : ℕ) (fetched : Fetched F)
      (h : fetched = .failed ∨ ∃ code, code ≠ 400 ∧ fetched = .status code) :
    Step w { w with requests := w.requests.eraseIdx i, answers := w.answers ++ [fetched] }
  | apply (w : Traffic F) (i : ℕ) (fetched : Fetched F) (h : w.answers[i]? = some fetched) :
    Step w { w with
      cache := (w.cache.refresh historyLimit fromisoformat fetched).1
      answers := w.answers.eraseIdx i }

end Traffic

/-- An answer that leaves the cursor on a chain of this size. -/
def Fetched.Within (size : ℕ) : Fetched F → Prop
  | .page payload => payload.chainLength ≤ size
  | .status code => code ≠ 400
  | .failed => True
  | .recursionError => True

/-- No request asks for a block past the end, though the cursor may go back. -/
structure Traffic.Inv (w : Traffic F) : Prop where
  room : w.chain.size < 2 ^ 64
  cursor : w.cache.nextIndex ≤ w.chain.size
  requests : ∀ lower ∈ w.requests, lower < w.chain.size
  answers : ∀ fetched ∈ w.answers, fetched.Within w.chain.size

theorem Fetched.Within.mono {m n : ℕ} (h : m ≤ n) {fetched : Fetched F}
    (hf : fetched.Within m) : fetched.Within n := by
  cases fetched with
  | page payload => exact le_trans hf h
  | status code => exact hf
  | failed => trivial
  | recursionError => trivial

theorem Fetched.Within.page_or_lost {n : ℕ} {fetched : Fetched F} (hf : fetched.Within n) :
    (∃ p, fetched = .page p) ∨ fetched = .recursionError ∨
      fetched = .failed ∨ ∃ code, code ≠ 400 ∧ fetched = .status code := by
  cases fetched with
  | page payload => exact Or.inl ⟨payload, rfl⟩
  | status code => exact Or.inr (Or.inr (Or.inr ⟨code, hf, rfl⟩))
  | failed => exact Or.inr (Or.inr (Or.inl rfl))
  | recursionError => exact Or.inr (Or.inl rfl)

theorem answer_within {depth : ℕ} {chain : Chain F} {lower : ℕ} (h : lower < chain.size)
    (hroom : chain.size < 2 ^ 64) : (answer depth chain lower).Within chain.size := by
  rw [answer, installBlocks_tail h hroom]
  dsimp only
  unfold decodePayload
  split_ifs
  · trivial
  · exact le_rfl

section Run
variable {depth historyLimit : ℕ} {fromisoformat : Bytes → Option DateTime}

theorem refresh_nextIndex_le {cache : LedgerActivity F} {fetched : Fetched F} {size : ℕ}
    (hcursor : cache.nextIndex ≤ size) (hf : fetched.Within size) :
    (cache.refresh historyLimit fromisoformat fetched).1.nextIndex ≤ size := by
  unfold LedgerActivity.refresh
  cases fetched with
  | page payload =>
    dsimp only
    rcases consumeBlocks historyLimit fromisoformat cache.maps payload.blocks with ⟨maps, _ | e⟩
    · exact hf
    · exact hcursor
  | status code =>
    dsimp only
    rw [if_neg hf]
    exact hcursor
  | failed => exact hcursor
  | recursionError => exact hcursor

theorem Traffic.Inv.step {w w' : Traffic F} (hw : w.Inv)
    (h : Traffic.Step depth historyLimit fromisoformat w w') : w'.Inv := by
  obtain ⟨room, cursor, requests, answers⟩ := hw
  have hpos : 0 < w.chain.size := List.length_pos_of_ne_nil w.chain.ne_nil
  cases h with
  | append b hroom =>
    have hgrow : w.chain.size ≤ (w.chain.pushPersisted b).size := by
      rw [Chain.size_pushPersisted]
      exact Nat.le_succ _
    constructor
    · rw [Chain.size_pushPersisted]
      exact hroom
    · exact cursor.trans hgrow
    · exact fun lower hl => (requests lower hl).trans_le hgrow
    · exact fun fetched hf => (answers fetched hf).mono hgrow
  | send =>
    refine ⟨room, cursor, fun lower hl => ?_, answers⟩
    rcases List.mem_append.mp hl with hl | hl
    · exact requests lower hl
    · rw [List.mem_singleton.mp hl]
      show w.cache.nextIndex - 1 < w.chain.size
      omega
  | serve i lower hi =>
    have hlower : lower < w.chain.size := requests lower (List.mem_of_getElem? hi)
    refine ⟨room, cursor, fun l hl => requests l (List.mem_of_mem_eraseIdx hl), fun f hf => ?_⟩
    rcases List.mem_append.mp hf with hf | hf
    · exact answers f hf
    · rw [List.mem_singleton.mp hf]
      exact answer_within hlower room
  | lose i fetched hlost =>
    refine ⟨room, cursor, fun l hl => requests l (List.mem_of_mem_eraseIdx hl), fun f hf => ?_⟩
    rcases List.mem_append.mp hf with hf | hf
    · exact answers f hf
    · rw [List.mem_singleton.mp hf]
      rcases hlost with rfl | ⟨code, hcode, rfl⟩
      · trivial
      · exact hcode
  | apply i fetched hi =>
    have hf : fetched.Within w.chain.size := answers fetched (List.mem_of_getElem? hi)
    exact ⟨room, refresh_nextIndex_le cursor hf, requests,
      fun f hf => answers f (List.mem_of_mem_eraseIdx hf)⟩

theorem Traffic.Inv.run {chain : Chain F} (hroom : chain.size < 2 ^ 64) {w : Traffic F}
    (h : Relation.ReflTransGen (Traffic.Step depth historyLimit fromisoformat) (.start chain) w) :
    w.Inv := by
  induction h with
  | refl =>
    have hcursor : (LedgerActivity.new (F := F)).nextIndex ≤ chain.size := Nat.zero_le _
    exact ⟨hroom, hcursor, by simp [Traffic.start], by simp [Traffic.start]⟩
  | tail _ hstep ih => exact ih.step hstep

variable (depth historyLimit fromisoformat) in
/-- Two refreshes that storage-core answers with nothing in between. -/
def LedgerActivity.refreshTwice (cache : LedgerActivity F) (chain : Chain F) : LedgerActivity F :=
  let first := (cache.refresh historyLimit fromisoformat (cache.fetch depth chain)).1
  (first.refresh historyLimit fromisoformat (first.fetch depth chain)).1

/-- The blocks a cache reads of a ledger that does not change: from one before its cursor, or all
of them once a cursor past the end has been rewound. -/
def unread (chain : Chain F) (nextIndex : ℕ) : List (Block F) :=
  if nextIndex ≤ chain.size then chain.blocks.drop (nextIndex - 1) else chain.blocks

theorem refresh_past_end {cache : LedgerActivity F} {chain : Chain F}
    (h : chain.size < cache.nextIndex) :
    cache.refresh historyLimit fromisoformat (cache.fetch depth chain) =
      ({ cache with reachable := false, nextIndex := 0 }, .rewound) := by
  have hpast : chain.size ≤ cache.nextIndex - 1 := by omega
  obtain ⟨e, he, hstatus⟩ := installBlocks_past_end hpast
  rw [LedgerActivity.fetch, answer, he, LedgerActivity.refresh, if_pos hstatus]

theorem refreshTwice_past_end {cache : LedgerActivity F} {chain : Chain F}
    (h : chain.size < cache.nextIndex) :
    cache.refreshTwice depth historyLimit fromisoformat chain =
      (LedgerActivity.refresh historyLimit fromisoformat ⟨cache.maps, 0, false⟩
        (LedgerActivity.fetch depth ⟨cache.maps, 0, false⟩ chain)).1 := by
  unfold LedgerActivity.refreshTwice
  rw [refresh_past_end h]

variable (depth historyLimit fromisoformat) in
/-- The second of two refreshes leaves the cache reachable, its cursor at the end. -/
def Recovers (cache : LedgerActivity F) (chain : Chain F) : Prop :=
  (cache.refreshTwice depth historyLimit fromisoformat chain).reachable = true ∧
    (cache.refreshTwice depth historyLimit fromisoformat chain).nextIndex = chain.size

theorem recovers_of_readable {cache : LedgerActivity F} {chain : Chain F}
    (hroom : chain.size < 2 ^ 64)
    (h : ∀ b ∈ unread chain cache.nextIndex, ¬Unreadable depth fromisoformat b) :
    Recovers depth historyLimit fromisoformat cache chain := by
  unfold unread at h
  split_ifs at h with hle
  · have hfirst : cache.refresh historyLimit fromisoformat (cache.fetch depth chain) = _ :=
      refresh_fetch_ok hroom hle h
    have hpos : 0 < chain.size := List.length_pos_of_ne_nil chain.ne_nil
    have hlast : ∀ b ∈ chain.blocks.drop (chain.size - 1), ¬Unreadable depth fromisoformat b := by
      intro b hb
      apply h b
      exact List.drop_subset_drop_left _ (by omega) hb
    unfold Recovers LedgerActivity.refreshTwice
    rw [hfirst]
    dsimp only
    rw [refresh_fetch_ok hroom le_rfl hlast]
    exact ⟨rfl, rfl⟩
  · have hpast : cache.refreshTwice depth historyLimit fromisoformat chain = _ :=
      refreshTwice_past_end (Nat.lt_of_not_le hle)
    have hzero : ∀ b ∈ chain.blocks.drop (0 - 1), ¬Unreadable depth fromisoformat b := h
    unfold Recovers
    rw [hpast, refresh_fetch_ok hroom (Nat.zero_le _) hzero]
    exact ⟨rfl, rfl⟩

theorem refreshTwice_deep {cache : LedgerActivity F} {chain : Chain F}
    (hroom : chain.size < 2 ^ 64) (hle : cache.nextIndex ≤ chain.size)
    (h : ∃ b ∈ chain.blocks.drop (cache.nextIndex - 1), Deep depth b) :
    cache.refreshTwice depth historyLimit fromisoformat chain = cache := by
  have hsame : cache.refresh historyLimit fromisoformat (cache.fetch depth chain) = _ :=
    refresh_fetch_deep hroom hle h
  unfold LedgerActivity.refreshTwice
  rw [hsame]
  dsimp only
  rw [hsame]

theorem refreshTwice_overflow {cache : LedgerActivity F} {chain : Chain F}
    (hroom : chain.size < 2 ^ 64) (hle : cache.nextIndex ≤ chain.size)
    (hshallow : ∀ b ∈ chain.blocks.drop (cache.nextIndex - 1), ¬Deep depth b)
    (h : ∃ b ∈ chain.blocks.drop (cache.nextIndex - 1), Overflows fromisoformat b) :
    ∃ maps, cache.refreshTwice depth historyLimit fromisoformat chain =
      ⟨maps, cache.nextIndex, true⟩ := by
  have hraised : ∀ maps reachable, ∃ maps' e,
      (⟨maps, cache.nextIndex, reachable⟩ : LedgerActivity F).refresh historyLimit fromisoformat
        (LedgerActivity.fetch depth ⟨maps, cache.nextIndex, reachable⟩ chain) =
        (⟨maps', cache.nextIndex, true⟩, .raised (.overflow e)) :=
    fun _ _ => refresh_fetch_overflow hroom hle hshallow h
  obtain ⟨maps, e, hfirst⟩ := hraised cache.maps cache.reachable
  obtain ⟨maps', e', hsecond⟩ := hraised maps true
  refine ⟨maps', ?_⟩
  unfold LedgerActivity.refreshTwice
  rw [hfirst]
  dsimp only
  rw [hsecond]

variable (depth fromisoformat) in
/-- The refreshes can read all that they are sent, or the cursor is right as it is and a reachable
cache stays reachable. -/
def CanRecover (cache : LedgerActivity F) (chain : Chain F) : Prop :=
  (∀ b ∈ unread chain cache.nextIndex, ¬Unreadable depth fromisoformat b) ∨
    cache.nextIndex = chain.size ∧
      ((∀ b ∈ unread chain cache.nextIndex, ¬Deep depth b) ∨ cache.reachable = true)

theorem recovers_of_caught_up {cache : LedgerActivity F} {chain : Chain F}
    (hroom : chain.size < 2 ^ 64) (heq : cache.nextIndex = chain.size)
    (h : (∀ b ∈ unread chain cache.nextIndex, ¬Deep depth b) ∨ cache.reachable = true) :
    Recovers depth historyLimit fromisoformat cache chain := by
  by_cases hread : ∀ b ∈ unread chain cache.nextIndex, ¬Unreadable depth fromisoformat b
  · exact recovers_of_readable hroom hread
  rw [unread, if_pos heq.le] at h hread
  by_cases hdeep : ∃ b ∈ chain.blocks.drop (cache.nextIndex - 1), Deep depth b
  · obtain ⟨b, hb, hbd⟩ := hdeep
    have hsame : cache.refreshTwice depth historyLimit fromisoformat chain = cache :=
      refreshTwice_deep hroom heq.le ⟨b, hb, hbd⟩
    unfold Recovers
    rw [hsame]
    exact ⟨h.resolve_left fun hshallow => hshallow b hb hbd, heq⟩
  · have hshallow : ∀ b ∈ chain.blocks.drop (cache.nextIndex - 1), ¬Deep depth b :=
      fun b hb hbd => hdeep ⟨b, hb, hbd⟩
    have hover : ∃ b ∈ chain.blocks.drop (cache.nextIndex - 1), Overflows fromisoformat b := by
      by_contra hnone
      exact hread fun b hb hbad => hnone ⟨b, hb, hbad.resolve_left (hshallow b hb)⟩
    obtain ⟨maps, hraised⟩ : ∃ maps, cache.refreshTwice depth historyLimit fromisoformat chain =
        ⟨maps, cache.nextIndex, true⟩ := refreshTwice_overflow hroom heq.le hshallow hover
    unfold Recovers
    rw [hraised]
    exact ⟨rfl, heq⟩

/-- A cursor that never moves and is not at the end stays wrong. -/
theorem not_recovers_of_unreadable {cache : LedgerActivity F} {chain : Chain F}
    (hroom : chain.size < 2 ^ 64) (hne : cache.nextIndex ≠ chain.size)
    (h : ∃ b ∈ unread chain cache.nextIndex, Unreadable depth fromisoformat b) :
    ¬Recovers depth historyLimit fromisoformat cache chain := by
  unfold unread at h
  unfold Recovers
  split_ifs at h with hle
  · have hraised : ∀ maps reachable, ∃ maps' reachable' e,
        (⟨maps, cache.nextIndex, reachable⟩ : LedgerActivity F).refresh historyLimit fromisoformat
          (LedgerActivity.fetch depth ⟨maps, cache.nextIndex, reachable⟩ chain) =
          (⟨maps', cache.nextIndex, reachable'⟩, .raised e) :=
      fun _ _ => refresh_fetch_raised hroom hle h
    obtain ⟨maps, reachable, e, hfirst⟩ := hraised cache.maps cache.reachable
    obtain ⟨maps', reachable', e', hsecond⟩ := hraised maps reachable
    unfold LedgerActivity.refreshTwice
    rw [hfirst]
    dsimp only
    rw [hsecond]
    exact fun hrec => hne hrec.2
  · have hpos : 0 < chain.size := List.length_pos_of_ne_nil chain.ne_nil
    obtain ⟨maps, reachable, e, hsecond⟩ : ∃ maps reachable e,
        LedgerActivity.refresh historyLimit fromisoformat ⟨cache.maps, 0, false⟩
          (LedgerActivity.fetch depth ⟨cache.maps, 0, false⟩ chain) =
          (⟨maps, 0, reachable⟩, .raised e) := refresh_fetch_raised hroom (Nat.zero_le _) h
    rw [refreshTwice_past_end (Nat.lt_of_not_le hle), hsecond]
    exact fun hrec => hpos.ne hrec.2

theorem recovers_iff {cache : LedgerActivity F} {chain : Chain F} (hroom : chain.size < 2 ^ 64) :
    Recovers depth historyLimit fromisoformat cache chain ↔
      CanRecover depth fromisoformat cache chain := by
  constructor
  · intro hrec
    by_cases hread : ∀ b ∈ unread chain cache.nextIndex, ¬Unreadable depth fromisoformat b
    · exact Or.inl hread
    have hbad : ∃ b ∈ unread chain cache.nextIndex, Unreadable depth fromisoformat b := by
      simpa using hread
    have heq : cache.nextIndex = chain.size := by
      by_contra hne
      exact not_recovers_of_unreadable hroom hne hbad hrec
    refine Or.inr ⟨heq, or_iff_not_imp_left.mpr fun hdeep => ?_⟩
    have hdeep' : ∃ b ∈ unread chain cache.nextIndex, Deep depth b := by simpa using hdeep
    rw [unread, if_pos heq.le] at hdeep'
    have hsame : cache.refreshTwice depth historyLimit fromisoformat chain = cache :=
      refreshTwice_deep hroom heq.le hdeep'
    unfold Recovers at hrec
    rw [hsame] at hrec
    exact hrec.1
  · rintro (hread | ⟨heq, h⟩)
    · exact recovers_of_readable hroom hread
    · exact recovers_of_caught_up hroom heq h

/-- Overlapping refreshes of a ledger that grows never draw a 400. From any cursor two refreshes of
a ledger that does not change recover exactly if they can read all that they are sent, or the cursor
was right before. -/
theorem cursor_recovers_iff :
    (∀ (chain : Chain F) (w : Traffic F), chain.size < 2 ^ 64 →
      Relation.ReflTransGen (Traffic.Step depth historyLimit fromisoformat) (.start chain) w →
        .status 400 ∉ w.answers) ∧
      ∀ (cache : LedgerActivity F) (chain : Chain F), chain.size < 2 ^ 64 →
        (Recovers depth historyLimit fromisoformat cache chain ↔
          CanRecover depth fromisoformat cache chain) := by
  constructor
  · intro chain w hroom hrun hmem
    exact (Traffic.Inv.run hroom hrun).answers _ hmem rfl
  · exact fun cache chain hroom => recovers_iff hroom

end Run

theorem cursor_recovers_iff_sample :
    Recovers 1000 500 sampleIso ⟨(LedgerActivity.new (F := Numeral)).maps, 9, true⟩
      sampleReadingChain := by
  have hroom : sampleReadingChain.size < 2 ^ 64 := by decide
  apply (cursor_recovers_iff.2 _ _ hroom).mpr
  left
  exact sampleReadingChain_readable

def earlyIso (raw : Bytes) : Option DateTime :=
  if raw = ascii "0001-01-01T00:00:00+01:00" then some ⟨0, some 3600000000⟩ else none

def earlyChain : Chain Numeral :=
  ⟨[{ sampleGenesis with timestamp := ascii "0001-01-01T00:00:00+01:00" }], by simp⟩

theorem earlyChain_overflows : ∃ b ∈ unread earlyChain 0, Unreadable 1000 earlyIso b := by
  refine ⟨_, List.mem_singleton.mpr rfl, Or.inr ⟨by decide, .dateValueOutOfRange, ?_⟩⟩
  simp [parseTimestamp, earlyIso]

/-- A new cache never gets to the end of that ledger. -/
theorem early_timestamp_stops_cursor :
    ¬ ∀ (cache : LedgerActivity Numeral) (chain : Chain Numeral), chain.size < 2 ^ 64 →
      Recovers 1000 500 earlyIso cache chain := by
  intro h
  have hroom : earlyChain.size < 2 ^ 64 := by decide
  have hne : (LedgerActivity.new (F := Numeral)).nextIndex ≠ earlyChain.size := by decide
  exact not_recovers_of_unreadable hroom hne earlyChain_overflows (h .new earlyChain hroom)

end Ledger.Backend

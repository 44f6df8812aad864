import Ledger.Core.Timestamps
import Ledger.Frontend.Panel

/-! When a device was last seen, and whether it is active: the backend reckons with instants, the
page with texts. -/
namespace Ledger.Frontend
open Text Json Backend
variable {F : Type}

/-- The nearest number with 53 significant bits, the even one of two. -/
def roundNat (m : ℕ) : ℕ :=
  let unit := 2 ^ (m.log2 - 52)
  let q := m / unit
  let r := m % unit
  if 2 * r < unit ∨ 2 * r = unit ∧ q % 2 = 0 then q * unit else (q + 1) * unit

/-- The value of an integer as a `Number`. -/
def toNumber (n : ℤ) : ℤ :=
  n.sign * roundNat n.natAbs

theorem roundNat_of_lt {m : ℕ} (h : m < 2 ^ 53) : roundNat m = m := by
  have hunit : m.log2 - 52 = 0 := by
    rcases Nat.eq_zero_or_pos m with rfl | hpos
    · rfl
    · have := (Nat.log2_lt hpos.ne').mpr h
      omega
  unfold roundNat
  rw [hunit]
  simp [Nat.mod_one]

theorem le_roundNat {m : ℕ} (h : 2 ^ 53 ≤ m) : 2 ^ 53 ≤ roundNat m := by
  have hpos : m ≠ 0 := by omega
  have hlog : 53 ≤ m.log2 := (Nat.le_log2 hpos).mpr h
  obtain ⟨e, he⟩ := Nat.exists_eq_add_of_le hlog
  have hunit : m.log2 - 52 = e + 1 := by omega
  have hquotient : 2 ^ 52 ≤ m / 2 ^ (e + 1) := by
    rw [Nat.le_div_iff_mul_le (by positivity), ← pow_add]
    have hself := Nat.log2_self_le hpos
    rwa [he, show 53 + e = 52 + (e + 1) by omega] at hself
  have hlarge : 2 ^ 53 ≤ m / 2 ^ (e + 1) * 2 ^ (e + 1) := by
    calc 2 ^ 53 = 2 ^ 52 * 2 := by norm_num
      _ ≤ m / 2 ^ (e + 1) * 2 ^ (e + 1) :=
        Nat.mul_le_mul hquotient (Nat.le_self_pow (by omega) 2)
  unfold roundNat
  rw [hunit]
  dsimp only
  split_ifs
  · exact hlarge
  · exact hlarge.trans (Nat.mul_le_mul_right _ (Nat.le_succ _))

theorem toNumber_of_lt {n : ℤ} (h : n.natAbs < 2 ^ 53) : toNumber n = n := by
  rw [toNumber, roundNat_of_lt h]
  exact Int.sign_mul_natAbs n

theorem le_toNumber_iff {m n : ℤ} (hm : m.natAbs < 2 ^ 53) : m ≤ toNumber n ↔ m ≤ n := by
  rcases Nat.lt_or_ge n.natAbs (2 ^ 53) with hn | hn
  · rw [toNumber_of_lt hn]
  · have hround := le_roundNat hn
    unfold toNumber
    rcases lt_trichotomy n 0 with hneg | rfl | hpos
    · rw [Int.sign_eq_neg_one_of_neg hneg]
      omega
    · simp at hn
    · rw [Int.sign_eq_one_of_pos hpos]
      omega

/-- `statusFrom`; `dateParse` is `Date.parse`, `none` for `NaN`. -/
def statusFrom (dateParse : Bytes → Option ℤ) (lastSeen : Option Bytes) (windowSeconds now : ℤ) :
    DeviceStatus :=
  match lastSeen with
  | none => .inactive
  | some text =>
    match dateParse text with
    | none => .inactive
    | some parsed =>
      if toNumber (now - parsed) ≤ toNumber (windowSeconds * 1000) then .active else .inactive

/-- `lastSeen` of a row: what was streamed, if it is above what was fetched. -/
def mergeLastSeen (fetched streamed : Option Bytes) : Option Bytes :=
  match streamed with
  | none => fetched
  | some text => if fetched.all fun s => keyOrder s < keyOrder text then some text else fetched

variable [NumberFloat F]

/-- `_consume` on one answer after the other. -/
def consumeAll (historyLimit : ℕ) (fromisoformat : Bytes → Option DateTime)
    (payloads : List (List (Block F))) : LedgerActivity F :=
  { (LedgerActivity.new : LedgerActivity F) with
    maps := payloads.foldl (fun maps blocks => (consumeBlocks historyLimit fromisoformat maps blocks).1)
      LedgerActivity.new.maps }

section Sightings
variable (fromisoformat : Bytes → Option DateTime) (isoformat : ℤ → Bytes)
  (dateParse : Bytes → Option ℤ)

/-- Python reads what the storage core writes for a second, and writes it with an offset. -/
structure ReadsSecond (tm : Tm) : Prop where
  fromisoformat : fromisoformat (nowRfc3339 tm) = some ⟨tm.micros, some 0⟩
  isoformat : isoformat tm.micros = stampPrefix tm ++ ascii "+00:00"

/-- What the two runtimes make of a second: the browser reads both texts. -/
structure KnowsSecond (tm : Tm) : Prop extends ReadsSecond fromisoformat isoformat tm where
  zulu : dateParse (nowRfc3339 tm) = some tm.epochMillis
  offset : dateParse (stampPrefix tm ++ ascii "+00:00") = some tm.epochMillis

def Stamped (b : Block F) : Prop :=
  ∃ tm : Tm, tm.Valid ∧ b.timestamp = nowRfc3339 tm ∧
    KnowsSecond fromisoformat isoformat dateParse tm

/-- A block of an actor has this timestamp; a block without an actor is nobody's. -/
def SightedAt (actor : Bytes) (blocks : List (Block F)) (tm : Tm) : Prop :=
  tm.Valid ∧ actor ≠ [] ∧ ∃ b ∈ blocks, b.event.actor.1 = actor ∧ b.timestamp = nowRfc3339 tm

/-- The last second at which an actor was sighted. -/
def IsNewestSighting (actor : Bytes) (blocks : List (Block F)) (tm : Tm) : Prop :=
  SightedAt actor blocks tm ∧ ∀ tm', SightedAt actor blocks tm' → tm'.seconds ≤ tm.seconds

/-- What is written of the last second at which an actor was sighted, if there is one. -/
def IsNewestOf {α : Type} (write : Tm → α) (actor : Bytes) (blocks : List (Block F))
    (value : Option α) : Prop :=
  (value = none ∧ ∀ tm, ¬SightedAt actor blocks tm) ∨
    ∃ tm, IsNewestSighting actor blocks tm ∧ value = some (write tm)

variable {fromisoformat isoformat dateParse} {actor : Bytes} {blocks : List (Block F)}

theorem micros_le_iff {tm tm' : Tm} : tm.micros ≤ tm'.micros ↔ tm.seconds ≤ tm'.seconds := by
  unfold Tm.micros
  omega

theorem ReadsSecond.parseTimestamp {tm : Tm} (hreads : ReadsSecond fromisoformat isoformat tm)
    (hvalid : tm.Valid) :
    Backend.parseTimestamp fromisoformat (nowRfc3339 tm) = .ok (some tm.micros) := by
  have hend := hvalid.seconds_lt_end
  have hrange : 0 ≤ tm.micros - 0 ∧ tm.micros - 0 < endOfTime := by
    unfold Tm.micros endOfTime
    omega
  unfold Backend.parseTimestamp
  rw [hreads.fromisoformat]
  dsimp only
  rw [if_pos hrange, sub_zero]

theorem Stamped.not_overflows {b : Block F}
    (h : Stamped fromisoformat isoformat dateParse b) : ¬Overflows fromisoformat b := by
  obtain ⟨tm, hvalid, hstamp, hknows⟩ := h
  rintro ⟨-, e, he⟩
  rw [hstamp, hknows.parseTimestamp hvalid] at he
  cases he

theorem Stamped.sightingOf_iff {b : Block F} (h : Stamped fromisoformat isoformat dateParse b)
    {t : ℤ} : sightingOf fromisoformat actor b = some t ↔ ∃ tm : Tm, tm.Valid ∧ actor ≠ [] ∧
      b.event.actor.1 = actor ∧ b.timestamp = nowRfc3339 tm ∧ tm.micros = t := by
  obtain ⟨tm, hvalid, hstamp, hknows⟩ := h
  unfold sightingOf sighting
  rw [hstamp, hknows.parseTimestamp hvalid, ← hstamp]
  constructor
  · intro ht
    split_ifs at ht with hactor hempty
    refine ⟨tm, hvalid, ?_, hactor, hstamp, Option.some.inj ht⟩
    rw [← hactor]
    exact hempty
  · rintro ⟨tm', hvalid', hne, hactor, hstamp', rfl⟩
    rw [nowRfc3339_injOn hvalid' hvalid (hstamp'.symm.trans hstamp), if_pos hactor,
      if_neg (by rwa [hactor])]

theorem consumeAll_maps {historyLimit : ℕ} {payloads : List (List (Block F))}
    (h : ∀ b ∈ payloads.flatten, ¬Overflows fromisoformat b) :
    (consumeAll historyLimit fromisoformat payloads).maps =
      consumed historyLimit fromisoformat payloads.flatten := by
  unfold consumeAll consumed
  dsimp only
  generalize (LedgerActivity.new : LedgerActivity F).maps = maps
  induction payloads generalizing maps with
  | nil => rfl
  | cons blocks payloads ih =>
    rw [List.flatten_cons, List.forall_mem_append] at h
    rw [List.foldl_cons, consumeBlocks_ok h.1, ih h.2, List.flatten_cons, List.foldl_append]

/-- A pass over what is written of the sightings ends with the newest, if the order of what is
written is that of the seconds. -/
theorem isNewestOf_foldl {α β : Type} [LinearOrder β] {key : α → β} {write : Tm → α}
    {values : List α} (hmem : ∀ tm, SightedAt actor blocks tm → write tm ∈ values)
    (hwritten : ∀ v ∈ values, ∃ tm, SightedAt actor blocks tm ∧ v = write tm)
    (horder : ∀ tm tm' : Tm, tm.Valid → tm'.Valid → key (write tm) ≤ key (write tm') →
      tm.seconds ≤ tm'.seconds) :
    IsNewestOf write actor blocks (values.foldl (renew key) none) := by
  rcases foldl_renew_cases key values with ⟨hnil, hnone⟩ | ⟨v, hv, hsome, hle⟩
  · left
    refine ⟨hnone, fun tm hsighted => ?_⟩
    have hin := hmem tm hsighted
    rw [hnil] at hin
    exact List.not_mem_nil hin
  · right
    obtain ⟨tm, hsighted, rfl⟩ := hwritten v hv
    refine ⟨tm, ⟨hsighted, fun tm' hsighted' => ?_⟩, hsome⟩
    exact horder tm' tm hsighted'.1 hsighted.1 (hle (write tm') (hmem tm' hsighted'))

/-- The backend knows the last second at which an actor was sighted. -/
theorem lastSeen_consumeAll (historyLimit : ℕ) {payloads : List (List (Block F))}
    (h : ∀ b ∈ payloads.flatten, Stamped fromisoformat isoformat dateParse b) (actor : Bytes) :
    IsNewestOf Tm.micros actor payloads.flatten
      ((consumeAll historyLimit fromisoformat payloads).lastSeen actor) := by
  have hlast : (consumeAll historyLimit fromisoformat payloads).lastSeen actor =
      (payloads.flatten.filterMap (sightingOf fromisoformat actor)).foldl (renew id) none := by
    rw [LedgerActivity.lastSeen, consumeAll_maps fun b hb => (h b hb).not_overflows, consumed,
      foldl_step_lastSeen, laterOf_eq_renew]
    rfl
  rw [hlast]
  apply isNewestOf_foldl
  · rintro tm ⟨hvalid, hne, b, hb, hactor, hstamp⟩
    rw [List.mem_filterMap]
    exact ⟨b, hb, (h b hb).sightingOf_iff.mpr ⟨tm, hvalid, hne, hactor, hstamp, rfl⟩⟩
  · intro t ht
    obtain ⟨b, hb, hbt⟩ := List.mem_filterMap.mp ht
    obtain ⟨tm, hvalid, hne, hactor, hstamp, rfl⟩ := (h b hb).sightingOf_iff.mp hbt
    exact ⟨tm, ⟨hvalid, hne, b, hb, hactor, hstamp⟩, rfl⟩
  · exact fun tm tm' _ _ hle => micros_le_iff.mp hle

def stampOf (actor : Bytes) : BlockFrame F → Option Bytes
  | .lagged _ => none
  | .block b => if b.event.actor.1 = [] then none
    else if b.event.actor.1 = actor then some b.timestamp else none

theorem stampOf_eq_some_iff {frame : BlockFrame F} {text : Bytes} :
    stampOf actor frame = some text ↔
      ∃ b, frame = .block b ∧ actor ≠ [] ∧ b.event.actor.1 = actor ∧ b.timestamp = text := by
  cases frame with
  | lagged dropped => simp [stampOf]
  | block b =>
    unfold stampOf
    dsimp only
    constructor
    · intro h
      split_ifs at h with hempty hactor
      refine ⟨b, rfl, ?_, hactor, Option.some.inj h⟩
      rw [← hactor]
      exact hempty
    · rintro ⟨b', hb', hne, hactor, htext⟩
      obtain rfl := BlockFrame.block.inj hb'
      rw [if_neg (by rwa [hactor]), if_pos hactor, htext]

theorem newer_eq_renew (previous : Option Bytes) (text : Bytes) :
    (if previous.all fun s => keyOrder s < keyOrder text then some text else previous) =
      renew keyOrder previous text := by
  unfold renew
  cases previous with
  | none => simp
  | some s =>
    rcases lt_trichotomy (keyOrder s) (keyOrder text) with h | h | h
    · simp [h, h.le]
    · simp [keyOrder_injective h]
    · simp [h, h.le]

theorem applyFrame_lastSeen (state : StreamState F) (frame : BlockFrame F) (actor : Bytes) :
    (applyFrame state frame).lastSeen.get actor = (stampOf actor frame).elim
      (state.lastSeen.get actor) (renew keyOrder (state.lastSeen.get actor)) := by
  cases frame with
  | lagged dropped => rfl
  | block b =>
    unfold applyFrame stampOf
    dsimp only
    by_cases hempty : b.event.actor.1 = []
    · rw [if_pos hempty, if_pos hempty]
      rfl
    · rw [if_neg hempty, if_neg hempty]
      dsimp only
      by_cases hactor : b.event.actor.1 = actor
      · rw [if_pos hactor, hactor, Option.elim_some, ← newer_eq_renew]
        split_ifs
        · exact Dict.get_set_self ..
        · rfl
      · rw [if_neg hactor]
        split_ifs
        · exact Dict.get_set_of_ne (Ne.symm hactor) _
        · rfl

/-- The page knows the last second at which an actor was sighted. -/
theorem lastSeen_applyFrames {frames : List (BlockFrame F)}
    (h : ∀ b, .block b ∈ frames → b ∈ blocks) (h' : ∀ b ∈ blocks, .block b ∈ frames)
    (hstamped : ∀ b ∈ blocks, Stamped fromisoformat isoformat dateParse b) (actor : Bytes) :
    IsNewestOf nowRfc3339 actor blocks
      ((frames.foldl applyFrame emptyStream).lastSeen.get actor) := by
  have hlast : (frames.foldl applyFrame emptyStream).lastSeen.get actor =
      (frames.filterMap (stampOf actor)).foldl (renew keyOrder) none :=
    foldl_view (fun state : StreamState F => state.lastSeen.get actor)
      (fun state frame => applyFrame_lastSeen state frame actor) emptyStream frames
  rw [hlast]
  apply isNewestOf_foldl
  · rintro tm ⟨-, hne, b, hb, hactor, hstamp⟩
    rw [List.mem_filterMap]
    exact ⟨.block b, h' b hb, stampOf_eq_some_iff.mpr ⟨b, rfl, hne, hactor, hstamp⟩⟩
  · intro text htext
    obtain ⟨frame, hframe, hstamp⟩ := List.mem_filterMap.mp htext
    obtain ⟨b, rfl, hne, hactor, rfl⟩ := stampOf_eq_some_iff.mp hstamp
    obtain ⟨tm, hvalid, hstamp, -⟩ := hstamped b (h b hframe)
    exact ⟨tm, ⟨hvalid, hne, b, h b hframe, hactor, hstamp⟩, hstamp⟩
  · intro tm tm' hvalid hvalid' hle
    have hnot := not_lt.mpr hle
    rw [nowRfc3339_lt_iff hvalid' hvalid] at hnot
    exact not_lt.mp hnot

/-- A text of this second, as either service writes it. -/
def Denotes (isoformat : ℤ → Bytes) (text : Bytes) (tm : Tm) : Prop :=
  text = nowRfc3339 tm ∨ text = isoformat tm.micros

theorem mergeLastSeen_later {tm tm' : Tm} (h : tm.Valid) (h' : tm'.Valid)
    (hknows : KnowsSecond fromisoformat isoformat dateParse tm) :
    mergeLastSeen (some (isoformat tm.micros)) (some (nowRfc3339 tm')) =
      if tm.seconds ≤ tm'.seconds then some (nowRfc3339 tm') else some (isoformat tm.micros) := by
  have hsuffix : keyOrder (ascii "+00:00") < keyOrder (ascii "Z") := by decide
  have hlt : keyOrder (isoformat tm.micros) < keyOrder (nowRfc3339 tm') ↔
      tm.seconds ≤ tm'.seconds := by
    rw [hknows.isoformat, nowRfc3339_eq, stampPrefix_lt_iff h h', and_iff_left hsuffix,
      le_iff_lt_or_eq]
  unfold mergeLastSeen
  simp only [Option.all_some, decide_eq_true_eq, hlt]

omit [NumberFloat F] in
theorem statusFrom_eq_status {a : LedgerActivity F} {tm : Tm} {text : Bytes} {window elapsed now : ℤ}
    (hvalid : tm.Valid) (hknows : KnowsSecond fromisoformat isoformat dateParse tm)
    (htext : Denotes isoformat text tm) (hseen : a.lastSeen actor = some tm.micros)
    (hwindow : timedelta (window * 1000000) = some elapsed)
    (hnow : 0 ≤ now * 1000 + 62135596800000000 ∧ now * 1000 + 62135596800000000 < endOfTime) :
    a.status elapsed actor (now * 1000 + 62135596800000000) =
      some (statusFrom dateParse (some text) window now) := by
  have hend := hvalid.seconds_lt_end
  have hrange : 0 ≤ tm.micros ∧ tm.micros < endOfTime := by
    unfold Tm.micros endOfTime
    omega
  obtain ⟨t, ht⟩ := Option.isSome_iff_exists.mp (timedelta_isSome hnow hrange)
  have hparse : dateParse text = some tm.epochMillis := by
    rcases htext with rfl | rfl
    · exact hknows.zulu
    · rw [hknows.isoformat]
      exact hknows.offset
  have hdelta {n m : ℤ} (h : timedelta n = some m) : m = n := by
    unfold timedelta at h
    split_ifs at h
    exact (Option.some.inj h).symm
  have hbits : (now - tm.epochMillis).natAbs < 2 ^ 53 := by
    unfold Tm.epochMillis
    unfold endOfTime at hnow
    omega
  have hle : t ≤ elapsed ↔ now - tm.epochMillis ≤ window * 1000 := by
    rw [hdelta ht, hdelta hwindow]
    unfold Tm.epochMillis Tm.micros
    omega
  unfold LedgerActivity.status statusFrom
  rw [hseen]
  dsimp only
  rw [hparse]
  dsimp only
  rw [ht, Option.map_some, toNumber_of_lt hbits, if_congr (le_toNumber_iff hbits) rfl rfl,
    if_congr hle rfl rfl]

theorem sightedAt_append {first second : List (Block F)} {tm : Tm} :
    SightedAt actor (first ++ second) tm ↔
      SightedAt actor first tm ∨ SightedAt actor second tm := by
  unfold SightedAt
  simp only [List.mem_append]
  grind

theorem SightedAt.knows (h : ∀ b ∈ blocks, Stamped fromisoformat isoformat dateParse b) {tm : Tm}
    (hsighted : SightedAt actor blocks tm) :
    KnowsSecond fromisoformat isoformat dateParse tm := by
  obtain ⟨hvalid, -, b, hb, -, hstamp⟩ := hsighted
  obtain ⟨tm', hvalid', hstamp', hknows⟩ := h b hb
  rwa [nowRfc3339_injOn hvalid hvalid' (hstamp.symm.trans hstamp')]

theorem IsNewestSighting.unique {tm tm' : Tm} (h : IsNewestSighting actor blocks tm)
    (h' : IsNewestSighting actor blocks tm') : tm = tm' :=
  Tm.eq_of_seconds_eq h.1.1 h'.1.1 (le_antisymm (h'.2 tm h.1) (h.2 tm' h'.1))

theorem IsNewestSighting.append {first second : List (Block F)} {tm tm' : Tm}
    (h : IsNewestSighting actor first tm) (h' : IsNewestSighting actor second tm') :
    IsNewestSighting actor (first ++ second) (if tm.seconds ≤ tm'.seconds then tm' else tm) := by
  constructor
  · rw [sightedAt_append]
    split_ifs
    · exact Or.inr h'.1
    · exact Or.inl h.1
  · intro t ht
    rcases sightedAt_append.mp ht with ht | ht
    · have := h.2 t ht
      split_ifs <;> omega
    · have := h'.2 t ht
      split_ifs <;> omega

variable (isoformat) in
/-- An instant and a text that are both the newest sighting of an actor, or both missing because
there is none. -/
def SameNewest (actor : Bytes) (blocks : List (Block F)) (seen : Option ℤ)
    (text : Option Bytes) : Prop :=
  (seen = none ∧ text = none ∧ ∀ tm, ¬SightedAt actor blocks tm) ∨
    ∃ tm, IsNewestSighting actor blocks tm ∧ seen = some tm.micros ∧
      ∃ t, text = some t ∧ Denotes isoformat t tm

theorem SameNewest.status {a : LedgerActivity F} {text : Option Bytes}
    (hstamped : ∀ b ∈ blocks, Stamped fromisoformat isoformat dateParse b)
    (h : SameNewest isoformat actor blocks (a.lastSeen actor) text) {window elapsed now : ℤ}
    (hwindow : timedelta (window * 1000000) = some elapsed)
    (hnow : 0 ≤ now * 1000 + 62135596800000000 ∧ now * 1000 + 62135596800000000 < endOfTime) :
    a.status elapsed actor (now * 1000 + 62135596800000000) =
      some (statusFrom dateParse text window now) := by
  rcases h with ⟨hseen, rfl, -⟩ | ⟨tm, hnewest, hseen, t, rfl, hdenotes⟩
  · unfold LedgerActivity.status
    rw [hseen]
    rfl
  · exact statusFrom_eq_status hnewest.1.1 (hnewest.1.knows hstamped) hdenotes hseen hwindow hnow

theorem IsNewestOf.eq_some {α : Type} {write : Tm → α} {value : Option α} {tm : Tm}
    (h : IsNewestOf write actor blocks value) (hnewest : IsNewestSighting actor blocks tm) :
    value = some (write tm) := by
  rcases h with ⟨-, hnone⟩ | ⟨tm', hnewest', hvalue⟩
  · exact absurd hnewest.1 (hnone tm)
  · rw [hnewest.unique hnewest']
    exact hvalue

theorem IsNewestOf.eq_none {α : Type} {write : Tm → α} {value : Option α}
    (h : IsNewestOf write actor blocks value) (hnone : ∀ tm, ¬SightedAt actor blocks tm) :
    value = none := by
  rcases h with ⟨hvalue, -⟩ | ⟨tm, hnewest, -⟩
  · exact hvalue
  · exact absurd hnewest.1 (hnone tm)

theorem SameNewest.of_newest {seen : Option ℤ} {text : Option Bytes}
    (hseen : IsNewestOf Tm.micros actor blocks seen)
    (htext : IsNewestOf nowRfc3339 actor blocks text) :
    SameNewest isoformat actor blocks seen text := by
  rcases htext with ⟨rfl, hnone⟩ | ⟨tm, hnewest, rfl⟩
  · exact Or.inl ⟨hseen.eq_none hnone, rfl, hnone⟩
  · exact Or.inr ⟨tm, hnewest, hseen.eq_some hnewest, _, rfl, Or.inl rfl⟩

theorem SameNewest.merge {first second : List (Block F)} {seen both : Option ℤ}
    {text : Option Bytes} (hstamped : ∀ b ∈ first, Stamped fromisoformat isoformat dateParse b)
    (hfirst : IsNewestOf Tm.micros actor first seen)
    (hsecond : IsNewestOf nowRfc3339 actor second text)
    (hboth : IsNewestOf Tm.micros actor (first ++ second) both) :
    SameNewest isoformat actor (first ++ second) both
      (mergeLastSeen (seen.map isoformat) text) := by
  rcases hfirst with ⟨rfl, hnone⟩ | ⟨tm, hnewest, rfl⟩
  · rcases hsecond with ⟨rfl, hnone'⟩ | ⟨tm', hnewest', rfl⟩
    · have hnever : ∀ tm, ¬SightedAt actor (first ++ second) tm := by
        intro tm htm
        exact (sightedAt_append.mp htm).elim (hnone tm) (hnone' tm)
      exact Or.inl ⟨hboth.eq_none hnever, rfl, hnever⟩
    · have hnewest : IsNewestSighting actor (first ++ second) tm' := by
        refine ⟨sightedAt_append.mpr (Or.inr hnewest'.1), fun t ht => ?_⟩
        exact hnewest'.2 t ((sightedAt_append.mp ht).resolve_left (hnone t))
      exact Or.inr ⟨tm', hnewest, hboth.eq_some hnewest, _, rfl, Or.inl rfl⟩
  · rcases hsecond with ⟨rfl, hnone'⟩ | ⟨tm', hnewest', rfl⟩
    · have hnewest' : IsNewestSighting actor (first ++ second) tm := by
        refine ⟨sightedAt_append.mpr (Or.inl hnewest.1), fun t ht => ?_⟩
        exact hnewest.2 t ((sightedAt_append.mp ht).resolve_right (hnone' t))
      exact Or.inr ⟨tm, hnewest', hboth.eq_some hnewest', _, rfl, Or.inr rfl⟩
    · have hlater := hnewest.append hnewest'
      refine Or.inr ⟨_, hlater, hboth.eq_some hlater, ?_⟩
      rw [Option.map_some,
        mergeLastSeen_later hnewest.1.1 hnewest'.1.1 (hnewest.1.knows hstamped)]
      split_ifs
      · exact ⟨_, rfl, Or.inl rfl⟩
      · exact ⟨_, rfl, Or.inr rfl⟩

variable (fromisoformat isoformat dateParse) in
/-- The page and the backend agree on when an actor was last seen and on its status, and so do they
where the page has merged what it fetched with what was streamed. -/
structure AgreeOn (historyLimit : ℕ) (payloads fetches : List (List (Block F)))
    (frames : List (BlockFrame F)) (actor : Bytes) : Prop where
  streamed : SameNewest isoformat actor payloads.flatten
    ((consumeAll historyLimit fromisoformat payloads).lastSeen actor)
    ((frames.foldl applyFrame emptyStream).lastSeen.get actor)
  merged : SameNewest isoformat actor (fetches ++ payloads).flatten
    ((consumeAll historyLimit fromisoformat (fetches ++ payloads)).lastSeen actor)
    (mergeLastSeen (((consumeAll historyLimit fromisoformat fetches).lastSeen actor).map isoformat)
      ((frames.foldl applyFrame emptyStream).lastSeen.get actor))
  status : ∀ window elapsed now, timedelta (window * 1000000) = some elapsed →
    0 ≤ now * 1000 + 62135596800000000 ∧ now * 1000 + 62135596800000000 < endOfTime →
    (consumeAll historyLimit fromisoformat payloads).status elapsed actor
        (now * 1000 + 62135596800000000) =
      some (statusFrom dateParse ((frames.foldl applyFrame emptyStream).lastSeen.get actor)
        window now) ∧
    (consumeAll historyLimit fromisoformat (fetches ++ payloads)).status elapsed actor
        (now * 1000 + 62135596800000000) =
      some (statusFrom dateParse (mergeLastSeen
        (((consumeAll historyLimit fromisoformat fetches).lastSeen actor).map isoformat)
        ((frames.foldl applyFrame emptyStream).lastSeen.get actor)) window now)

/-- Blocks that reach the cache in any number of answers, and the page in frames in any order and
any number of times. -/
theorem backend_and_dashboard_agree (historyLimit : ℕ) {payloads fetches : List (List (Block F))}
    {frames : List (BlockFrame F)}
    (hstamped : ∀ b ∈ (fetches ++ payloads).flatten, Stamped fromisoformat isoformat dateParse b)
    (hsame : ∀ b, .block b ∈ frames ↔ b ∈ payloads.flatten) (actor : Bytes) :
    AgreeOn fromisoformat isoformat dateParse historyLimit payloads fetches frames actor := by
  have hsplit := hstamped
  rw [List.flatten_append, List.forall_mem_append] at hsplit
  obtain ⟨hfetches, hpayloads⟩ := hsplit
  have hstream := lastSeen_applyFrames (fun b hb => (hsame b).mp hb) (fun b hb => (hsame b).mpr hb)
    hpayloads actor
  have hcache := lastSeen_consumeAll historyLimit hpayloads actor
  have hfetched := lastSeen_consumeAll historyLimit hfetches actor
  have hboth := lastSeen_consumeAll historyLimit hstamped actor
  rw [List.flatten_append] at hboth
  have hstreamed : SameNewest isoformat actor payloads.flatten _ _ :=
    SameNewest.of_newest hcache hstream
  have hmerged := SameNewest.merge hfetches hfetched hstream hboth
  rw [← List.flatten_append] at hmerged
  refine ⟨hstreamed, hmerged, fun window elapsed now hwindow hnow => ?_⟩
  exact ⟨hstreamed.status hpayloads hwindow hnow, hmerged.status hstamped hwindow hnow⟩

end Sightings

def sampleDateParse (raw : Bytes) : Option ℤ :=
  if raw = nowRfc3339 sampleClock ∨ raw = ascii "2026-09-01T00:00:00+00:00" then
    some 1788220800000
  else none

theorem sampleClock_valid : sampleClock.Valid where
  year := by decide
  date := ⟨by decide, by decide, by decide⟩
  hour := by decide
  minute := by decide
  second := by decide

theorem sampleClock_known : KnowsSecond sampleIso sampleIsoformat sampleDateParse sampleClock where
  fromisoformat := by decide
  isoformat := by decide
  zulu := by decide
  offset := by decide

theorem backend_and_dashboard_agree_sample :
    let reading := makeBlock sampleSha256 sampleClock 1 sampleReadingEvent sampleGenesis.hash
    AgreeOn sampleIso sampleIsoformat sampleDateParse 500 [[sampleGenesis], [sampleGenesis, reading]]
      [[sampleGenesis]] [.block reading, .lagged 2, .block sampleGenesis, .block reading]
      (ascii "node-1") := by
  intro reading
  apply backend_and_dashboard_agree
  · intro b hb
    have hcases : b = sampleGenesis ∨ b = reading := by simpa using hb
    refine ⟨sampleClock, sampleClock_valid, ?_, sampleClock_known⟩
    rcases hcases with rfl | rfl
    · rfl
    · rfl
  · intro b
    simp
    tauto

end Ledger.Frontend

import Ledger.Core.Boot
import Ledger.Core.Server

/-! `GET /blocks` from the query string to the response: the range on machine integers, the slice
between two iterators, and ranges that are fetched one behind the other. -/
namespace Ledger
open Text Json
variable {F : Type} [NumberFloat F]

def ptrdiff (w : UInt64) : ℤ :=
  w.toInt64.toInt

/-- The iterator `offset` behind the one at position `i`, or `none` where that leaves a vector of
`n` elements. -/
def advance (n i : ℕ) (offset : ℤ) : Option ℕ :=
  if 0 ≤ i + offset ∧ i + offset ≤ n then some (i + offset).toNat else none

/-- `slice.assign(blocks.begin() + from, blocks.begin() + to + 1)`, or `none` where that is
undefined. -/
def assignSlice (blocks : List (Block F)) (lower upper : UInt64) : Option (List (Block F)) := do
  let first ← advance blocks.length 0 (ptrdiff lower)
  let last ← advance blocks.length 0 (ptrdiff upper)
  let last ← advance blocks.length last 1
  if first ≤ last then return (blocks.take last).drop first else none

def lastIndex (chain : Chain F) : UInt64 :=
  UInt64.ofNat chain.size - 1

/-- `installBlocks` on `std::uint64_t`, or `none` where its behaviour is undefined. -/
def getBlocks (chain : Chain F) (first last : Option Bytes) :
    Option (Except ApiError (BlocksPage F)) :=
  match parseIndex "from" first 0, parseIndex "to" last (2 ^ 64 - 1) with
  | .error e, _ => some (.error e)
  | .ok _, .error e => some (.error e)
  | .ok lower, .ok toRequested =>
    let lower := UInt64.ofNat lower
    let upper := min (UInt64.ofNat toRequested) (lastIndex chain)
    if upper < lower then
      some (.error ⟨400, ascii "invalid range: from=" ++ decimal lower.toNat ++
        ascii " exceeds to=" ++ decimal upper.toNat⟩)
    else (assignSlice chain.blocks lower upper).map fun slice => .ok ⟨slice, chain.size⟩

/-- The end of the handler; a status that is not set is 200. -/
def blocksResponse : Except ApiError (BlocksPage F) → Except Thrown Response
  | .error e => .error (.api e)
  | .ok page =>
    match dump page.toJson with
    | .ok t => .ok ⟨200, t⟩
    | .error e => .error (.write (.json e))

/-- A query value: absent, or a numeral below `2 ^ 64`. -/
def queryIndex (value : Option Bytes) (fallback : ℕ) : Option ℕ :=
  match value with
  | none => some fallback
  | some value =>
    if value ≠ [] ∧ value.all isDigit ∧ ofDecimal value < 2 ^ 64 then some (ofDecimal value)
    else none

/-- Both ends of the range, if a chain of `n` blocks has it. -/
def requestedRange (n : ℕ) (first last : Option Bytes) : Option (ℕ × ℕ) := do
  let lower ← queryIndex first 0
  let upper ← queryIndex last (n - 1)
  if lower ≤ min upper (n - 1) then some (lower, min upper (n - 1)) else none

theorem parseIndex_of_some {name : String} {value : Option Bytes} {fallback n : ℕ}
    (h : queryIndex value fallback = some n) : parseIndex name value fallback = .ok n := by
  cases value with
  | none => exact congrArg Except.ok (Option.some.inj h)
  | some value =>
    unfold queryIndex at h
    dsimp only at h
    split_ifs at h with hvalue
    obtain ⟨hne, hdigits, hlt⟩ := hvalue
    have hany : value.any (fun c => !isDigit c) = false := by
      rw [List.any_eq_false]
      intro c hc
      simpa using List.all_eq_true.mp hdigits c hc
    rw [parseIndex, if_neg (by simp [hne, hany]), if_pos hlt]
    exact congrArg Except.ok (Option.some.inj h)

theorem parseIndex_of_none {name : String} {value : Option Bytes} {fallback : ℕ}
    (hname : IsAscii name) (h : queryIndex value fallback = none) :
    ∃ e, parseIndex name value fallback = .error e ∧ e.status = 400 ∧
      Utf8.WellFormed e.message := by
  cases value with
  | none => cases h
  | some value =>
    unfold queryIndex at h
    dsimp only at h
    split_ifs at h with hvalue
    unfold parseIndex
    dsimp only
    split_ifs with hbad hlt
    · exact ⟨_, rfl, rfl, hname.wellFormed.append (by decide)⟩
    · rw [not_or, Bool.not_eq_true, List.any_eq_false] at hbad
      refine absurd ⟨hbad.1, ?_, hlt⟩ hvalue
      rw [List.all_eq_true]
      intro c hc
      simpa using hbad.2 c hc
    · exact ⟨_, rfl, rfl, hname.wellFormed.append (by decide)⟩

theorem parseIndex_lt {name : String} {value : Option Bytes} {fallback n : ℕ}
    (hf : fallback < 2 ^ 64) (h : parseIndex name value fallback = .ok n) : n < 2 ^ 64 := by
  unfold parseIndex at h
  cases value with
  | none =>
    rw [← Except.ok.inj h]
    exact hf
  | some value =>
    dsimp only at h
    split_ifs at h with hbad hlt
    rw [← Except.ok.inj h]
    exact hlt

theorem toNat_min (v w : UInt64) : (min v w).toNat = min v.toNat w.toNat := by
  change (if v ≤ w then v else w).toNat = _
  split_ifs with h
  · exact (min_eq_left (UInt64.le_iff_toNat_le.mp h)).symm
  · rw [UInt64.le_iff_toNat_le] at h
    exact (min_eq_right (not_le.mp h).le).symm

theorem ptrdiff_of_lt {w : UInt64} (h : w.toNat < 2 ^ 63) : ptrdiff w = w.toNat := by
  have hlt : 2 * w.toBitVec.toNat < 2 ^ 64 := by
    change 2 * w.toNat < 2 ^ 64
    omega
  exact BitVec.toInt_eq_toNat_of_lt hlt

theorem toNat_lastIndex {chain : Chain F} (hroom : chain.size < 2 ^ 64) :
    (lastIndex chain).toNat = chain.size - 1 := by
  have hpos : 0 < chain.size := List.length_pos_of_ne_nil chain.ne_nil
  have hsize : (UInt64.ofNat chain.size).toNat = chain.size := UInt64.toNat_ofNat_of_lt' hroom
  have hone : (1 : UInt64) ≤ UInt64.ofNat chain.size := by
    rw [UInt64.le_iff_toNat_le, hsize]
    exact hpos
  rw [lastIndex, UInt64.toNat_sub_of_le _ _ hone, hsize]
  rfl

theorem assignSlice_eq {blocks : List (Block F)} {lower upper : UInt64}
    (hroom : blocks.length ≤ 2 ^ 63) (hle : lower ≤ upper) (hupper : upper.toNat < blocks.length) :
    assignSlice blocks lower upper =
      some ((blocks.drop lower.toNat).take (upper.toNat + 1 - lower.toNat)) := by
  have hle' : lower.toNat ≤ upper.toNat := UInt64.le_iff_toNat_le.mp hle
  have hfirst : advance blocks.length 0 (ptrdiff lower) = some lower.toNat := by
    rw [ptrdiff_of_lt (by omega), advance, if_pos (by omega)]
    congr 1
    omega
  have hlast : advance blocks.length 0 (ptrdiff upper) = some upper.toNat := by
    rw [ptrdiff_of_lt (by omega), advance, if_pos (by omega)]
    congr 1
    omega
  have hend : advance blocks.length upper.toNat 1 = some (upper.toNat + 1) := by
    rw [advance, if_pos (by omega)]
    congr 1
  simp only [assignSlice, hfirst, hlast, hend, Option.bind_eq_bind, Option.bind_some]
  rw [if_pos (by omega), List.drop_take]
  rfl

/-- On a chain that a vector can hold, nothing underflows, no iterator leaves the vector, and the
machine integers compute what the natural numbers do. -/
theorem getBlocks_eq {chain : Chain F} (hroom : chain.size ≤ 2 ^ 63) (first last : Option Bytes) :
    getBlocks chain first last = some (installBlocks chain first last) := by
  have hpos : 0 < chain.size := List.length_pos_of_ne_nil chain.ne_nil
  unfold getBlocks installBlocks
  cases hlower : parseIndex "from" first 0 with
  | error e => rfl
  | ok lower =>
    cases hto : parseIndex "to" last (2 ^ 64 - 1) with
    | error e => rfl
    | ok toRequested =>
      have hlower' : (UInt64.ofNat lower).toNat = lower :=
        UInt64.toNat_ofNat_of_lt' (parseIndex_lt (by decide) hlower)
      have hto' : (UInt64.ofNat toRequested).toNat = toRequested :=
        UInt64.toNat_ofNat_of_lt' (parseIndex_lt (by decide) hto)
      have hupper : (min (UInt64.ofNat toRequested) (lastIndex chain)).toNat =
          min toRequested (chain.size - 1) := by
        rw [toNat_min, hto', toNat_lastIndex (by omega)]
      have hiff : min (UInt64.ofNat toRequested) (lastIndex chain) < UInt64.ofNat lower ↔
          min toRequested (chain.size - 1) < lower := by
        rw [UInt64.lt_iff_toNat_lt, hupper, hlower']
      dsimp only [bind, Except.bind]
      by_cases hlt : min toRequested (chain.size - 1) < lower
      · rw [if_pos (hiff.mpr hlt), if_pos hlt, hupper, hlower']
        rfl
      · have hle : UInt64.ofNat lower ≤ min (UInt64.ofNat toRequested) (lastIndex chain) := by
          rw [UInt64.le_iff_toNat_le, hupper, hlower']
          exact not_lt.mp hlt
        have hinside : (min (UInt64.ofNat toRequested) (lastIndex chain)).toNat <
            chain.blocks.length := by
          rw [hupper]
          change _ < chain.size
          omega
        rw [if_neg (fun h => hlt (hiff.mp h)), if_neg hlt, assignSlice_eq hroom hle hinside, hupper,
          hlower']
        rfl

theorem exists_toRequested {n : ℕ} (hroom : n < 2 ^ 64) {last : Option Bytes} {up : ℕ}
    (h : queryIndex last (n - 1) = some up) :
    ∃ t, parseIndex "to" last (2 ^ 64 - 1) = .ok t ∧ min t (n - 1) = min up (n - 1) := by
  cases last with
  | none =>
    obtain rfl : n - 1 = up := Option.some.inj h
    exact ⟨2 ^ 64 - 1, rfl, by omega⟩
  | some value =>
    have hvalue : queryIndex (some value) (2 ^ 64 - 1) = some up := h
    exact ⟨up, parseIndex_of_some hvalue, rfl⟩

theorem installBlocks_of_some {chain : Chain F} (hroom : chain.size < 2 ^ 64)
    {first last : Option Bytes} {lower upper : ℕ}
    (h : requestedRange chain.size first last = some (lower, upper)) :
    lower ≤ upper ∧ upper < chain.size ∧
      installBlocks chain first last =
        .ok ⟨(chain.blocks.take (upper + 1)).drop lower, chain.size⟩ := by
  have hpos : 0 < chain.size := List.length_pos_of_ne_nil chain.ne_nil
  obtain ⟨low, hlow, h⟩ := Option.bind_eq_some_iff.mp h
  obtain ⟨up, hup, h⟩ := Option.bind_eq_some_iff.mp h
  split_ifs at h with hle
  obtain ⟨rfl, rfl⟩ := Prod.mk.inj (Option.some.inj h)
  obtain ⟨toRequested, hto, hmin⟩ := exists_toRequested hroom hup
  refine ⟨hle, by omega, ?_⟩
  rw [installBlocks, parseIndex_of_some hlow]
  dsimp only [bind, Except.bind]
  rw [hto]
  dsimp only [Except.bind]
  rw [hmin, if_neg (not_lt.mpr hle), List.drop_take]
  rfl

theorem installBlocks_of_none {chain : Chain F} (hroom : chain.size < 2 ^ 64)
    {first last : Option Bytes} (h : requestedRange chain.size first last = none) :
    ∃ e, installBlocks chain first last = .error e ∧ e.status = 400 ∧
      Utf8.WellFormed e.message := by
  unfold installBlocks
  cases hlow : queryIndex first 0 with
  | none =>
    have hname : IsAscii "from" := by decide
    obtain ⟨e, he, hmessage⟩ := parseIndex_of_none hname hlow
    rw [he]
    exact ⟨e, rfl, hmessage⟩
  | some lower =>
    rw [parseIndex_of_some hlow]
    dsimp only [bind, Except.bind]
    cases hup : queryIndex last (chain.size - 1) with
    | none =>
      have hnone : queryIndex last (2 ^ 64 - 1) = none := by
        cases last with
        | none => cases hup
        | some value => exact hup
      have hname : IsAscii "to" := by decide
      obtain ⟨e, he, hmessage⟩ := parseIndex_of_none hname hnone
      rw [he]
      exact ⟨e, rfl, hmessage⟩
    | some up =>
      have hlt : min up (chain.size - 1) < lower := by
        rw [requestedRange, hlow, hup] at h
        by_contra hle
        have hsome : lower ≤ min up (chain.size - 1) := not_lt.mp hle
        simp only [Option.bind_eq_bind, Option.bind_some, if_pos hsome] at h
        cases h
      obtain ⟨toRequested, hto, hmin⟩ := exists_toRequested hroom hup
      rw [hto]
      dsimp only
      rw [hmin, if_pos hlt]
      refine ⟨_, rfl, rfl, ?_⟩
      exact (((Utf8.WellFormed.append (by decide) (decimal_wellFormed _)).append (by decide)).append
        (decimal_wellFormed _))

def Chain.WellFormed (c : Chain F) : Prop :=
  ∀ b ∈ c.blocks, b.WellFormed

theorem bind_ok {ε α β : Type} {x : Except ε α} {f : α → Except ε β} {b : β}
    (h : x >>= f = .ok b) : ∃ a, x = .ok a ∧ f a = .ok b := by
  cases x with
  | error e => cases h
  | ok a => exact ⟨a, rfl, h⟩

theorem Block.decode_wellFormed {line : Bytes} {b : Block F} (h : Block.decode line = .ok b) :
    b.WellFormed := by
  obtain ⟨j, -, h⟩ := bind_ok h
  obtain ⟨i, -, h⟩ := bind_ok h
  obtain ⟨index, -, h⟩ := bind_ok h
  obtain ⟨t, -, h⟩ := bind_ok h
  obtain ⟨timestamp, -, h⟩ := bind_ok h
  obtain ⟨e, -, h⟩ := bind_ok h
  obtain ⟨event, -, h⟩ := bind_ok h
  obtain ⟨p, -, h⟩ := bind_ok h
  obtain ⟨prevHash, -, h⟩ := bind_ok h
  obtain ⟨d, -, h⟩ := bind_ok h
  obtain ⟨hash, -, h⟩ := bind_ok h
  obtain rfl := Except.ok.inj h
  exact ⟨timestamp.2, prevHash.2, hash.2⟩

theorem Encodes.wellFormed {lines : List Bytes} {blocks : List (Block F)}
    (h : Encodes lines blocks) : ∀ b ∈ blocks, b.WellFormed := by
  induction h with
  | nil => simp
  | cons hb _ ih => exact List.forall_mem_cons.mpr ⟨Block.decode_wellFormed hb, ih⟩

theorem genesis_wellFormed (sha256 : Bytes → Digest) (now : Tm) :
    (genesis (F := F) sha256 now).WellFormed :=
  makeBlock_wellFormed _ _ _ _ (by decide)

theorem Chain.fresh_wellFormed (sha256 : Bytes → Digest) (now : Tm) :
    (Chain.fresh (F := F) sha256 now).WellFormed := by
  intro b hb
  rw [List.mem_singleton.mp hb]
  exact genesis_wellFormed sha256 now

theorem boot_wellFormed {sha256 : Bytes → Digest} {now : Tm} {path : LedgerPath}
    {opened : Except StorageError Unit} {io : WriteOutcome} {chain : Chain F} {log : OFStream}
    (h : boot sha256 now path opened io = .ok (chain, log)) : chain.WellFormed := by
  by_cases hempty : path.content = []
  · rw [(boot_empty hempty h).1]
    exact Chain.fresh_wellFormed sha256 now
  · have hload := ((boot_nonempty hempty).mp h).1
    cases path with
    | missing => exact absurd rfl hempty
    | readable content => exact ((loadChain_ok_iff sha256 now hempty).mp hload).wellFormed
    | appendOnly content =>
      rw [← Except.ok.inj hload]
      exact Chain.fresh_wellFormed sha256 now

theorem wellFormed_grows (sha256 : Bytes → Digest) :
    Grows (F := F) sha256 Chain.WellFormed := by
  intro c now event _ hc b hb
  rw [Chain.pushPersisted_blocks] at hb
  rcases List.mem_append.mp hb with hb | hb
  · exact hc b hb
  · rw [List.mem_singleton.mp hb]
    exact makeBlock_wellFormed _ _ _ _ (hc _ (List.getLast_mem c.ne_nil)).hash

theorem BlocksPage.toJson_valid {page : BlocksPage F} (h : ∀ b ∈ page.blocks, b.WellFormed) :
    page.toJson.Valid := by
  have hsorted : keyOrder (ascii "blocks") < keyOrder (ascii "chain_length") := by decide
  rw [BlocksPage.toJson, Valid, ValidMembers, ValidMembers, ValidMembers, Valid]
  refine ⟨List.pairwise_pair.mpr hsorted, ⟨by decide, ?_⟩, ⟨by decide, trivial⟩, trivial⟩
  rw [Valid, validElements_iff]
  intro v hv
  obtain ⟨b, hb, rfl⟩ := List.mem_map.mp hv
  exact (h b hb).toJson_valid

/-- What comes back for a range: a 400, or the blocks of the range and the length of the chain. -/
structure RangeAnswered (chain : Chain F) (first last : Option Bytes) : Prop where
  noUnderflow : (lastIndex chain).toNat + 1 = chain.size
  answered : ∃ routed, getBlocks chain first last = some routed ∧
    ∃ res, processRequest F (.ok (blocksResponse routed)) = .ok res ∧
      (requestedRange chain.size first last = none → res.status = 400) ∧
      ∀ lower upper, requestedRange chain.size first last = some (lower, upper) →
        res.status = 200 ∧ parse res.body =
          .ok (BlocksPage.toJson ⟨(chain.blocks.take (upper + 1)).drop lower, chain.size⟩)

theorem rangeAnswered [LawfulNumberFloat F] {chain : Chain F} (hwf : chain.WellFormed)
    (hroom : chain.size ≤ 2 ^ 63) (first last : Option Bytes) :
    RangeAnswered chain first last := by
  have hpos : 0 < chain.size := List.length_pos_of_ne_nil chain.ne_nil
  have hroom' : chain.size < 2 ^ 64 := by omega
  constructor
  · rw [toNat_lastIndex hroom']
    omega
  · refine ⟨_, getBlocks_eq hroom first last, ?_⟩
    cases hrange : requestedRange chain.size first last with
    | none =>
      obtain ⟨e, he, hstatus, hmessage⟩ := installBlocks_of_none hroom' hrange
      rw [he]
      exact ⟨_, processRequest_api hmessage, fun _ => hstatus, fun _ _ h => by cases h⟩
    | some range =>
      obtain ⟨lower, upper⟩ := range
      obtain ⟨-, -, hpage⟩ := installBlocks_of_some hroom' hrange
      have hvalid : (BlocksPage.toJson (F := F)
          ⟨(chain.blocks.take (upper + 1)).drop lower, chain.size⟩).Valid :=
        BlocksPage.toJson_valid fun b hb => hwf b (List.mem_of_mem_take (List.mem_of_mem_drop hb))
      have hresponse : blocksResponse (installBlocks chain first last) = .ok ⟨200,
          text (BlocksPage.toJson ⟨(chain.blocks.take (upper + 1)).drop lower, chain.size⟩)⟩ := by
        rw [hpage, blocksResponse, dump_eq_text hvalid]
      rw [hresponse]
      refine ⟨_, rfl, fun h => (by cases h), ?_⟩
      intro lower' upper' h
      obtain ⟨rfl, rfl⟩ := Prod.mk.inj (Option.some.inj h)
      exact ⟨rfl, parse_text hvalid⟩

section Run
variable (sha256 : Bytes → Digest) (capacity : ℕ) {Log : Type}
  (append : Log → Block F → Except WriteError Unit → Log → Prop)

/-- Ranges that each begin behind the last block of the one before, while the chain grows: where
the next one begins, and the blocks so far. -/
inductive Paging : State F Log → ℕ → List (Block F) → Prop
  | start (s : State F Log) : Paging s 0 []
  | grow {s t : State F Log} {next : ℕ} {fetched : List (Block F)} (h : Paging s next fetched)
      (hstep : Step sha256 capacity append s t) : Paging t next fetched
  | fetch {s : State F Log} {next : ℕ} {fetched : List (Block F)} (h : Paging s next fetched)
      (first last : Option Bytes) (hfirst : queryIndex first 0 = some next) (page : BlocksPage F)
      (hpage : getBlocks s.chain first last = some (.ok page)) :
    Paging s (next + page.blocks.length) (fetched ++ page.blocks)

variable {sha256 capacity append}

theorem Step.chain_prefix {s t : State F Log} (h : Step sha256 capacity append s t) :
    s.chain.blocks <+: t.chain.blocks := by
  cases h with
  | push id b h hmem => exact List.prefix_append ..
  | _ => exact List.prefix_rfl

theorem page_eq {chain : Chain F} (hroom : chain.size ≤ 2 ^ 63) {first last : Option Bytes}
    {next : ℕ} (hfirst : queryIndex first 0 = some next) {page : BlocksPage F}
    (hpage : getBlocks chain first last = some (.ok page)) :
    next + page.blocks.length ≤ chain.size ∧
      chain.blocks.take next ++ page.blocks = chain.blocks.take (next + page.blocks.length) := by
  rw [getBlocks_eq hroom] at hpage
  have hroom' : chain.size < 2 ^ 64 := by omega
  cases hrange : requestedRange chain.size first last with
  | none =>
    obtain ⟨e, he, -⟩ := installBlocks_of_none hroom' hrange
    rw [he] at hpage
    cases hpage
  | some range =>
    obtain ⟨lower, upper⟩ := range
    obtain ⟨hle, hlt, hok⟩ := installBlocks_of_some hroom' hrange
    have hlower : lower = next := by
      obtain ⟨low, hlow, hrest⟩ := Option.bind_eq_some_iff.mp hrange
      obtain ⟨up, -, hrest⟩ := Option.bind_eq_some_iff.mp hrest
      split_ifs at hrest
      rw [← (Prod.mk.inj (Option.some.inj hrest)).1]
      exact Option.some.inj (hlow.symm.trans hfirst)
    subst hlower
    rw [hok] at hpage
    obtain rfl := Except.ok.inj (Option.some.inj hpage)
    have hlength : ((chain.blocks.take (upper + 1)).drop lower).length = upper + 1 - lower := by
      rw [List.length_drop, List.length_take]
      change min (upper + 1) chain.size - lower = _
      omega
    have hend : lower + (upper + 1 - lower) = upper + 1 := by omega
    dsimp only
    rw [hlength, hend]
    refine ⟨hlt, ?_⟩
    have htake : chain.blocks.take lower = (chain.blocks.take (upper + 1)).take lower := by
      rw [List.take_take, min_eq_left (by omega)]
    rw [htake, List.take_append_drop]

theorem Paging.fetched_eq {s : State F Log} {next : ℕ} {fetched : List (Block F)}
    (h : Paging sha256 capacity append s next fetched) (hroom : s.chain.size ≤ 2 ^ 63) :
    next ≤ s.chain.size ∧ fetched = s.chain.blocks.take next := by
  induction h with
  | start s => exact ⟨Nat.zero_le _, rfl⟩
  | @grow s t next fetched h hstep ih =>
    have hprefix := hstep.chain_prefix
    have hle : s.chain.size ≤ t.chain.size := hprefix.length_le
    obtain ⟨hnext, rfl⟩ := ih (hle.trans hroom)
    refine ⟨hnext.trans hle, ?_⟩
    obtain ⟨rest, hrest⟩ := hprefix
    rw [← hrest, List.take_append_of_le_length hnext]
  | @fetch s next fetched h first last hfirst page hpage ih =>
    obtain ⟨-, rfl⟩ := ih hroom
    exact page_eq hroom hfirst hpage

/-- Every request for a range of a chain that goes back to a boot is answered as it says, and the
ranges fetched one behind the other are the beginning of the chain. -/
theorem blocks_range_exact [LawfulNumberFloat F] {now : Tm} {path : LedgerPath}
    {opened : Except StorageError Unit} {io : WriteOutcome} {chain : Chain F} {log : OFStream}
    (hboot : boot sha256 now path opened io = .ok (chain, log))
    {append : OFStream → Block F → Except WriteError Unit → OFStream → Prop} {s : State F OFStream}
    (hrun : Reachable sha256 capacity append log chain s) (hroom : s.chain.size ≤ 2 ^ 63) :
    (∀ first last, RangeAnswered s.chain first last) ∧
      ∀ next fetched, Paging sha256 capacity append s next fetched →
        next ≤ s.chain.size ∧ fetched = s.chain.blocks.take next := by
  have hwf : s.chain.WellFormed := hrun.chain (wellFormed_grows sha256) (boot_wellFormed hboot)
  constructor
  · exact rangeAnswered hwf hroom
  · exact fun _ _ h => h.fetched_eq hroom

end Run

theorem blocks_range_exact_sample :
    RangeAnswered (F := Numeral) ⟨[sampleGenesis, sampleBlock], by simp⟩ (some (ascii "01"))
        (some (ascii "18446744073709551615")) ∧
      requestedRange 2 (some (ascii "01")) (some (ascii "18446744073709551615")) = some (1, 1) := by
  have hrun : Reachable sampleSha256 1 (Appends AnyOutcome) ⟨sampleLedger, none⟩
      ⟨[sampleGenesis, sampleBlock], by simp⟩ (State.boot _ _) := .refl
  exact ⟨(blocks_range_exact boot_sampleLedger_readable hrun (by decide)).1 _ _, by decide⟩

end Ledger

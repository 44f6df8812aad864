import Ledger.Json.Prefix

/-! Events and blocks, their JSON form and the hash over them. -/
namespace Ledger
open Text Json
variable {F : Type} [NumberFloat F]

/-- A string as a parse returns it. -/
abbrev ValidString := {s : Bytes // Utf8.WellFormed s}

/-- A value as a parse returns it. -/
abbrev ValidJson (F : Type) [NumberFloat F] := {v : Json F // v.Valid}

structure EventPayload (F : Type) [NumberFloat F] where
  eventType : ValidString
  locationId : ValidString
  actor : ValidString
  description : ValidString
  metadata : ValidJson F

structure Block (F : Type) [NumberFloat F] where
  index : UInt64
  timestamp : Bytes
  event : EventPayload F
  prevHash : Bytes
  hash : Bytes

/-- `json[key] = value` for each member, starting from `null`. -/
def fields (members : List (String × Json F)) : Json F :=
  .object (members.foldl (fun ms m => assign (ascii m.1) m.2 ms) [])

def EventPayload.toJson (e : EventPayload F) : Json F :=
  fields [("event_type", .string e.eventType.1), ("location_id", .string e.locationId.1),
    ("actor", .string e.actor.1), ("description", .string e.description.1),
    ("metadata", e.metadata.1)]

def Block.toJson (b : Block F) : Json F :=
  fields [("index", .number (.ofUInt64 b.index)), ("timestamp", .string b.timestamp),
    ("event", b.event.toJson), ("prev_hash", .string b.prevHash), ("hash", .string b.hash)]

/-- The members of an event in the order `dump` writes them. -/
def EventPayload.members (e : EventPayload F) : Members F :=
  [(ascii "actor", .string e.actor.1), (ascii "description", .string e.description.1),
    (ascii "event_type", .string e.eventType.1), (ascii "location_id", .string e.locationId.1),
    (ascii "metadata", e.metadata.1)]

def Block.members (b : Block F) : Members F :=
  [(ascii "event", b.event.toJson), (ascii "hash", .string b.hash),
    (ascii "index", .number (.ofUInt64 b.index)), (ascii "prev_hash", .string b.prevHash),
    (ascii "timestamp", .string b.timestamp)]

theorem EventPayload.toJson_eq (e : EventPayload F) : e.toJson = .object e.members := by
  simp +decide only [toJson, fields, List.foldl_cons, List.foldl_nil, assign, if_true, if_false]
  rfl

theorem Block.toJson_eq (b : Block F) : b.toJson = .object b.members := by
  simp +decide only [toJson, fields, List.foldl_cons, List.foldl_nil, assign, if_true, if_false]
  rfl

theorem Block.nesting_toJson (b : Block F) :
    b.toJson.nesting = b.event.metadata.1.nesting + 2 := by
  simp [toJson_eq, members, EventPayload.toJson_eq, EventPayload.members, nesting, membersNesting]

theorem EventPayload.members_sorted (e : EventPayload F) : Sorted e.members := by
  have hkeys : [ascii "actor", ascii "description", ascii "event_type", ascii "location_id",
      ascii "metadata"].Pairwise fun a b => keyOrder a < keyOrder b := by decide
  exact sorted_iff.mpr hkeys

theorem Block.members_sorted (b : Block F) : Sorted b.members := by
  have hkeys : [ascii "event", ascii "hash", ascii "index", ascii "prev_hash",
      ascii "timestamp"].Pairwise fun a b => keyOrder a < keyOrder b := by decide
  exact sorted_iff.mpr hkeys

theorem EventPayload.toJson_valid (e : EventPayload F) : e.toJson.Valid := by
  rw [toJson_eq, Valid]
  refine ⟨e.members_sorted, ?_⟩
  simp only [EventPayload.members, ValidMembers, Valid, and_true]
  exact ⟨⟨by decide, e.actor.2⟩, ⟨by decide, e.description.2⟩, ⟨by decide, e.eventType.2⟩,
    ⟨by decide, e.locationId.2⟩, by decide, e.metadata.2⟩

/-- The strings of a block outside its event are well-formed. -/
structure Block.WellFormed (b : Block F) : Prop where
  timestamp : Utf8.WellFormed b.timestamp
  prevHash : Utf8.WellFormed b.prevHash
  hash : Utf8.WellFormed b.hash

theorem Block.WellFormed.toJson_valid {b : Block F} (h : b.WellFormed) : b.toJson.Valid := by
  rw [Block.toJson_eq, Valid]
  refine ⟨b.members_sorted, ?_⟩
  simp only [Block.members, ValidMembers, Valid, and_true]
  exact ⟨⟨by decide, b.event.toJson_valid⟩, ⟨by decide, h.hash⟩, by decide,
    ⟨by decide, h.prevHash⟩, by decide, h.timestamp⟩

/-- A block dumps exactly when its strings are well-formed. -/
theorem Block.dump_ok_iff {b : Block F} : (∃ t, dump b.toJson = .ok t) ↔ b.WellFormed := by
  refine ⟨fun ⟨t, ht⟩ => ?_, fun h => ⟨_, dump_eq_text h.toJson_valid⟩⟩
  rw [Block.toJson_eq] at ht
  have member {k s : Bytes} (hm : (k, (.string s : Json F)) ∈ b.members) : Utf8.WellFormed s :=
    (dump_member_ok ht hm).elim fun _ hu => wellFormed_of_dump_string hu
  exact ⟨member (k := ascii "timestamp") (by simp [members]),
    member (k := ascii "prev_hash") (by simp [members]),
    member (k := ascii "hash") (by simp [members])⟩

/-- `json::parse(input)`, together with what it guarantees. -/
def parseDocument (input : Bytes) : Except Exception (ValidJson F) :=
  match h : parse input with
  | .ok v => .ok ⟨v, parse_valid h⟩
  | .error e => .error e

theorem atKey_valid {j v : Json F} (hj : j.Valid) {key : String} (h : atKey j key = .ok v) :
    v.Valid := by
  unfold atKey at h
  split at h
  · rename_i ms
    rw [Valid] at hj
    split at h
    · rename_i w hw
      cases h
      exact (validMembers_iff.mp hj.2 _ (mem_of_lookup hw)).2
    · cases h
  · cases h

def ValidJson.at (j : ValidJson F) (key : String) : Except Exception (ValidJson F) :=
  match h : atKey j.1 key with
  | .ok v => .ok ⟨v, atKey_valid j.2 h⟩
  | .error e => .error e

theorem getString_valid {j : Json F} (hj : j.Valid) {s : Bytes} (h : Json.getString j = .ok s) :
    Utf8.WellFormed s := by
  cases j <;> cases h
  exact hj

def ValidJson.getString (j : ValidJson F) : Except Exception ValidString :=
  match h : Json.getString j.1 with
  | .ok s => .ok ⟨s, getString_valid j.2 h⟩
  | .error e => .error e

def EventPayload.fromJson (j : ValidJson F) : Except Exception (EventPayload F) := do
  let eventType ← (← ValidJson.at j "event_type").getString
  let locationId ← (← ValidJson.at j "location_id").getString
  let actor ← (← ValidJson.at j "actor").getString
  let description ← (← ValidJson.at j "description").getString
  let metadata ← ValidJson.at j "metadata"
  return ⟨eventType, locationId, actor, description, metadata⟩

def Block.fromJson (j : ValidJson F) : Except Exception (Block F) := do
  let index ← getUInt64 (← ValidJson.at j "index").1
  let timestamp ← (← ValidJson.at j "timestamp").getString
  let event ← EventPayload.fromJson (← ValidJson.at j "event")
  let prevHash ← (← ValidJson.at j "prev_hash").getString
  let hash ← (← ValidJson.at j "hash").getString
  return ⟨index, timestamp.1, event, prevHash.1, hash.1⟩

def Block.decode (line : Bytes) : Except Exception (Block F) := do
  Block.fromJson (← parseDocument line)

theorem ValidJson.at_eq {j : ValidJson F} {ms : Members F} (hj : j.1 = .object ms)
    (hs : Sorted ms) {key : String} {v : Json F} (hm : (ascii key, v) ∈ ms) (hv : v.Valid) :
    ValidJson.at j key = .ok ⟨v, hv⟩ := by
  have h : atKey j.1 key = .ok v := by rw [hj, atKey_of_mem hs hm]
  unfold ValidJson.at
  split
  · rename_i w hw
    rw [h] at hw
    cases hw
    rfl
  · rename_i e he
    rw [h] at he
    cases he

theorem parseDocument_ok {input : Bytes} {v : Json F} (h : parse input = .ok v) :
    parseDocument input = .ok ⟨v, parse_valid h⟩ := by
  unfold parseDocument
  split
  · rename_i w hw
    rw [h] at hw
    cases hw
    rfl
  · rename_i e he
    rw [h] at he
    cases he

theorem parseDocument_error {input : Bytes} {e : Exception} (h : parse (F := F) input = .error e) :
    parseDocument (F := F) input = .error e := by
  unfold parseDocument
  split
  · rename_i v hv
    rw [h] at hv
    cases hv
  · rename_i e' he
    rw [h] at he
    cases he
    rfl

theorem parse_of_parseDocument {input : Bytes} {j : ValidJson F}
    (h : parseDocument input = .ok j) : parse input = .ok j.1 := by
  unfold parseDocument at h
  split at h
  · rename_i v hv
    cases h
    exact hv
  · cases h

theorem toUInt64_ofUInt64 (w : UInt64) : JsonInt.toUInt64 (.ofUInt64 w) = w := by
  have hw := w.toNat_lt
  have hmod : ((w.toNat : ℤ) % 2 ^ 64).toNat = w.toNat := by omega
  rw [JsonInt.toUInt64, JsonInt.ofUInt64, hmod]
  exact UInt64.ofNat_toNat

theorem EventPayload.fromJson_toJson (e : EventPayload F) :
    EventPayload.fromJson ⟨e.toJson, e.toJson_valid⟩ = .ok e := by
  have look {key : String} {v : Json F} (hm : (ascii key, v) ∈ e.members) (hv : v.Valid) :
      ValidJson.at ⟨e.toJson, e.toJson_valid⟩ key = .ok ⟨v, hv⟩ :=
    ValidJson.at_eq e.toJson_eq e.members_sorted hm hv
  rw [fromJson, look (v := .string e.eventType.1) (by simp [members]) e.eventType.2,
    look (v := .string e.locationId.1) (by simp [members]) e.locationId.2,
    look (v := .string e.actor.1) (by simp [members]) e.actor.2,
    look (v := .string e.description.1) (by simp [members]) e.description.2,
    look (v := e.metadata.1) (by simp [members]) e.metadata.2]
  rfl

theorem Block.fromJson_toJson {b : Block F} (h : b.WellFormed) :
    Block.fromJson ⟨b.toJson, h.toJson_valid⟩ = .ok b := by
  have look {key : String} {v : Json F} (hm : (ascii key, v) ∈ b.members) (hv : v.Valid) :
      ValidJson.at ⟨b.toJson, h.toJson_valid⟩ key = .ok ⟨v, hv⟩ :=
    ValidJson.at_eq b.toJson_eq b.members_sorted hm hv
  have hindex : getUInt64 (F := F) (.number (.ofUInt64 b.index)) = .ok b.index :=
    congrArg Except.ok (toUInt64_ofUInt64 b.index)
  rw [fromJson, look (v := .number (.ofUInt64 b.index)) (by simp [members]) trivial,
    look (v := .string b.timestamp) (by simp [members]) h.timestamp,
    look (v := b.event.toJson) (by simp [members]) b.event.toJson_valid,
    look (v := .string b.prevHash) (by simp [members]) h.prevHash,
    look (v := .string b.hash) (by simp [members]) h.hash]
  simp only [bind, Except.bind, hindex, EventPayload.fromJson_toJson]
  rfl

/-- Reading back the line written for a block gives the block. -/
theorem Block.decode_text [LawfulNumberFloat F] {b : Block F} (h : b.WellFormed) :
    Block.decode (text b.toJson) = .ok b := by
  rw [decode, parseDocument_ok (parse_text h.toJson_valid)]
  exact Block.fromJson_toJson h

/-- A SHA-256 digest. -/
abbrev Digest := {d : Bytes // d.length = 32}

/-- `json(event).dump()`. -/
def EventPayload.dump (e : EventPayload F) : Bytes :=
  text e.toJson

theorem EventPayload.dump_toJson (e : EventPayload F) : Json.dump e.toJson = .ok e.dump :=
  dump_eq_text e.toJson_valid

/-- The bytes `compute_hash` feeds to SHA-256, with no separators between them. -/
def preimage (index : UInt64) (timestamp : Bytes) (event : EventPayload F) (prevHash : Bytes) :
    Bytes :=
  littleEndian index ++ timestamp ++ event.dump ++ prevHash

def computeHash (sha256 : Bytes → Digest) (index : UInt64) (timestamp : Bytes)
    (event : EventPayload F) (prevHash : Bytes) : Bytes :=
  hexText (sha256 (preimage index timestamp event prevHash)).1

def Block.preimage (b : Block F) : Bytes :=
  Ledger.preimage b.index b.timestamp b.event b.prevHash

def Block.computeHash (sha256 : Bytes → Digest) (b : Block F) : Bytes :=
  Ledger.computeHash sha256 b.index b.timestamp b.event b.prevHash

/-- What `gmtime_r` makes of the clock, the month and the day counted from one. -/
structure Tm where
  year : ℕ
  month : ℕ
  day : ℕ
  hour : ℕ
  minute : ℕ
  second : ℕ

def twoDigits (n : ℕ) : Bytes :=
  if n < 10 then 0x30 :: decimal n else decimal n

def nowRfc3339 (tm : Tm) : Bytes :=
  decimal tm.year ++ ascii "-" ++ twoDigits tm.month ++ ascii "-" ++ twoDigits tm.day ++
    ascii "T" ++ twoDigits tm.hour ++ ascii ":" ++ twoDigits tm.minute ++ ascii ":" ++
    twoDigits tm.second ++ ascii "Z"

def makeBlock (sha256 : Bytes → Digest) (now : Tm) (index : UInt64) (event : EventPayload F)
    (prevHash : Bytes) : Block F where
  index
  timestamp := nowRfc3339 now
  event
  prevHash
  hash := computeHash sha256 index (nowRfc3339 now) event prevHash

def zeroHash : Bytes :=
  List.replicate 64 0x30

def genesisEvent : EventPayload F where
  eventType := ⟨ascii "GENESIS", by decide⟩
  locationId := ⟨ascii "system", by decide⟩
  actor := ⟨ascii "system", by decide⟩
  description := ⟨ascii "Genesis block", by decide⟩
  metadata := ⟨.object [], List.Pairwise.nil, trivial⟩

def genesis (sha256 : Bytes → Digest) (now : Tm) : Block F :=
  makeBlock sha256 now 0 genesisEvent zeroHash

theorem hexText_ascii (t : Bytes) : ∀ b ∈ hexText t, b ≤ 0x7F := by
  have digit {d : ℕ} (hd : d < 16) : hexDigit d ≤ 0x7F := by
    interval_cases d <;> decide
  intro b hb
  obtain ⟨c, -, hc⟩ := List.mem_flatMap.mp hb
  have hlt := c.toNat_lt
  simp only [hexByte, List.mem_cons, List.not_mem_nil, or_false] at hc
  rcases hc with rfl | rfl
  · exact digit (by omega)
  · exact digit (by omega)

theorem computeHash_wellFormed (sha256 : Bytes → Digest) (index : UInt64) (timestamp : Bytes)
    (event : EventPayload F) (prevHash : Bytes) :
    Utf8.WellFormed (computeHash sha256 index timestamp event prevHash) :=
  Utf8.wellFormed_ascii (hexText_ascii _)

theorem length_computeHash (sha256 : Bytes → Digest) (index : UInt64) (timestamp : Bytes)
    (event : EventPayload F) (prevHash : Bytes) :
    (computeHash sha256 index timestamp event prevHash).length = 64 := by
  rw [computeHash, length_hexText, (sha256 _).2]

theorem nowRfc3339_wellFormed (tm : Tm) : Utf8.WellFormed (nowRfc3339 tm) := by
  have two (n : ℕ) : Utf8.WellFormed (twoDigits n) := by
    unfold twoDigits
    split_ifs
    · exact (Utf8.WellFormed.cons_ascii (by decide) _).mpr (decimal_wellFormed n)
    · exact decimal_wellFormed n
  have dash : Utf8.WellFormed (ascii "-") := by decide
  have colon : Utf8.WellFormed (ascii ":") := by decide
  exact (((((((((((decimal_wellFormed _).append dash).append (two _)).append dash).append
    (two _)).append (by decide)).append (two _)).append colon).append (two _)).append
    colon).append (two _)).append (by decide)

theorem makeBlock_wellFormed (sha256 : Bytes → Digest) (now : Tm) (index : UInt64)
    (event : EventPayload F) {prevHash : Bytes} (h : Utf8.WellFormed prevHash) :
    (makeBlock sha256 now index event prevHash).WellFormed :=
  ⟨nowRfc3339_wellFormed now, h, computeHash_wellFormed ..⟩

def sampleClock : Tm :=
  ⟨2026, 9, 1, 0, 0, 0⟩

def sampleEvent : EventPayload F where
  eventType := ⟨ascii "DOOR", by decide⟩
  locationId := ⟨ascii "lab", by decide⟩
  actor := ⟨ascii "door-1", by decide⟩
  description := ⟨ascii "opened", by decide⟩
  metadata := ⟨.object [], List.Pairwise.nil, trivial⟩

def genesisDigest : Digest :=
  ⟨[0xAD, 0x87, 0x25, 0x45, 0x49, 0x11, 0x2B, 0xCF, 0xE5, 0x9E, 0x40, 0x32, 0xFF, 0xFA, 0x30, 0x24,
    0x06, 0xE4, 0xB2, 0x4F, 0xC7, 0x78, 0x35, 0xD0, 0x30, 0x59, 0xF6, 0x77, 0x8C, 0x2C, 0xED, 0x73],
    rfl⟩

def sampleDigest : Digest :=
  ⟨[0xD8, 0x14, 0x95, 0xD4, 0x87, 0xFF, 0xC2, 0x89, 0x88, 0xFC, 0x98, 0xD7, 0x97, 0xC4, 0xF6, 0x91,
    0x4B, 0x5D, 0xB5, 0x6D, 0x12, 0xAF, 0xAA, 0xF2, 0x98, 0x15, 0x92, 0x9E, 0x32, 0xB0, 0xC1, 0xEB],
    rfl⟩

/-- SHA-256 on the preimages of the genesis block and of the sample event after it. -/
def sampleSha256 (t : Bytes) : Digest :=
  if t.head? = some 0x00 then genesisDigest else sampleDigest

end Ledger

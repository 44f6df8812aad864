import Ledger.Text.Utf8

/-! JSON values as nlohmann::json holds them. Strings are bytes, an object is a map in key
order, and `number_integer` and `number_unsigned` are one constructor because the library
compares them by value. -/
namespace Ledger
open Text

/-- The library's `double` and its conversions, which are not embedded. -/
class NumberFloat (F : Type) where
  isfinite : F → Bool
  strtod : Bytes → F
  toChars : F → Bytes
  toUInt64 : F → UInt64

/-- Integers that fit `int64_t` or `uint64_t`. -/
abbrev JsonInt := {i : ℤ // -2 ^ 63 ≤ i ∧ i < 2 ^ 64}

def JsonInt.ofUInt64 (w : UInt64) : JsonInt :=
  ⟨w.toNat, by omega, by exact_mod_cast w.toNat_lt⟩

inductive Json (F : Type)
  | null
  | boolean (b : Bool)
  | number (i : JsonInt)
  | float (x : F)
  | string (s : Bytes)
  | array (elements : List (Json F))
  | object (members : List (Bytes × Json F))

namespace Json
variable {F : Type}

instance : Inhabited (Json F) := ⟨.null⟩

/-- `std::map` compares keys bytewise, as unsigned characters. -/
def keyOrder (k : Bytes) : List ℕ :=
  k.map UInt8.toNat

theorem keyOrder_injective : Function.Injective keyOrder :=
  List.map_injective_iff.mpr fun _ _ h => UInt8.toNat_inj.mp h

abbrev Members (F : Type) := List (Bytes × Json F)

/-- `object[key] = value`: overwrites the key or inserts it at its place in the order. -/
def assign (k : Bytes) (v : Json F) : Members F → Members F
  | [] => [(k, v)]
  | m :: ms =>
    if k = m.1 then (k, v) :: ms
    else if keyOrder k < keyOrder m.1 then (k, v) :: m :: ms
    else m :: assign k v ms

def Sorted (ms : Members F) : Prop :=
  ms.Pairwise fun a b => keyOrder a.1 < keyOrder b.1

theorem sorted_iff {ms : Members F} :
    Sorted ms ↔ (ms.map Prod.fst).Pairwise fun a b => keyOrder a < keyOrder b := by
  rw [List.pairwise_map]
  rfl

theorem assign_append {k : Bytes} {ms : Members F}
    (h : ∀ m ∈ ms, keyOrder m.1 < keyOrder k) (v : Json F) : assign k v ms = ms ++ [(k, v)] := by
  induction ms with
  | nil => rfl
  | cons m ms ih =>
    have hm := h m (by simp)
    have hne : k ≠ m.1 := by rintro rfl; exact lt_irrefl _ hm
    rw [assign, if_neg hne, if_neg (lt_asymm hm), ih fun n hn => h n (by simp [hn])]
    rfl

theorem mem_assign {k : Bytes} {v : Json F} {ms : Members F} {m : Bytes × Json F}
    (h : m ∈ assign k v ms) : m = (k, v) ∨ m ∈ ms := by
  induction ms with
  | nil => exact Or.inl (List.mem_singleton.mp h)
  | cons n ms ih =>
    rw [assign] at h
    split_ifs at h
    · rcases List.mem_cons.mp h with h | h
      · exact Or.inl h
      · exact Or.inr (List.mem_cons_of_mem _ h)
    · rcases List.mem_cons.mp h with h | h
      · exact Or.inl h
      · exact Or.inr h
    · rcases List.mem_cons.mp h with h | h
      · exact Or.inr (h ▸ List.mem_cons_self)
      · exact (ih h).imp_right (List.mem_cons_of_mem _)

theorem Sorted.assign {ms : Members F} (h : Sorted ms) (k : Bytes) (v : Json F) :
    Sorted (assign k v ms) := by
  induction ms with
  | nil => exact List.pairwise_singleton _ _
  | cons m ms ih =>
    obtain ⟨hm, hms⟩ := List.pairwise_cons.mp h
    rw [Json.assign]
    split_ifs with heq hlt
    · exact List.pairwise_cons.mpr ⟨fun n hn => heq ▸ hm n hn, hms⟩
    · refine List.pairwise_cons.mpr ⟨?_, h⟩
      rintro n (_ | ⟨_, hn⟩)
      · exact hlt
      · exact hlt.trans (hm n hn)
    · refine List.pairwise_cons.mpr ⟨fun n hn => ?_, ih hms⟩
      rcases mem_assign hn with rfl | hn
      · exact lt_of_le_of_ne (not_lt.mp hlt) fun hk => heq (keyOrder_injective hk.symm)
      · exact hm n hn

theorem Sorted.lookup_of_mem {ms : Members F} (h : Sorted ms) {k : Bytes} {v : Json F}
    (hm : (k, v) ∈ ms) : ms.lookup k = some v := by
  induction ms with
  | nil => cases hm
  | cons m ms ih =>
    obtain ⟨hlt, hms⟩ := List.pairwise_cons.mp h
    rcases List.mem_cons.mp hm with rfl | htail
    · exact List.lookup_cons_self
    · obtain ⟨k', w⟩ := m
      have hne : k ≠ k' := by
        rintro rfl
        exact lt_irrefl (keyOrder k) (hlt _ htail)
      rw [List.lookup_cons, beq_eq_false_iff_ne.mpr hne]
      exact ih hms htail

theorem mem_of_lookup {ms : Members F} {k : Bytes} {v : Json F} (h : ms.lookup k = some v) :
    (k, v) ∈ ms := by
  obtain ⟨l, l', rfl, -⟩ := List.lookup_eq_some_iff.mp h
  simp

mutual
/-- What a parse can build: well-formed strings, finite numbers, keys in order. -/
def Valid [NumberFloat F] : Json F → Prop
  | .null => True
  | .boolean _ => True
  | .number _ => True
  | .float x => NumberFloat.isfinite x = true
  | .string s => Utf8.WellFormed s
  | .array es => ValidElements es
  | .object ms => Sorted ms ∧ ValidMembers ms

def ValidElements [NumberFloat F] : List (Json F) → Prop
  | [] => True
  | v :: es => Valid v ∧ ValidElements es

def ValidMembers [NumberFloat F] : Members F → Prop
  | [] => True
  | (k, v) :: ms => (Utf8.WellFormed k ∧ Valid v) ∧ ValidMembers ms
end

section Validity
variable [NumberFloat F]

theorem validElements_iff {es : List (Json F)} : ValidElements es ↔ ∀ v ∈ es, Valid v := by
  induction es with
  | nil => simp [ValidElements]
  | cons v es ih => simp [ValidElements, ih]

theorem validMembers_iff {ms : Members F} :
    ValidMembers ms ↔ ∀ m ∈ ms, Utf8.WellFormed m.1 ∧ Valid m.2 := by
  induction ms with
  | nil => simp [ValidMembers]
  | cons m ms ih => simp [ValidMembers, ih]

theorem ValidMembers.assign {ms : Members F} (h : ValidMembers ms) {k : Bytes} {v : Json F}
    (hk : Utf8.WellFormed k) (hv : Valid v) : ValidMembers (assign k v ms) := by
  rw [validMembers_iff] at h ⊢
  intro m hm
  rcases mem_assign hm with rfl | hm
  · exact ⟨hk, hv⟩
  · exact h m hm

end Validity

mutual
/-- The arrays and objects around the innermost value. -/
def nesting : Json F → ℕ
  | .null => 0
  | .boolean _ => 0
  | .number _ => 0
  | .float _ => 0
  | .string _ => 0
  | .array es => elementsNesting es + 1
  | .object ms => membersNesting ms + 1

def elementsNesting : List (Json F) → ℕ
  | [] => 0
  | v :: es => max (nesting v) (elementsNesting es)

def membersNesting : Members F → ℕ
  | [] => 0
  | (_, v) :: ms => max (nesting v) (membersNesting ms)
end

theorem elementsNesting_lt_iff {es : List (Json F)} {n : ℕ} (hn : 0 < n) :
    elementsNesting es < n ↔ ∀ v ∈ es, nesting v < n := by
  induction es with
  | nil => simpa [elementsNesting] using hn
  | cons v es ih => simp [elementsNesting, ih]

def typeName : Json F → String
  | .null => "null"
  | .boolean _ => "boolean"
  | .number _ => "number"
  | .float _ => "number"
  | .string _ => "string"
  | .array _ => "array"
  | .object _ => "object"

/-- `nlohmann::json::exception`: its id, the byte of a `parse_error`, and `what()`. -/
structure Exception where
  id : ℕ
  byte : Option ℕ
  what : Bytes
  deriving DecidableEq

/-- `exception::name(ename, id)` in front of the explanation. -/
def Exception.create (ename : String) (id : ℕ) (byte : Option ℕ) (explanation : Bytes) :
    Exception :=
  ⟨id, byte, ascii "[json.exception." ++ ascii ename ++ ascii "." ++ decimal id ++ ascii "] " ++
    explanation⟩

def typeError (id : ℕ) (explanation : Bytes) : Exception :=
  .create "type_error" id none explanation

def outOfRange (id : ℕ) (explanation : Bytes) : Exception :=
  .create "out_of_range" id none explanation

def atKey (j : Json F) (key : String) : Except Exception (Json F) :=
  match j with
  | .object ms =>
    match ms.lookup (ascii key) with
    | some v => .ok v
    | none => .error (outOfRange 403 (ascii "key '" ++ ascii key ++ ascii "' not found"))
  | j => .error (typeError 304 (ascii "cannot use at() with " ++ ascii j.typeName))

theorem atKey_of_mem {ms : Members F} (h : Sorted ms) {key : String} {v : Json F}
    (hm : (ascii key, v) ∈ ms) : atKey (.object ms) key = .ok v := by
  simp only [atKey, h.lookup_of_mem hm]

/-- `static_cast<std::uint64_t>` of an integer wraps. -/
def JsonInt.toUInt64 (i : JsonInt) : UInt64 :=
  UInt64.ofNat (i.1 % 2 ^ 64).toNat

/-- `get<std::uint64_t>()` accepts every number. -/
def getUInt64 [NumberFloat F] : Json F → Except Exception UInt64
  | .number i => .ok (JsonInt.toUInt64 i)
  | .float x => .ok (NumberFloat.toUInt64 x)
  | j => .error (typeError 302 (ascii "type must be number, but is " ++ ascii j.typeName))

def getString : Json F → Except Exception Bytes
  | .string s => .ok s
  | j => .error (typeError 302 (ascii "type must be string, but is " ++ ascii j.typeName))

end Json
end Ledger

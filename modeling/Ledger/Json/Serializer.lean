import Ledger.Json.Value

/-! `dump()` in the library's default form: compact, strict about UTF-8, nothing but control
characters, quotes and backslashes escaped. -/
namespace Ledger.Json
open Text
variable {F : Type}

/-- One character of a string. Every byte above `1F` but the quote and the backslash is copied. -/
def escapeByte (b : UInt8) : Bytes :=
  if b = 0x08 then ascii "\\b"
  else if b = 0x09 then ascii "\\t"
  else if b = 0x0A then ascii "\\n"
  else if b = 0x0C then ascii "\\f"
  else if b = 0x0D then ascii "\\r"
  else if b = 0x22 then ascii "\\\""
  else if b = 0x5C then ascii "\\\\"
  else if b ≤ 0x1F then ascii "\\u00" ++ hexByte b
  else [b]

/-- `i` counts the bytes done, `owed` is the decoder's state. -/
def dumpEscapedFrom (i : ℕ) (last : UInt8) (owed : List Utf8.Range) :
    Bytes → Except Exception Bytes
  | [] =>
    if owed = [] then .ok []
    else .error (typeError 316
      (ascii "incomplete UTF-8 string; last byte: 0x" ++ hexByteUpper last))
  | b :: s =>
    match Utf8.step owed b with
    | none => .error (typeError 316
      (ascii "invalid UTF-8 byte at index " ++ decimal i ++ ascii ": 0x" ++ hexByteUpper b))
    | some owed' => do return escapeByte b ++ (← dumpEscapedFrom (i + 1) b owed' s)

def dumpEscaped (s : Bytes) : Except Exception Bytes :=
  dumpEscapedFrom 0 0 [] s

def dumpInteger (i : JsonInt) : Bytes :=
  if i.1 < 0 then 0x2D :: decimal i.1.natAbs else decimal i.1.natAbs

def dumpFloat [NumberFloat F] (x : F) : Bytes :=
  if NumberFloat.isfinite x then NumberFloat.toChars x else ascii "null"

mutual
def dump [NumberFloat F] : Json F → Except Exception Bytes
  | .null => .ok (ascii "null")
  | .boolean true => .ok (ascii "true")
  | .boolean false => .ok (ascii "false")
  | .number i => .ok (dumpInteger i)
  | .float x => .ok (dumpFloat x)
  | .string s => do return ascii "\"" ++ (← dumpEscaped s) ++ ascii "\""
  | .array es => do return ascii "[" ++ (← dumpElements es) ++ ascii "]"
  | .object ms => do return ascii "\x7b" ++ (← dumpMembers ms) ++ ascii "\x7d"

def dumpElements [NumberFloat F] : List (Json F) → Except Exception Bytes
  | [] => .ok []
  | [v] => dump v
  | v :: w :: es => do return (← dump v) ++ ascii "," ++ (← dumpElements (w :: es))

def dumpMembers [NumberFloat F] : Members F → Except Exception Bytes
  | [] => .ok []
  | [(k, v)] => do return ascii "\"" ++ (← dumpEscaped k) ++ ascii "\":" ++ (← dump v)
  | (k, v) :: m :: ms => do
    return ascii "\"" ++ (← dumpEscaped k) ++ ascii "\":" ++ (← dump v) ++ ascii "," ++
      (← dumpMembers (m :: ms))
end

/-- The characters of a string between its quotes. -/
def escape (s : Bytes) : Bytes :=
  s.flatMap escapeByte

mutual
/-- The text of a value when no string in it throws. -/
def text [NumberFloat F] : Json F → Bytes
  | .null => ascii "null"
  | .boolean true => ascii "true"
  | .boolean false => ascii "false"
  | .number i => dumpInteger i
  | .float x => dumpFloat x
  | .string s => ascii "\"" ++ escape s ++ ascii "\""
  | .array es => ascii "[" ++ textElements es ++ ascii "]"
  | .object ms => ascii "\x7b" ++ textMembers ms ++ ascii "\x7d"

def textElements [NumberFloat F] : List (Json F) → Bytes
  | [] => []
  | [v] => text v
  | v :: w :: es => text v ++ ascii "," ++ textElements (w :: es)

def textMembers [NumberFloat F] : Members F → Bytes
  | [] => []
  | [(k, v)] => ascii "\"" ++ escape k ++ ascii "\":" ++ text v
  | (k, v) :: m :: ms =>
    ascii "\"" ++ escape k ++ ascii "\":" ++ text v ++ ascii "," ++ textMembers (m :: ms)
end

theorem dumpEscapedFrom_ok {s : Bytes} {owed : List Utf8.Range}
    (h : Utf8.run owed s = some []) (i : ℕ) (last : UInt8) :
    dumpEscapedFrom i last owed s = .ok (escape s) := by
  induction s generalizing i last owed with
  | nil =>
    rw [Utf8.run_nil, Option.some.injEq] at h
    rw [dumpEscapedFrom, if_pos h]
    rfl
  | cons b s ih =>
    rw [Utf8.run_cons] at h
    cases hs : Utf8.step owed b with
    | none => simp [hs] at h
    | some owed' =>
      rw [hs, Option.bind_some] at h
      simp only [dumpEscapedFrom, hs, ih h]
      rfl

theorem dumpEscapedFrom_error {s : Bytes} {owed : List Utf8.Range}
    (h : Utf8.run owed s ≠ some []) (i : ℕ) (last : UInt8) :
    ∃ e, dumpEscapedFrom i last owed s = .error e := by
  induction s generalizing i last owed with
  | nil =>
    rw [dumpEscapedFrom, if_neg (by simpa using h)]
    exact ⟨_, rfl⟩
  | cons b s ih =>
    rw [Utf8.run_cons] at h
    cases hs : Utf8.step owed b with
    | none =>
      simp only [dumpEscapedFrom, hs]
      exact ⟨_, rfl⟩
    | some owed' =>
      rw [hs, Option.bind_some] at h
      obtain ⟨e, he⟩ := ih h (i + 1) b
      exact ⟨e, by simp only [dumpEscapedFrom, hs, he]; rfl⟩

theorem dumpEscaped_ok {s : Bytes} (h : Utf8.WellFormed s) : dumpEscaped s = .ok (escape s) :=
  dumpEscapedFrom_ok h 0 0

theorem dumpEscaped_ok_iff {s : Bytes} : (∃ t, dumpEscaped s = .ok t) ↔ Utf8.WellFormed s := by
  constructor
  · rintro ⟨t, ht⟩
    by_contra h
    obtain ⟨e, he⟩ := dumpEscapedFrom_error h 0 0
    have := he.symm.trans ht
    cases this
  · exact fun h => ⟨_, dumpEscaped_ok h⟩

section Valid
variable [NumberFloat F]

theorem wellFormed_of_dump_string {s t : Bytes} (h : dump (F := F) (.string s) = .ok t) :
    Utf8.WellFormed s := by
  refine dumpEscaped_ok_iff.mp ?_
  cases hs : dumpEscaped s with
  | ok u => exact ⟨u, rfl⟩
  | error e => rw [dump, hs] at h; cases h

theorem dump_member_ok {ms : Members F} {t : Bytes} (h : dump (.object ms) = .ok t)
    {m : Bytes × Json F} (hm : m ∈ ms) : ∃ u, dump m.2 = .ok u := by
  have members {ms : Members F} {t : Bytes} (h : dumpMembers ms = .ok t) :
      ∀ m ∈ ms, ∃ u, dump m.2 = .ok u := by
    induction ms generalizing t with
    | nil => simp
    | cons n ms ih =>
      obtain ⟨k, v⟩ := n
      cases ms with
      | nil =>
        rw [dumpMembers] at h
        cases hk : dumpEscaped k with
        | error e => rw [hk] at h; cases h
        | ok k' =>
          cases hv : dump v with
          | error e => rw [hk, hv] at h; cases h
          | ok u => simpa using ⟨u, hv⟩
      | cons n ms =>
        rw [dumpMembers] at h
        cases hk : dumpEscaped k with
        | error e => rw [hk] at h; cases h
        | ok k' =>
          cases hv : dump v with
          | error e => rw [hk, hv] at h; cases h
          | ok u =>
            cases hms : dumpMembers (n :: ms) with
            | error e => rw [hk, hv, hms] at h; cases h
            | ok w => exact List.forall_mem_cons.mpr ⟨⟨u, hv⟩, ih hms⟩
  cases hms : dumpMembers ms with
  | error e => rw [dump, hms] at h; cases h
  | ok u => exact members hms m hm

mutual
/-- A value a parse can build always dumps. -/
theorem dump_eq_text : ∀ {v : Json F}, Valid v → dump v = .ok (text v)
  | .null, _ => rfl
  | .boolean true, _ => rfl
  | .boolean false, _ => rfl
  | .number _, _ => rfl
  | .float _, _ => rfl
  | .string s, h => by
    rw [Valid] at h
    rw [dump, dumpEscaped_ok h, text]
    rfl
  | .array es, h => by
    rw [Valid] at h
    rw [dump, dumpElements_eq_text h, text]
    rfl
  | .object ms, h => by
    rw [Valid] at h
    rw [dump, dumpMembers_eq_text h.2, text]
    rfl

theorem dumpElements_eq_text :
    ∀ {es : List (Json F)}, ValidElements es → dumpElements es = .ok (textElements es)
  | [], _ => rfl
  | [v], h => by
    rw [ValidElements] at h
    rw [dumpElements, dump_eq_text h.1, textElements]
  | v :: w :: es, h => by
    rw [ValidElements] at h
    rw [dumpElements, dump_eq_text h.1, dumpElements_eq_text h.2, textElements]
    rfl

theorem dumpMembers_eq_text :
    ∀ {ms : Members F}, ValidMembers ms → dumpMembers ms = .ok (textMembers ms)
  | [], _ => rfl
  | [(k, v)], h => by
    rw [ValidMembers] at h
    rw [dumpMembers, dumpEscaped_ok h.1.1, dump_eq_text h.1.2, textMembers]
    rfl
  | (k, v) :: m :: ms, h => by
    rw [ValidMembers] at h
    rw [dumpMembers, dumpEscaped_ok h.1.1, dump_eq_text h.1.2, dumpMembers_eq_text h.2,
      textMembers]
    rfl
end

end Valid

end Ledger.Json

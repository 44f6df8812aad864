import Ledger.Json.Serializer
import Ledger.Json.Validity

/-! Parsing what `dump` wrote gives the value back. -/
namespace Ledger.Json
open Text
variable {F : Type}

theorem hexValue_hexDigit {d : ℕ} (hd : d < 16) : hexValue (hexDigit d) = some d := by
  interval_cases d <;> rfl

theorem encode_ascii {c : UInt8} (hc : c ≤ 0x7F) : Utf8.encode c.toNat = [c] := by
  have hlt : c.toNat < 0x80 := by
    have := UInt8.le_iff_toNat_le.mp hc
    change c.toNat ≤ 127 at this
    omega
  rw [Utf8.encode, if_pos hlt]
  simp

theorem scanString_escapeByte {owed owed' : List Utf8.Range} (ho : Utf8.Owed owed) {b : UInt8}
    (hb : Utf8.step owed b = some owed') (buffer rest : Bytes) (d : Trace) :
    ∃ d', scanString (F := F) (.chars owed) buffer d (escapeByte b ++ rest) =
      scanString (.chars owed') (buffer ++ [b]) d' rest := by
  have open_ascii (hc : b ≤ 0x7F) : owed = [] ∧ owed' = [] := by
    cases owed with
    | nil => rw [Utf8.step_ascii hc] at hb; cases hb; exact ⟨rfl, rfl⟩
    | cons r owed => rw [Utf8.step_owed_ascii ho hc] at hb; cases hb
  have short {c : UInt8} (hc : b ≤ 0x7F) (he : escapeByte b = [0x5C, c])
      (hv : escapeValue c = some b) (hu : c ≠ 0x75) :
      ∃ d', scanString (F := F) (.chars owed) buffer d (escapeByte b ++ rest) =
        scanString (.chars owed') (buffer ++ [b]) d' rest := by
    obtain ⟨rfl, rfl⟩ := open_ascii hc
    refine ⟨(d.read 0x5C).read c, ?_⟩
    simp [he, scanString, stringStep, hu, hv]
  have heq : escapeByte b = escapeByte b := rfl
  unfold escapeByte at heq ⊢
  by_cases h1 : b = 0x08
  · subst h1; exact short (by decide) rfl rfl (by decide)
  by_cases h2 : b = 0x09
  · subst h2; exact short (by decide) rfl rfl (by decide)
  by_cases h3 : b = 0x0A
  · subst h3; exact short (by decide) rfl rfl (by decide)
  by_cases h4 : b = 0x0C
  · subst h4; exact short (by decide) rfl rfl (by decide)
  by_cases h5 : b = 0x0D
  · subst h5; exact short (by decide) rfl rfl (by decide)
  by_cases h6 : b = 0x22
  · subst h6; exact short (by decide) rfl rfl (by decide)
  by_cases h7 : b = 0x5C
  · subst h7; exact short (by decide) rfl rfl (by decide)
  by_cases h8 : b ≤ 0x1F
  · obtain ⟨rfl, rfl⟩ := open_ascii (UInt8.le_trans h8 (by decide))
    have hlt : b.toNat < 32 := by
      have := UInt8.le_iff_toNat_le.mp h8
      change b.toNat ≤ 31 at this
      omega
    have hhi := hexValue_hexDigit (d := b.toNat / 16) (by omega)
    have hlo := hexValue_hexDigit (d := b.toNat % 16) (by omega)
    have hcp : b.toNat / 16 * 16 + b.toNat % 16 = b.toNat := by omega
    refine ⟨(((((d.read 0x5C).read 0x75).read 0x30).read 0x30).read
      (hexDigit (b.toNat / 16))).read (hexDigit (b.toNat % 16)), ?_⟩
    have hzero : hexValue 0x30 = some 0 := rfl
    have hns : ¬ (0xD800 ≤ b.toNat ∧ b.toNat ≤ 0xDBFF) := by omega
    have hns' : ¬ (0xDC00 ≤ b.toNat ∧ b.toNat ≤ 0xDFFF) := by omega
    have htext : ascii "\\u00" = [0x5C, 0x75, 0x30, 0x30] := by decide
    simp only [if_neg h1, if_neg h2, if_neg h3, if_neg h4, if_neg h5, if_neg h6, if_neg h7,
      if_pos h8, htext, hexByte]
    simp [scanString, stringStep, hzero, hhi, hlo, codepointRead, hcp, hns, hns',
      encode_ascii (UInt8.le_trans h8 (by decide))]
  · refine ⟨d.read b, ?_⟩
    simp only [if_neg h1, if_neg h2, if_neg h3, if_neg h4, if_neg h5, if_neg h6, if_neg h7,
      if_neg h8, List.singleton_append]
    cases owed with
    | nil =>
      rw [Utf8.step] at hb
      simp [scanString, stringStep, h6, h7, h8, hb]
    | cons r owed => simp [scanString, stringStep, hb]

theorem scanString_escape {s : Bytes} {owed : List Utf8.Range} (ho : Utf8.Owed owed)
    (hs : Utf8.run owed s = some []) (buffer rest : Bytes) (d : Trace) :
    ∃ d', scanString (F := F) (.chars owed) buffer d (escape s ++ 0x22 :: rest) =
      (.valueString (buffer ++ s), ⟨rest, d'⟩) := by
  induction s generalizing owed buffer d with
  | nil =>
    cases hs
    exact ⟨d.read 0x22, by simp [escape, scanString, stringStep]⟩
  | cons b s ih =>
    rw [Utf8.run_cons] at hs
    cases hb : Utf8.step owed b with
    | none => simp [hb] at hs
    | some owed' =>
      rw [hb, Option.bind_some] at hs
      obtain ⟨d1, h1⟩ := scanString_escapeByte (F := F) ho hb buffer
        (escape s ++ 0x22 :: rest) d
      obtain ⟨d2, h2⟩ := ih (ho.step hb) hs (buffer ++ [b]) d1
      refine ⟨d2, ?_⟩
      rw [escape, List.flatMap_cons, List.append_assoc]
      rw [escape] at h1 h2
      rw [h1, h2, List.append_assoc, List.singleton_append]

/-- The labels a run of characters passes through. -/
def numberRun (state : NumberState) (kind : NumberKind) : Bytes → Option (NumberState × NumberKind)
  | [] => some (state, kind)
  | c :: t => (numberStep state c).bind fun state' => numberRun state' (kind.enter state') t

/-- A complete numeral that `scan_number` takes for a float. -/
def FloatText (t : Bytes) : Prop :=
  ∃ c u start kind stop, t = c :: u ∧ numberStart c = some (start, kind) ∧
    numberRun start kind u = some (stop, .float) ∧ numberError stop = none

/-- The documented behaviour of `to_chars` and `strtod` on finite numbers. -/
class LawfulNumberFloat (F : Type) [NumberFloat F] : Prop where
  floatText_toChars (x : F) : NumberFloat.isfinite x = true → FloatText (NumberFloat.toChars x)
  strtod_toChars (x : F) : NumberFloat.isfinite x = true →
    NumberFloat.strtod (NumberFloat.toChars x) = x

/-- No numeral goes on with what follows. -/
def Delimited (rest : Bytes) : Prop :=
  ∀ c ∈ rest.head?, ∀ state, numberStep state c = none

theorem delimited_nil : Delimited [] := by
  intro c hc
  cases hc

theorem delimited_cons {c : UInt8} (hc : c = 0x2C ∨ c = 0x5D ∨ c = 0x7D) (rest : Bytes) :
    Delimited (c :: rest) := by
  intro c' hc' state
  cases hc'
  rcases hc with rfl | rfl | rfl <;> cases state <;> rfl

theorem numberRun_digits {t : Bytes} (ht : ∀ c ∈ t, isDigit c = true) (kind : NumberKind) :
    numberRun .any1 kind t = some (.any1, kind) := by
  induction t with
  | nil => rfl
  | cons c t ih =>
    rw [numberRun, numberStep, if_pos (ht c (by simp)), Option.bind_some]
    exact ih fun b hb => ht b (by simp [hb])

theorem numberStart_digit {c : UInt8} (hc : isDigit c = true) (h0 : c ≠ 0x30) :
    numberStart c = some (.any1, .unsigned) := by
  have hm : c ≠ 0x2D := by rintro rfl; exact absurd hc (by decide)
  simp only [numberStart, if_neg hm, if_neg h0, if_pos hc]

section Scan
variable [NumberFloat F]

theorem scanNumber_run {state stop : NumberState} {kind kind' : NumberKind} {t : Bytes}
    (h : numberRun state kind t = some (stop, kind')) (he : numberError stop = none)
    {rest : Bytes} (hrest : Delimited rest) (buffer : Bytes) (d : Trace) :
    ∃ d', scanNumber (F := F) state kind buffer d (t ++ rest) =
      (numberToken kind' (buffer ++ t), ⟨rest, d'⟩) := by
  induction t generalizing state kind buffer d with
  | nil =>
    cases h
    cases rest with
    | nil =>
      refine ⟨d.readEof.unreadEof, ?_⟩
      rw [List.append_nil, List.append_nil, scanNumber, he]
    | cons c rest =>
      refine ⟨(d.read c).unread, ?_⟩
      rw [List.append_nil, List.nil_append, scanNumber, hrest c rfl stop]
      simp only [he]
  | cons c t ih =>
    rw [numberRun] at h
    cases hs : numberStep state c with
    | none => simp [hs] at h
    | some state' =>
      rw [hs, Option.bind_some] at h
      obtain ⟨d', hd'⟩ := ih h (buffer ++ [c]) (d.read c)
      refine ⟨d', ?_⟩
      rw [List.cons_append, scanNumber, hs]
      simpa using hd'

theorem scanFrom_number {c : UInt8} {state : NumberState} {kind : NumberKind}
    (h : numberStart c = some (state, kind)) (lx : Lexer) :
    scanFrom (F := F) c lx = scanNumber state kind [c] (lx.trace.reset c) lx.ia := by
  have hc : c = 0x2D ∨ isDigit c = true := by
    unfold numberStart at h
    split_ifs at h with h1 h2 h3
    · exact Or.inl h1
    · exact Or.inr (h2 ▸ rfl)
    · exact Or.inr h3
  have hst : structuralToken (F := F) c = none := by
    rcases hs : structuralToken (F := F) c with _ | token
    · rfl
    · rcases structuralToken_some hs with ⟨rfl, -⟩ | ⟨rfl, -⟩ | ⟨rfl, -⟩ | ⟨rfl, -⟩ | ⟨rfl, -⟩ |
        ⟨rfl, -⟩ <;> exact absurd hc (by decide)
  have hlt : literalToken (F := F) c = none := by
    unfold literalToken
    split_ifs with h1 h2 h3
    · subst h1; exact absurd hc (by decide)
    · subst h2; exact absurd hc (by decide)
    · subst h3; exact absurd hc (by decide)
    · rfl
  simp only [scanFrom, hst, hlt, h]

theorem numberToken_unsigned {buffer : Bytes} {i : JsonInt} (h : i.1 = ofDecimal buffer) :
    numberToken (F := F) .unsigned buffer = .valueInteger i := by
  have hlt : ofDecimal buffer < 2 ^ 64 := by have := i.2.2; omega
  rw [numberToken, dif_pos hlt]
  exact congrArg Token.valueInteger (Subtype.ext h.symm)

theorem numberToken_integer {buffer : Bytes} {i : JsonInt}
    (h : i.1 = -(ofDecimal buffer.tail : ℤ)) :
    numberToken (F := F) .integer buffer = .valueInteger i := by
  have hle : ofDecimal buffer.tail ≤ 2 ^ 63 := by have := i.2.1; omega
  rw [numberToken, dif_pos hle]
  exact congrArg Token.valueInteger (Subtype.ext h.symm)

theorem scanFrom_integer (i : JsonInt) {rest : Bytes} (hrest : Delimited rest) (d : Trace) :
    ∃ c t d', dumpInteger i = c :: t ∧ isSpace c = false ∧ c ≠ 0xEF ∧
      scanFrom (F := F) c ⟨t ++ rest, d.read c⟩ = (.valueInteger i, ⟨rest, d'⟩) := by
  obtain ⟨i, hlo, hhi⟩ := i
  obtain ⟨c, t, hct⟩ := List.exists_cons_of_ne_nil (decimal_ne_nil i.natAbs)
  have hdig : ∀ b ∈ c :: t, isDigit b = true := fun b hb => isDigit_of_mem_decimal (hct ▸ hb)
  have hvalue : ofDecimal (c :: t) = i.natAbs := by rw [← hct, ofDecimal_decimal]
  have hsp : isSpace c = false ∧ c ≠ 0xEF := by
    have hc := hdig c (by simp)
    constructor
    · by_contra hs
      simp only [isSpace, Bool.not_eq_false, Bool.or_eq_true, decide_eq_true_eq] at hs
      rcases hs with ((rfl | rfl) | rfl) | rfl <;> exact absurd hc (by decide)
    · rintro rfl
      exact absurd hc (by decide)
  unfold dumpInteger
  dsimp only
  split_ifs with hneg
  · have h0 : i.natAbs ≠ 0 := by simpa using (show i ≠ 0 by rintro rfl; simp at hneg)
    have hrun : numberRun .minus .integer (c :: t) = some (.any1, .integer) := by
      have hc0 := head_decimal_ne_zero h0 hct
      rw [numberRun, numberStep, if_neg hc0, if_pos (hdig c (by simp)), Option.bind_some]
      exact numberRun_digits (fun b hb => hdig b (by simp [hb])) _
    obtain ⟨d', hd'⟩ := scanNumber_run (F := F) hrun rfl hrest [0x2D] ((d.read 0x2D).reset 0x2D)
    refine ⟨0x2D, c :: t, d', by rw [hct], rfl, by decide, ?_⟩
    rw [scanFrom_number (show numberStart 0x2D = some (.minus, .integer) from rfl), hd']
    have hi : i = -(ofDecimal (c :: t) : ℤ) := by rw [hvalue]; omega
    rw [List.singleton_append, @numberToken_integer F _ (0x2D :: c :: t) ⟨i, hlo, hhi⟩ hi]
  · have hi : i = (ofDecimal (c :: t) : ℤ) := by rw [hvalue]; omega
    refine ⟨c, t, ?_⟩
    have finish (state stop : NumberState) (hst : numberStart c = some (state, .unsigned))
        (hrun : numberRun state .unsigned t = some (stop, .unsigned))
        (he : numberError stop = none) :
        ∃ d', scanFrom (F := F) c ⟨t ++ rest, d.read c⟩ =
          (.valueInteger ⟨i, hlo, hhi⟩, ⟨rest, d'⟩) := by
      obtain ⟨d', hd'⟩ := scanNumber_run (F := F) hrun he hrest [c] ((d.read c).reset c)
      refine ⟨d', ?_⟩
      rw [scanFrom_number hst, hd', List.singleton_append,
        numberToken_unsigned (i := ⟨i, hlo, hhi⟩) hi]
    by_cases h0 : i.natAbs = 0
    · rw [h0] at hct
      cases hct
      obtain ⟨d', hd'⟩ := finish .zero .zero rfl rfl rfl
      exact ⟨d', by rw [h0]; rfl, hsp.1, hsp.2, hd'⟩
    · have hstart := numberStart_digit (hdig c (by simp)) (head_decimal_ne_zero h0 hct)
      obtain ⟨d', hd'⟩ := finish _ _ hstart
        (numberRun_digits (fun b hb => hdig b (by simp [hb])) _) rfl
      exact ⟨d', hct, hsp.1, hsp.2, hd'⟩

theorem scanFrom_float [LawfulNumberFloat F] {x : F} (hx : NumberFloat.isfinite x = true)
    {rest : Bytes} (hrest : Delimited rest) (d : Trace) :
    ∃ c t d', dumpFloat x = c :: t ∧ isSpace c = false ∧ c ≠ 0xEF ∧
      scanFrom (F := F) c ⟨t ++ rest, d.read c⟩ = (.valueFloat x, ⟨rest, d'⟩) := by
  obtain ⟨c, t, start, kind, stop, hct, hs, hrun, he⟩ := LawfulNumberFloat.floatText_toChars x hx
  obtain ⟨d', hd'⟩ := scanNumber_run (F := F) hrun he hrest [c] ((d.read c).reset c)
  refine ⟨c, t, d', by rw [dumpFloat, if_pos hx, hct], ?_, ?_, ?_⟩
  · by_contra hsp
    simp only [isSpace, Bool.not_eq_false, Bool.or_eq_true, decide_eq_true_eq] at hsp
    rcases hsp with ((rfl | rfl) | rfl) | rfl <;> exact absurd hs (by simp [numberStart, isDigit])
  · rintro rfl
    exact absurd hs (by simp [numberStart, isDigit])
  · rw [scanFrom_number hs, hd', numberToken, List.singleton_append, ← hct,
      LawfulNumberFloat.strtod_toChars x hx]

theorem scanFrom_string {s : Bytes} (hs : Utf8.WellFormed s) (rest : Bytes) (d : Trace) :
    ∃ d', scanFrom (F := F) 0x22 ⟨escape s ++ 0x22 :: rest, d⟩ = (.valueString s, ⟨rest, d'⟩) :=
  scanString_escape Utf8.owed_nil hs [] rest (d.reset 0x22)

def Fresh (d : Trace) : Prop :=
  d = {} ∨ d.position.charsReadTotal ≠ 0

theorem scan_cons {c : UInt8} {d : Trace} (hd : Fresh d) (hbom : c ≠ 0xEF)
    (hs : isSpace c = false) (t : Bytes) :
    scan (F := F) ⟨c :: t, d⟩ = scanFrom c ⟨t, d.read c⟩ := by
  have hw : skipWhitespace d (c :: t) = (some c, ⟨t, d.read c⟩) := by
    rw [skipWhitespace, hs]
    rfl
  rw [scan]
  split_ifs with h0
  · rcases hd with rfl | hd
    · have hu : (Trace.read {} c).unread = {} := by
        simp only [Trace.read, Trace.unread]
        split_ifs <;> rfl
      simp only [skipBom, if_neg hbom, hu, scanToken, hw]
    · exact absurd h0 hd
  · simp only [scanToken, hw]

/-- The parser gets from `st` to `st'` and leaves `rest` to be read. -/
def Leads (st : Parser F) (lx : Lexer) (st' : Parser F) (rest : Bytes) : Prop :=
  ∃ d, d.position.charsReadTotal ≠ 0 ∧ run st lx = run st' ⟨rest, d⟩

theorem Leads.trans {st st' st'' : Parser F} {lx : Lexer} {t rest : Bytes}
    (h : Leads st lx st' t)
    (h' : ∀ d : Trace, d.position.charsReadTotal ≠ 0 → Leads st' ⟨t, d⟩ st'' rest) :
    Leads st lx st'' rest := by
  obtain ⟨d, hd, hr⟩ := h
  obtain ⟨d', hd', hr'⟩ := h' d hd
  exact ⟨d', hd', hr.trans hr'⟩

theorem leads_token {st st' : Parser F} {c : UInt8} {t rest : Bytes} {d d' : Trace}
    {token : Token F} (hd : Fresh d) (hbom : c ≠ 0xEF) (hs : isSpace c = false)
    (hscan : scanFrom c ⟨t, d.read c⟩ = (token, ⟨rest, d'⟩))
    (hstep : ∀ n, parseStep st n token = .next st') : Leads st ⟨c :: t, d⟩ st' rest := by
  have hc : scan ⟨c :: t, d⟩ = (token, ⟨rest, d'⟩) := (scan_cons hd hbom hs t).trans hscan
  have hlt := scan_length (F := F) ⟨c :: t, d⟩
  obtain ⟨s, n, p, hr, -⟩ := scan_reads (F := F) ⟨c :: t, d⟩
  have hn := run_next (show nextStep st ⟨c :: t, d⟩ = .next st' by rw [nextStep, hc]; exact hstep _)
  rw [hc] at hlt hr hn
  obtain ⟨hne, hnp⟩ := token_of_parseStep_next (hstep 0)
  have hlen := congrArg List.length hr.ia
  have htotal := hr.total
  have := hlt hne hnp
  simp only [List.length_append, List.length_cons] at hlen this
  exact ⟨d', by simp only at htotal; omega, hn⟩

theorem leads_structural {st st' : Parser F} {c : UInt8} (token : Token F)
    (hst : structuralToken c = some token) (hstep : ∀ n, parseStep st n token = .next st')
    {d : Trace} (hd : Fresh d) (rest : Bytes) : Leads st ⟨c :: rest, d⟩ st' rest := by
  refine leads_token hd ?_ ?_ (?_ : scanFrom c ⟨rest, d.read c⟩ = (token, ⟨rest, d.read c⟩)) hstep
  · rintro rfl
    cases hst
  · rcases structuralToken_some hst with ⟨rfl, -⟩ | ⟨rfl, -⟩ | ⟨rfl, -⟩ | ⟨rfl, -⟩ | ⟨rfl, -⟩ |
      ⟨rfl, -⟩ <;> rfl
  · simp only [scanFrom, hst]

theorem leads_string {st st' : Parser F} {s : Bytes} (hs : Utf8.WellFormed s)
    (hstep : ∀ n, parseStep st n (.valueString s) = .next st') {d : Trace} (hd : Fresh d)
    (rest : Bytes) : Leads st ⟨0x22 :: (escape s ++ 0x22 :: rest), d⟩ st' rest := by
  obtain ⟨d', hd'⟩ := scanFrom_string (F := F) hs rest (d.read 0x22)
  exact leads_token hd (by decide) rfl hd' hstep

def Expects (st : Parser F) (stack : List (Frame F)) : Prop :=
  ∀ n token, token ≠ .endArray → parseStep st n token = valueStep stack n token

theorem expects_value (stack : List (Frame F)) : Expects ⟨stack, .value⟩ stack :=
  fun _ _ _ => rfl

theorem expects_arrayStart (stack : List (Frame F)) :
    Expects ⟨stack, .arrayStart⟩ (.array [] :: stack) := by
  intro n token h
  cases token <;> first | rfl | exact absurd rfl h

theorem leads_literal {st : Parser F} {stack : List (Frame F)} (hst : Expects st stack)
    {c : UInt8} {expected : Bytes} {token : Token F} {v : Json F}
    (hl : literalToken c = some (token, expected)) (hne : token ≠ .endArray)
    (hv : ∀ n, valueStep stack n token = .next (complete v stack)) {d : Trace} (hd : Fresh d)
    (rest : Bytes) : Leads st ⟨c :: (expected ++ rest), d⟩ (complete v stack) rest := by
  have hscan (expected : Bytes) (d : Trace) :
      ∃ d', scanLiteral token d expected (expected ++ rest) = (token, ⟨rest, d'⟩) := by
    induction expected generalizing d with
    | nil => exact ⟨d, rfl⟩
    | cons e expected ih =>
      rw [List.cons_append, scanLiteral, if_pos rfl]
      exact ih (d.read e)
  obtain ⟨d', hd'⟩ := hscan expected (d.read c)
  have hc := (literalToken_some hl).2 c (by simp)
  have hst0 : structuralToken (F := F) c = none := by
    rcases hs : structuralToken (F := F) c with _ | token
    · rfl
    · rcases structuralToken_some hs with ⟨rfl, -⟩ | ⟨rfl, -⟩ | ⟨rfl, -⟩ | ⟨rfl, -⟩ | ⟨rfl, -⟩ |
        ⟨rfl, -⟩ <;> exact absurd hc (by decide)
  refine leads_token hd ?_ ?_ (?_ : scanFrom c ⟨expected ++ rest, d.read c⟩ = (token, ⟨rest, d'⟩))
    fun n => (hst n token hne).trans (hv n)
  · rintro rfl
    exact absurd hc (by decide)
  · by_contra hsp
    simp only [isSpace, Bool.not_eq_false, Bool.or_eq_true, decide_eq_true_eq] at hsp
    rcases hsp with ((rfl | rfl) | rfl) | rfl <;> exact absurd hc (by decide)
  · simp only [scanFrom, hst0, hl]
    exact hd'

mutual
/-- The parser reads the text of a valid value and completes that value. -/
theorem leads_text [LawfulNumberFloat F] :
    ∀ {v : Json F}, Valid v → ∀ {st : Parser F} {stack : List (Frame F)},
    Expects st stack → ∀ {rest : Bytes}, Delimited rest → ∀ {d : Trace}, Fresh d →
      Leads st ⟨text v ++ rest, d⟩ (complete v stack) rest
  | .null, _, st, stack, hst, rest, _, d, hd =>
    leads_literal hst (c := 0x6E) (v := .null) rfl (by simp) (fun _ => rfl) hd rest
  | .boolean true, _, st, stack, hst, rest, _, d, hd =>
    leads_literal hst (c := 0x74) (v := .boolean true) rfl (by simp) (fun _ => rfl) hd rest
  | .boolean false, _, st, stack, hst, rest, _, d, hd =>
    leads_literal hst (c := 0x66) (v := .boolean false) rfl (by simp) (fun _ => rfl) hd rest
  | .number i, _, st, stack, hst, rest, hrest, d, hd => by
    obtain ⟨c, t, d', hct, hsp, hbom, hs⟩ := scanFrom_integer (F := F) i hrest d
    rw [text, hct, List.cons_append]
    exact leads_token hd hbom hsp hs fun n => hst n _ (by simp)
  | .float x, hv, st, stack, hst, rest, hrest, d, hd => by
    rw [Valid] at hv
    obtain ⟨c, t, d', hct, hsp, hbom, hs⟩ := scanFrom_float hv hrest d
    rw [text, hct, List.cons_append]
    refine leads_token hd hbom hsp hs fun n => ?_
    rw [hst n _ (by simp), valueStep, if_pos hv]
  | .string s, hv, st, stack, hst, rest, _, d, hd => by
    rw [Valid] at hv
    have h : Leads st _ (complete (.string s) stack) rest :=
      leads_string hv (fun n => hst n _ (by simp)) hd rest
    rw [text]
    simpa [ascii] using h
  | .array es, hv, st, stack, hst, rest, _, d, hd => by
    rw [Valid] at hv
    have hopen : ∀ t, Leads st ⟨0x5B :: t, d⟩ ⟨stack, .arrayStart⟩ t := fun t =>
      leads_structural .beginArray rfl (fun n => hst n _ (by simp)) hd t
    have htext : text (.array es) ++ rest = 0x5B :: (textElements es ++ 0x5D :: rest) := by
      rw [text]
      simp [ascii]
    rw [htext]
    refine (hopen _).trans fun d' hd' => ?_
    cases es with
    | nil =>
      exact leads_structural .endArray rfl (fun n => rfl) (Or.inr hd') rest
    | cons v es =>
      exact leads_elements (v :: es) [] hv (by simp) (expects_arrayStart stack) hd'
  | .object ms, hv, st, stack, hst, rest, _, d, hd => by
    rw [Valid] at hv
    have hopen : ∀ t, Leads st ⟨0x7B :: t, d⟩ ⟨stack, .objectStart⟩ t := fun t =>
      leads_structural .beginObject rfl (fun n => hst n _ (by simp)) hd t
    have htext : text (.object ms) ++ rest = 0x7B :: (textMembers ms ++ 0x7D :: rest) := by
      rw [text]
      simp [ascii]
    rw [htext]
    refine (hopen _).trans fun d' hd' => ?_
    cases ms with
    | nil =>
      exact leads_structural .endObject rfl (fun n => rfl) (Or.inr hd') rest
    | cons m ms =>
      exact leads_members (m :: ms) [] hv.2 (by simp) hv.1 (fun n k => rfl) hd'

theorem leads_elements [LawfulNumberFloat F] : ∀ (es : List (Json F)) (acc : List (Json F)),
    ValidElements es → es ≠ [] →
      ∀ {st : Parser F} {stack : List (Frame F)}, Expects st (.array acc :: stack) →
      ∀ {rest : Bytes} {d : Trace}, d.position.charsReadTotal ≠ 0 →
        Leads st ⟨textElements es ++ 0x5D :: rest, d⟩ (complete (.array (acc ++ es)) stack) rest
  | [], _, _, hne, _, _, _, _, _, _ => absurd rfl hne
  | [v], acc, hv, _, st, stack, hst, rest, d, hd => by
    rw [ValidElements] at hv
    rw [textElements]
    refine (leads_text hv.1 hst (delimited_cons (by simp) rest) (Or.inr hd)).trans fun d' hd' => ?_
    exact leads_structural .endArray rfl (fun n => rfl) (Or.inr hd') rest
  | v :: w :: es, acc, hv, _, st, stack, hst, rest, d, hd => by
    rw [ValidElements] at hv
    have htext : textElements (v :: w :: es) ++ 0x5D :: rest =
        text v ++ 0x2C :: (textElements (w :: es) ++ 0x5D :: rest) := by
      rw [textElements]
      simp [ascii]
    rw [htext]
    refine (leads_text hv.1 hst (delimited_cons (by simp) _) (Or.inr hd)).trans fun d' hd' => ?_
    refine (leads_structural .valueSeparator rfl (fun n => rfl) (Or.inr hd') _).trans
      fun d'' hd'' => ?_
    have h : Leads _ ⟨textElements (w :: es) ++ 0x5D :: rest, d''⟩ _ rest :=
      leads_elements (w :: es) (acc ++ [v]) hv.2 (by simp)
        (expects_value (.array (acc ++ [v]) :: stack)) hd''
    simpa using h

theorem leads_members [LawfulNumberFloat F] : ∀ (ms : Members F) (acc : Members F),
    ValidMembers ms → ms ≠ [] → Sorted (acc ++ ms) → ∀ {st : Parser F} {stack : List (Frame F)},
      (∀ n k, parseStep st n (.valueString k) = .next ⟨.object acc k :: stack, .separator⟩) →
        ∀ {rest : Bytes} {d : Trace}, d.position.charsReadTotal ≠ 0 →
          Leads st ⟨textMembers ms ++ 0x7D :: rest, d⟩ (complete (.object (acc ++ ms)) stack) rest
  | [], _, _, hne, _, _, _, _, _, _, _ => absurd rfl hne
  | [(k, v)], acc, hv, _, hsort, st, stack, hst, rest, d, hd => by
    rw [ValidMembers] at hv
    have htext : textMembers [(k, v)] ++ 0x7D :: rest =
        0x22 :: (escape k ++ 0x22 :: 0x3A :: (text v ++ 0x7D :: rest)) := by
      rw [textMembers]
      simp [ascii]
    rw [htext]
    refine (leads_string hv.1.1 (fun n => hst n k) (Or.inr hd) _).trans fun d' hd' => ?_
    refine (leads_structural .nameSeparator rfl (fun n => rfl) (Or.inr hd') _).trans
      fun d'' hd'' => ?_
    refine (leads_text hv.1.2 (expects_value _) (delimited_cons (by simp) rest) (Or.inr hd'')).trans
      fun d3 hd3 => ?_
    have hassign := assign_append
      (show ∀ m ∈ acc, keyOrder m.1 < keyOrder k from fun m hm =>
        (List.pairwise_append.mp hsort).2.2 m hm (k, v) (by simp)) v
    rw [complete, hassign]
    exact leads_structural .endObject rfl (fun n => rfl) (Or.inr hd3) rest
  | (k, v) :: m :: ms, acc, hv, _, hsort, st, stack, hst, rest, d, hd => by
    rw [ValidMembers] at hv
    have htext : textMembers ((k, v) :: m :: ms) ++ 0x7D :: rest =
        0x22 :: (escape k ++ 0x22 :: 0x3A :: (text v ++ 0x2C ::
          (textMembers (m :: ms) ++ 0x7D :: rest))) := by
      rw [textMembers]
      simp [ascii]
    rw [htext]
    refine (leads_string hv.1.1 (fun n => hst n k) (Or.inr hd) _).trans fun d' hd' => ?_
    refine (leads_structural .nameSeparator rfl (fun n => rfl) (Or.inr hd') _).trans
      fun d'' hd'' => ?_
    refine (leads_text hv.1.2 (expects_value _) (delimited_cons (by simp) _) (Or.inr hd'')).trans
      fun d3 hd3 => ?_
    have hassign := assign_append
      (show ∀ m ∈ acc, keyOrder m.1 < keyOrder k from fun m hm =>
        (List.pairwise_append.mp hsort).2.2 m hm (k, v) (by simp)) v
    rw [complete, hassign]
    refine (leads_structural .valueSeparator rfl (fun n => rfl) (Or.inr hd3) _).trans
      fun d4 hd4 => ?_
    have h : Leads ⟨.object (acc ++ [(k, v)]) k :: stack, .key⟩
        ⟨textMembers (m :: ms) ++ 0x7D :: rest, d4⟩ _ rest :=
      leads_members (m :: ms) (acc ++ [(k, v)]) hv.2 (by simp) (by simpa using hsort)
        (fun n k => rfl) hd4
    simpa using h
end

/-- `parse(dump(v)) = v`. -/
theorem parse_text [LawfulNumberFloat F] {v : Json F} (hv : Valid v) : parse (text v) = .ok v := by
  obtain ⟨d, hd, hr⟩ := leads_text hv (expects_value []) delimited_nil (d := {}) (Or.inl rfl)
  rw [List.append_nil] at hr
  have hs : scan (F := F) ⟨[], d⟩ = (.endOfInput, ⟨[], d.readEof⟩) := by
    rw [scan, if_neg hd]
    rfl
  rw [parse, hr]
  exact run_done (by rw [nextStep, hs]; rfl)

theorem text_injOn [LawfulNumberFloat F] {v w : Json F} (hv : Valid v) (hw : Valid w)
    (h : text v = text w) : v = w := by
  have hp := parse_text hv
  rw [h, parse_text hw] at hp
  exact (Except.ok.inj hp).symm

end Scan

def isFloatText : Bytes → Bool
  | [] => false
  | c :: u =>
    match numberStart c with
    | none => false
    | some (start, kind) =>
      match numberRun start kind u with
      | some (stop, .float) => numberError stop = none
      | _ => false

theorem floatText_of_isFloatText {t : Bytes} (h : isFloatText t = true) : FloatText t := by
  unfold isFloatText at h
  split at h
  · cases h
  · rename_i c u
    split at h
    · cases h
    · rename_i start kind hs
      split at h
      · rename_i stop hrun
        exact ⟨c, u, start, kind, stop, rfl, hs, hrun, of_decide_eq_true h⟩
      · cases h

/-- Numbers kept as the numerals they were read from; `none` is not finite. -/
abbrev Numeral := Option {t : Bytes // isFloatText t = true}

instance : NumberFloat Numeral where
  isfinite x := x.isSome
  strtod t := if h : isFloatText t = true then some ⟨t, h⟩ else none
  toChars x := x.elim (ascii "null") Subtype.val
  toUInt64 x := UInt64.ofNat (ofDecimal ((x.elim [] Subtype.val).takeWhile isDigit))

instance : LawfulNumberFloat Numeral where
  floatText_toChars x hx := by
    cases x with
    | none => cases hx
    | some t => exact floatText_of_isFloatText t.2
  strtod_toChars x hx := by
    cases x with
    | none => cases hx
    | some t => exact dif_pos t.2

end Ledger.Json

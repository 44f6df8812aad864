import Ledger.Json.Parser

/-! What one call of `scan` consumes, counts and keeps for error messages. -/
namespace Ledger.Json
open Text
variable {F : Type}

/-- From `lx` to `lx'` the lexer read `t`, ran `n` times into the end of the input and
forgot the bytes `dropped` of its token string. -/
structure Reads (lx : Lexer) (t : Bytes) (n : ℕ) (dropped : Bytes) (lx' : Lexer) : Prop where
  ia : lx.ia = t ++ lx'.ia
  total : lx'.trace.position.charsReadTotal = lx.trace.position.charsReadTotal + t.length + n
  ended : n ≠ 0 → lx'.ia = []
  quoted : lx.trace.tokenString ++ t = dropped ++ lx'.trace.tokenString

namespace Reads

theorem refl (lx : Lexer) : Reads lx [] 0 [] lx :=
  ⟨rfl, rfl, fun h => absurd rfl h, List.append_nil _⟩

theorem trans {lx lx' lx'' : Lexer} {s t p q : Bytes} {n : ℕ} (h : Reads lx s 0 p lx')
    (h' : Reads lx' t n q lx'') : Reads lx (s ++ t) n (p ++ q) lx'' where
  ia := by rw [h.ia, h'.ia, List.append_assoc]
  total := by rw [h'.total, h.total, List.length_append]; omega
  ended := h'.ended
  quoted := by rw [← List.append_assoc, h.quoted, List.append_assoc, h'.quoted, List.append_assoc]

theorem cons {lx lx' lx'' : Lexer} {c : UInt8} {t p : Bytes} {n : ℕ} (h : Reads lx [c] 0 [] lx')
    (h' : Reads lx' t n p lx'') : Reads lx (c :: t) n p lx'' :=
  h.trans h'

theorem byte (c : UInt8) (rest : Bytes) (d : Trace) :
    Reads ⟨c :: rest, d⟩ [c] 0 [] ⟨rest, d.read c⟩ where
  ia := rfl
  total := by simp only [Trace.read]; split_ifs <;> rfl
  ended h := absurd rfl h
  quoted := rfl

theorem eof (d : Trace) : Reads ⟨[], d⟩ [] 1 [] ⟨[], d.readEof⟩ :=
  ⟨rfl, rfl, fun _ => rfl, List.append_nil _⟩

theorem back_total (p : Position) : (Trace.back p).charsReadTotal = p.charsReadTotal - 1 := by
  unfold Trace.back
  split_ifs <;> rfl

theorem eof_unread (d : Trace) : Reads ⟨[], d⟩ [] 0 [] ⟨[], d.readEof.unreadEof⟩ where
  ia := rfl
  total := back_total _
  ended h := absurd rfl h
  quoted := List.append_nil _

theorem byte_unread (c : UInt8) (rest : Bytes) (d : Trace) :
    Reads ⟨c :: rest, d⟩ [] 0 [] ⟨c :: rest, (d.read c).unread⟩ where
  ia := rfl
  total := by
    have h : (d.read c).position.charsReadTotal = d.position.charsReadTotal + 1 + 0 :=
      (byte c rest d).total
    simp only [Trace.unread, back_total, h, List.length_nil]
    omega
  ended h := absurd rfl h
  quoted := by simp [Trace.unread, Trace.read]

theorem reset (c : UInt8) (rest : Bytes) (d : Trace) :
    Reads ⟨c :: rest, d⟩ [c] 0 d.tokenString ⟨rest, (d.read c).reset c⟩ where
  ia := rfl
  total := (byte c rest d).total
  ended h := absurd rfl h
  quoted := rfl

end Reads

def StringState.owed : StringState → List Utf8.Range
  | .chars owed => owed
  | _ => []

theorem hexValue_ascii {c : UInt8} {d : ℕ} (h : hexValue c = some d) : c ≤ 0x7F := by
  unfold hexValue at h
  split_ifs at h with h1 h2 h3
  · grind
  · grind
  · grind

theorem escapeValue_ascii {c e : UInt8} (h : escapeValue c = some e) : c ≤ 0x7F ∧ e ≤ 0x7F := by
  unfold escapeValue at h
  split_ifs at h <;> cases h <;> subst c <;> decide

theorem codepointRead_owed {cp : ℕ} {high : Option ℕ} {buffer buffer' : Bytes} {state' : StringState}
    (h : codepointRead cp high buffer = .more state' buffer') : state'.owed = [] := by
  unfold codepointRead at h
  cases high <;> dsimp only at h <;> split_ifs at h <;> cases h <;> rfl

/-- Inside a string the lexer decodes UTF-8 exactly as the serializer does. -/
theorem stringStep_owed {buffer buffer' : Bytes} {state state' : StringState} {c : UInt8}
    (h : stringStep buffer state c = .more state' buffer') :
    Utf8.step state.owed c = some state'.owed := by
  cases state with
  | chars owed =>
    cases owed with
    | nil =>
      rw [stringStep] at h
      split_ifs at h with h1 h2 h3
      · cases h; subst h2; rfl
      · cases hc : Utf8.continuation c with
        | none => simp [hc] at h
        | some owed => rw [hc] at h; cases h; exact hc
    | cons r owed =>
      rw [stringStep] at h
      cases hs : Utf8.step (r :: owed) c with
      | none => simp [hs] at h
      | some owed' => rw [hs] at h; cases h; exact hs
  | escape =>
    rw [stringStep] at h
    split_ifs at h with h1
    · cases h; subst h1; rfl
    · cases he : escapeValue c with
      | none => simp [he] at h
      | some e => rw [he] at h; cases h; exact Utf8.step_ascii (escapeValue_ascii he).1
  | codepoint digits acc high =>
    rw [stringStep] at h
    cases hx : hexValue c with
    | none => simp [hx] at h
    | some x =>
      rw [hx] at h
      dsimp only at h
      have hc : Utf8.step [] c = some [] := Utf8.step_ascii (hexValue_ascii hx)
      split_ifs at h
      · rw [codepointRead_owed h]; exact hc
      · cases h; exact hc
  | surrogateBackslash high =>
    rw [stringStep] at h
    split_ifs at h with h1
    cases h; subst h1; rfl
  | surrogateU high =>
    rw [stringStep] at h
    split_ifs at h with h1
    cases h; subst h1; rfl

theorem stringStep_closed {buffer buffer' : Bytes} {state : StringState} {c : UInt8}
    (h : stringStep buffer state c = .closed buffer') :
    state = .chars [] ∧ c = 0x22 ∧ buffer' = buffer := by
  rcases state with (_ | ⟨r, owed⟩) | _ | ⟨digits, acc, high⟩ | high | high <;>
    rw [stringStep] at h
  · split_ifs at h with h1 h2 h3
    · cases h; exact ⟨rfl, h1, rfl⟩
    · cases hc : Utf8.continuation c <;> simp [hc] at h
  · cases hs : Utf8.step (r :: owed) c <;> simp [hs] at h
  · split_ifs at h
    cases he : escapeValue c <;> simp [he] at h
  · cases hx : hexValue c with
    | none => simp [hx] at h
    | some x =>
      simp only [hx] at h
      split_ifs at h
      unfold codepointRead at h
      cases high <;> dsimp only at h <;> split_ifs at h
  · split_ifs at h
  · split_ifs at h

theorem scanString_reads (state : StringState) (buffer : Bytes) (d : Trace) (input : Bytes) :
    ∃ t n, Reads ⟨input, d⟩ t n [] (scanString (F := F) state buffer d input).2 ∧
      ((∃ m, (scanString (F := F) state buffer d input).1 = .parseError m) ∨
        n = 0 ∧ Utf8.run state.owed t = some []) := by
  induction input generalizing state buffer d with
  | nil => exact ⟨[], 1, Reads.eof d, Or.inl ⟨_, rfl⟩⟩
  | cons c rest ih =>
    rw [scanString]
    cases hs : stringStep buffer state c with
    | more state' buffer' =>
      obtain ⟨t, n, hr, h⟩ := ih state' buffer' (d.read c)
      refine ⟨c :: t, n, (Reads.byte c rest d).cons hr, ?_⟩
      rcases h with herr | ⟨hn, ht⟩
      · exact Or.inl herr
      · refine Or.inr ⟨hn, ?_⟩
        rw [Utf8.run_cons, stringStep_owed hs, Option.bind_some, ht]
    | closed buffer' =>
      obtain ⟨rfl, rfl, -⟩ := stringStep_closed hs
      exact ⟨[0x22], 0, Reads.byte _ rest d, Or.inr ⟨rfl, rfl⟩⟩
    | error message => exact ⟨[c], 0, Reads.byte c rest d, Or.inl ⟨_, rfl⟩⟩

theorem isDigit_ascii {c : UInt8} (h : isDigit c = true) : c ≤ 0x7F := by
  simp only [isDigit, Bool.and_eq_true, decide_eq_true_eq] at h
  grind

theorem decimal_wellFormed (n : ℕ) : Utf8.WellFormed (decimal n) :=
  Utf8.wellFormed_ascii fun _ hb => isDigit_ascii (isDigit_of_mem_decimal hb)

theorem numberStep_ascii {state state' : NumberState} {c : UInt8}
    (h : numberStep state c = some state') : c ≤ 0x7F := by
  have hd := @isDigit_ascii c
  cases state <;> simp only [numberStep] at h <;> split_ifs at h <;> grind

section Number
variable [NumberFloat F]

theorem numberToken_value (kind : NumberKind) (buffer : Bytes) :
    (∃ i, numberToken (F := F) kind buffer = .valueInteger i) ∨
      ∃ x, numberToken (F := F) kind buffer = .valueFloat x := by
  cases kind with
  | unsigned => rw [numberToken]; split_ifs <;> simp
  | integer => rw [numberToken]; split_ifs <;> simp
  | float => exact Or.inr ⟨_, rfl⟩

theorem scanNumber_reads (state : NumberState) (kind : NumberKind) (buffer : Bytes) (d : Trace)
    (input : Bytes) :
    ∃ t n, Reads ⟨input, d⟩ t n [] (scanNumber (F := F) state kind buffer d input).2 ∧
      ((∃ m, (scanNumber (F := F) state kind buffer d input).1 = .parseError m) ∨
        n = 0 ∧ ∀ b ∈ t, b ≤ 0x7F) := by
  induction input generalizing state kind buffer d with
  | nil =>
    rw [scanNumber]
    cases numberError state with
    | some message => exact ⟨[], 1, Reads.eof d, Or.inl ⟨_, rfl⟩⟩
    | none => exact ⟨[], 0, Reads.eof_unread d, Or.inr ⟨rfl, by simp⟩⟩
  | cons c rest ih =>
    rw [scanNumber]
    cases hs : numberStep state c with
    | some state' =>
      obtain ⟨t, n, hr, h⟩ := ih state' (kind.enter state') (buffer ++ [c]) (d.read c)
      refine ⟨c :: t, n, (Reads.byte c rest d).cons hr, ?_⟩
      rcases h with herr | ⟨hn, ht⟩
      · exact Or.inl herr
      · exact Or.inr ⟨hn, List.forall_mem_cons.mpr ⟨numberStep_ascii hs, ht⟩⟩
    | none =>
      cases numberError state with
      | some message => exact ⟨[c], 0, Reads.byte c rest d, Or.inl ⟨_, rfl⟩⟩
      | none => exact ⟨[], 0, Reads.byte_unread c rest d, Or.inr ⟨rfl, by simp⟩⟩

end Number

theorem scanLiteral_reads (token : Token F) (d : Trace) (expected input : Bytes)
    (he : ∀ b ∈ expected, b ≤ 0x7F) :
    ∃ t n, Reads ⟨input, d⟩ t n [] (scanLiteral token d expected input).2 ∧
      ((∃ m, (scanLiteral token d expected input).1 = .parseError m) ∨
        n = 0 ∧ (scanLiteral token d expected input).1 = token ∧ ∀ b ∈ t, b ≤ 0x7F) := by
  induction expected generalizing d input with
  | nil => exact ⟨[], 0, Reads.refl _, Or.inr ⟨rfl, rfl, by simp⟩⟩
  | cons e expected ih =>
    cases input with
    | nil => exact ⟨[], 1, Reads.eof d, Or.inl ⟨_, rfl⟩⟩
    | cons c rest =>
      rw [scanLiteral]
      split_ifs with hc
      · obtain ⟨t, n, hr, h⟩ := ih (d.read c) rest fun b hb => he b (by simp [hb])
        have hle : c ≤ 0x7F := he c (by simp [hc])
        refine ⟨c :: t, n, (Reads.byte c rest d).cons hr, ?_⟩
        rcases h with herr | ⟨hn, hk, ht⟩
        · exact Or.inl herr
        · exact Or.inr ⟨hn, hk, List.forall_mem_cons.mpr ⟨hle, ht⟩⟩
      · exact ⟨[c], 0, Reads.byte c rest d, Or.inl ⟨_, rfl⟩⟩

theorem skipBom_reads (lx : Lexer) :
    ∃ t n, Reads lx t n [] (skipBom lx).2 ∧
      ((skipBom lx).1 = true → n = 0 ∧ (t = [] ∨ t = [0xEF, 0xBB, 0xBF])) := by
  obtain ⟨ia, d⟩ := lx
  rcases ia with _ | ⟨a, rest⟩
  · exact ⟨[], 0, Reads.eof_unread d, fun _ => ⟨rfl, Or.inl rfl⟩⟩
  by_cases ha : a = 0xEF
  · subst ha
    have h1 := Reads.byte 0xEF rest d
    rcases rest with _ | ⟨b, rest⟩
    · exact ⟨[0xEF], 1, h1.cons (Reads.eof _), fun h => by cases h⟩
    by_cases hb : b = 0xBB
    · subst hb
      have h2 := h1.cons (Reads.byte 0xBB rest _)
      rcases rest with _ | ⟨c, rest⟩
      · exact ⟨[0xEF, 0xBB], 1, h2.trans (Reads.eof _), fun h => by cases h⟩
      · refine ⟨[0xEF, 0xBB, c], 0, h2.trans (Reads.byte c rest _), fun h => ⟨rfl, Or.inr ?_⟩⟩
        rw [of_decide_eq_true h]
    · refine ⟨[0xEF, b], 0, ?_, fun h => ?_⟩
      · simp only [skipBom, if_true, if_neg hb]
        exact h1.cons (Reads.byte b rest _)
      · simp [skipBom, hb] at h
  · refine ⟨[], 0, ?_, fun _ => ⟨rfl, Or.inl rfl⟩⟩
    simp only [skipBom, if_neg ha]
    exact Reads.byte_unread a rest d

theorem isSpace_ascii {c : UInt8} (h : isSpace c = true) : c ≤ 0x7F := by
  simp only [isSpace, Bool.or_eq_true, decide_eq_true_eq] at h
  rcases h with ((rfl | rfl) | rfl) | rfl <;> decide

theorem skipWhitespace_reads (d : Trace) (input : Bytes) :
    ∃ w d', (∀ b ∈ w, isSpace b = true) ∧
      (input = w ∧ skipWhitespace d input = (none, ⟨[], d'⟩) ∧ Reads ⟨input, d⟩ w 1 [] ⟨[], d'⟩ ∨
        ∃ c rest, isSpace c = false ∧ skipWhitespace d input = (some c, ⟨rest, d'.read c⟩) ∧
          Reads ⟨input, d⟩ w 0 [] ⟨c :: rest, d'⟩) := by
  induction input generalizing d with
  | nil => exact ⟨[], d.readEof, by simp, Or.inl ⟨rfl, rfl, Reads.eof d⟩⟩
  | cons c rest ih =>
    rw [skipWhitespace]
    split_ifs with hc
    · have hb := Reads.byte c rest d
      obtain ⟨w, d', hw, h⟩ := ih (d.read c)
      refine ⟨c :: w, d', by simpa [hc] using hw, ?_⟩
      rcases h with ⟨rfl, hs, hr⟩ | ⟨a, rest', ha, hs, hr⟩
      · exact Or.inl ⟨rfl, hs, hb.cons hr⟩
      · exact Or.inr ⟨a, rest', ha, hs, hb.cons hr⟩
    · exact ⟨[], d, by simp, Or.inr ⟨c, rest, by simpa using hc, rfl, Reads.refl _⟩⟩

theorem structuralToken_some {c : UInt8} {token : Token F} (h : structuralToken c = some token) :
    c = 0x5B ∧ token = .beginArray ∨ c = 0x5D ∧ token = .endArray ∨
      c = 0x7B ∧ token = .beginObject ∨ c = 0x7D ∧ token = .endObject ∨
      c = 0x3A ∧ token = .nameSeparator ∨ c = 0x2C ∧ token = .valueSeparator := by
  unfold structuralToken at h
  split_ifs at h <;> cases h <;> simp_all

theorem literalToken_some {c : UInt8} {token : Token F} {expected : Bytes}
    (h : literalToken c = some (token, expected)) :
    (token = .literalTrue ∨ token = .literalFalse ∨ token = .literalNull) ∧
      ∀ b ∈ c :: expected, 0x61 ≤ b ∧ b ≤ 0x7A := by
  unfold literalToken at h
  split_ifs at h with h1 h2 h3 <;> cases h
  · subst h1; exact ⟨by simp, forall_mem_of_all (by decide)⟩
  · subst h2; exact ⟨by simp, forall_mem_of_all (by decide)⟩
  · subst h3; exact ⟨by simp, forall_mem_of_all (by decide)⟩

theorem numberStart_ascii {c : UInt8} {state : NumberState} {kind : NumberKind}
    (h : numberStart c = some (state, kind)) : c ≤ 0x7F := by
  unfold numberStart at h
  split_ifs at h with h1 h2 h3
  · subst h1; decide
  · subst h2; decide
  · exact isDigit_ascii h3

section Number
variable [NumberFloat F]

theorem scanFrom_reads (c : UInt8) (rest : Bytes) (d : Trace) :
    ∃ t n p, Reads ⟨c :: rest, d⟩ t n p (scanFrom (F := F) c ⟨rest, d.read c⟩).2 ∧
      (p = [] ∨ p = d.tokenString) ∧
      ((∃ m, (scanFrom (F := F) c ⟨rest, d.read c⟩).1 = .parseError m) ∨
        n = 0 ∧ Utf8.WellFormed t) := by
  have hb := Reads.byte c rest d
  have hz := Reads.reset c rest d
  have hbegins := scanFrom_begins (F := F) c
  generalize scanFrom (F := F) c = scan at hbegins ⊢
  cases hbegins with
  | structural token hst =>
    refine ⟨[c], 0, [], hb, Or.inl rfl, Or.inr ⟨rfl, ?_⟩⟩
    rcases structuralToken_some hst with ⟨rfl, -⟩ | ⟨rfl, -⟩ | ⟨rfl, -⟩ | ⟨rfl, -⟩ | ⟨rfl, -⟩ |
      ⟨rfl, -⟩ <;> decide
  | literal token expected hlt =>
    have hl := (literalToken_some hlt).2
    have he : ∀ b ∈ c :: expected, b ≤ 0x7F := fun b hb =>
      UInt8.le_trans (hl b hb).2 (by decide)
    obtain ⟨t, n, hr, h⟩ := scanLiteral_reads token (d.read c) expected rest
      fun b hb => he b (by simp [hb])
    refine ⟨c :: t, n, [], hb.cons hr, Or.inl rfl, h.imp_right ?_⟩
    rintro ⟨hn, -, ht⟩
    exact ⟨hn, Utf8.wellFormed_ascii (by simpa [he c (by simp)] using ht)⟩
  | number state kind hns =>
    obtain ⟨t, n, hr, h⟩ := scanNumber_reads (F := F) state kind [c] ((d.read c).reset c) rest
    refine ⟨c :: t, n, _, hz.trans hr, Or.inr (List.append_nil _), h.imp_right ?_⟩
    rintro ⟨hn, ht⟩
    exact ⟨hn, Utf8.wellFormed_ascii (by simpa [numberStart_ascii hns] using ht)⟩
  | string hquote =>
    subst hquote
    obtain ⟨t, n, hr, h⟩ := scanString_reads (F := F) (.chars []) [] ((d.read 0x22).reset 0x22) rest
    refine ⟨0x22 :: t, n, _, hz.trans hr, Or.inr (List.append_nil _), h.imp_right ?_⟩
    rintro ⟨hn, ht⟩
    exact ⟨hn, (Utf8.WellFormed.cons_ascii (by decide) t).mpr ht⟩
  | nul hnul =>
    subst hnul
    exact ⟨[0x00], 0, [], hb, Or.inl rfl, Or.inr ⟨rfl, rfl⟩⟩
  | other => exact ⟨[c], 0, [], hb, Or.inl rfl, Or.inl ⟨_, rfl⟩⟩

theorem scanToken_reads (lx : Lexer) :
    ∃ t n p, Reads lx t n p (scanToken (F := F) lx).2 ∧
      (Utf8.WellFormed lx.trace.tokenString → Utf8.WellFormed p) ∧
      ((∃ m, (scanToken (F := F) lx).1 = .parseError m) ∨
        Utf8.WellFormed t ∧ (n = 0 ∨ (scanToken (F := F) lx).1 = .endOfInput)) := by
  obtain ⟨ia, d⟩ := lx
  obtain ⟨w, d', hw, h⟩ := skipWhitespace_reads d ia
  have hwf : Utf8.WellFormed w := Utf8.wellFormed_ascii fun b hb => isSpace_ascii (hw b hb)
  rcases h with ⟨-, hs, hr⟩ | ⟨c, rest, -, hs, hr⟩
  · refine ⟨w, 1, [], ?_⟩
    simp only [scanToken, hs]
    exact ⟨hr, fun _ => Utf8.wellFormed_nil, Or.inr ⟨hwf, Or.inr trivial⟩⟩
  · obtain ⟨t, n, p, hr', hp, h'⟩ := scanFrom_reads (F := F) c rest d'
    have hq := hr.quoted
    refine ⟨w ++ t, n, p, ?_⟩
    simp only [scanToken, hs]
    refine ⟨hr.trans hr', fun hts => ?_, h'.imp_right ?_⟩
    · rcases hp with rfl | rfl
      · exact Utf8.wellFormed_nil
      · rw [List.nil_append] at hq
        exact hq ▸ hts.append hwf
    · rintro ⟨hn, ht⟩
      exact ⟨hwf.append ht, Or.inl hn⟩

theorem scan_reads (lx : Lexer) :
    ∃ t n p, Reads lx t n p (scan (F := F) lx).2 ∧
      (Utf8.WellFormed lx.trace.tokenString → Utf8.WellFormed p) ∧
      ((∃ m, (scan (F := F) lx).1 = .parseError m) ∨
        Utf8.WellFormed t ∧ (n = 0 ∨ (scan (F := F) lx).1 = .endOfInput)) := by
  unfold scan
  split_ifs with h0
  · obtain ⟨s, m, hr, hb⟩ := skipBom_reads lx
    rcases hs : skipBom lx with ⟨_ | _, lx'⟩
    · rw [hs] at hr
      exact ⟨s, m, [], hr, fun _ => Utf8.wellFormed_nil, Or.inl ⟨_, rfl⟩⟩
    · rw [hs] at hr hb
      obtain ⟨rfl, hbom⟩ := hb rfl
      have hwf : Utf8.WellFormed s := by rcases hbom with rfl | rfl <;> decide
      obtain ⟨t, n, p, hr', hp, h'⟩ := scanToken_reads (F := F) lx'
      refine ⟨s ++ t, n, p, hr.trans hr', fun hts => hp ?_, h'.imp_right fun ⟨ht, hn⟩ =>
        ⟨hwf.append ht, hn⟩⟩
      have hq := hr.quoted
      rw [List.nil_append] at hq
      exact hq ▸ hts.append hwf
  · exact scanToken_reads lx

end Number
end Ledger.Json

import Ledger.Json.Nesting

/-! The parser counts brackets as the nesting machine does, so it rejects every proper
beginning of a compact object. -/
namespace Ledger.Json
open Text
variable {F : Type}

def StringState.mode : StringState → Mode
  | .chars _ => .str
  | .escape => .esc
  | .codepoint _ _ _ => .str
  | .surrogateBackslash _ => .str
  | .surrogateU _ => .esc

theorem hexValue_quiet {c : UInt8} {d : ℕ} (h : hexValue c = some d) : c ≠ 0x22 ∧ c ≠ 0x5C := by
  constructor <;> rintro rfl <;> cases h

theorem StringState.mode_inside (state : StringState) : state.mode = .str ∨ state.mode = .esc := by
  cases state
  case escape | surrogateU => exact Or.inr rfl
  all_goals exact Or.inl rfl

theorem codepointRead_mode {cp : ℕ} {high : Option ℕ} {buffer buffer' : Bytes}
    {state' : StringState} (h : codepointRead cp high buffer = .more state' buffer') :
    state'.mode = .str := by
  unfold codepointRead at h
  cases high <;> dsimp only at h <;> split_ifs at h <;> cases h <;> rfl

theorem stringStep_nest {buffer buffer' : Bytes} {state state' : StringState} {c : UInt8}
    (ho : Utf8.Owed state.owed) (h : stringStep buffer state c = .more state' buffer') (n : ℤ) :
    Nest.step ⟨n, state.mode⟩ c = ⟨n, state'.mode⟩ := by
  rcases state with (_ | ⟨r, owed⟩) | _ | ⟨digits, acc, high⟩ | high | high <;>
    rw [stringStep] at h
  · split_ifs at h with h1 h2 h3
    · cases h; subst h2; rfl
    · cases hc : Utf8.continuation c with
      | none => simp [hc] at h
      | some owed =>
        rw [hc] at h
        cases h
        simp [Nest.step, StringState.mode, h1, h2]
  · cases hs : Utf8.step (r :: owed) c with
    | none => simp [hs] at h
    | some owed' =>
      rw [hs] at h
      cases h
      have h1 : c ≠ 0x22 := by
        rintro rfl
        rw [Utf8.step_owed_ascii ho (by decide)] at hs
        cases hs
      have h2 : c ≠ 0x5C := by
        rintro rfl
        rw [Utf8.step_owed_ascii ho (by decide)] at hs
        cases hs
      simp [Nest.step, StringState.mode, h1, h2]
  · split_ifs at h
    · cases h; rfl
    · cases he : escapeValue c with
      | none => simp [he] at h
      | some e => rw [he] at h; cases h; rfl
  · cases hx : hexValue c with
    | none => simp [hx] at h
    | some x =>
      obtain ⟨h1, h2⟩ := hexValue_quiet hx
      have hstep : Nest.step ⟨n, .str⟩ c = ⟨n, .str⟩ := by simp [Nest.step, h1, h2]
      simp only [hx] at h
      split_ifs at h
      · rw [codepointRead_mode h]; exact hstep
      · cases h; exact hstep
  · split_ifs at h with h1
    cases h; subst h1; rfl
  · split_ifs at h
    cases h; rfl

theorem scanString_nest {state : StringState} {buffer : Bytes} {d : Trace} {input : Bytes}
    (ho : Utf8.Owed state.owed)
    (h : ∀ m, (scanString (F := F) state buffer d input).1 ≠ .parseError m) :
    ∃ t s, input = t ++ (scanString (F := F) state buffer d input).2.ia ∧
      (scanString (F := F) state buffer d input).1 = .valueString s ∧
      ∀ n, Nest.run ⟨n, state.mode⟩ t = ⟨n, .closed⟩ ∧ Nest.Calm ⟨n, state.mode⟩ t := by
  induction input generalizing state buffer d with
  | nil => exact absurd rfl (h _)
  | cons c rest ih =>
    rw [scanString] at h ⊢
    cases hs : stringStep buffer state c with
    | more state' buffer' =>
      rw [hs] at h
      obtain ⟨t, s, hia, htok, hrun⟩ := ih (ho.step (stringStep_owed hs)) h
      refine ⟨c :: t, s, by rw [List.cons_append, ← hia], htok, fun n => ?_⟩
      rw [Nest.run_cons, Nest.Calm, stringStep_nest ho hs]
      refine ⟨(hrun n).1, fun hclosed => ?_, (hrun n).2⟩
      rcases state.mode_inside with hm | hm <;> cases hm.symm.trans hclosed
    | closed buffer' =>
      obtain ⟨rfl, rfl, -⟩ := stringStep_closed hs
      exact ⟨[0x22], _, rfl, rfl, fun _ => ⟨rfl, by simp [StringState.mode], trivial⟩⟩
    | error message => rw [hs] at h; exact absurd rfl (h _)

theorem scanLiteral_eq {token : Token F} {d : Trace} {expected input : Bytes}
    (h : ∀ m, (scanLiteral token d expected input).1 ≠ .parseError m) :
    input = expected ++ (scanLiteral token d expected input).2.ia ∧
      (scanLiteral token d expected input).1 = token := by
  induction expected generalizing d input with
  | nil => exact ⟨rfl, rfl⟩
  | cons e expected ih =>
    cases input with
    | nil => exact absurd rfl (h _)
    | cons c rest =>
      rw [scanLiteral] at h ⊢
      split_ifs at h ⊢ with hc
      · obtain ⟨hia, htok⟩ := ih h
        exact ⟨by rw [List.cons_append, ← hia, hc], htok⟩
      · exact absurd rfl (h _)

theorem isSpace_plain {c : UInt8} (h : isSpace c = true) : Nest.Plain c := by
  simp only [isSpace, Bool.or_eq_true, decide_eq_true_eq] at h
  rcases h with ((rfl | rfl) | rfl) | rfl <;>
    exact ⟨by decide, by decide, by decide, by decide, by decide⟩

def Token.delta : Token F → ℤ
  | .beginArray | .beginObject => 1
  | .endArray | .endObject => -1
  | _ => 0

/-- `t` moves the depth by `δ` from outside strings to outside strings. -/
def Moves (δ : ℤ) (t : Bytes) : Prop :=
  ∀ s : Nest, s.Outside → (s.run t).depth = s.depth + δ ∧ (s.run t).Outside

theorem moves_plain {t : Bytes} (ht : ∀ c ∈ t, Nest.Plain c) : Moves 0 t := by
  intro s hs
  obtain ⟨h1, h2⟩ := Nest.run_plain hs ht
  exact ⟨by rw [h1, add_zero], h2⟩

theorem Moves.append {δ ε : ℤ} {t u : Bytes} (ht : Moves δ t) (hu : Moves ε u) :
    Moves (δ + ε) (t ++ u) := by
  intro s hs
  obtain ⟨h1, h2⟩ := ht s hs
  obtain ⟨h3, h4⟩ := hu _ h2
  rw [Nest.run_append]
  exact ⟨by rw [h3, h1, add_assoc], h4⟩

theorem calm_of_head {s : Nest} (hs : s.Outside) {t : Bytes} (ht : ∀ c ∈ t, Nest.Plain c)
    (hhead : ∀ c ∈ t.head?, Nest.Gap c) : s.Calm t := by
  cases t with
  | nil => trivial
  | cons c t =>
    refine ⟨fun _ => hhead c rfl, ?_⟩
    rw [Nest.step_plain hs (ht c (by simp))]
    exact Nest.calm_plain rfl fun b hb => ht b (by simp [hb])

/-- A token that may stand behind a string. -/
def Token.Follows : Token F → Prop
  | .nameSeparator | .valueSeparator | .endArray | .endObject | .endOfInput => True
  | _ => False

/-- `t` is what a token is read from: it moves the depth as the token does, it stands right behind a
string only if the token may, and it ends right behind one only if the token is one. -/
structure Spells (token : Token F) (t : Bytes) : Prop where
  moves : Moves token.delta t
  calm : ∀ s : Nest, s.Outside → (s.mode = .closed → token.Follows) → 0x00 ∉ t → s.Calm t
  quoted : ∀ s : Nest, s.Outside → (s.run t).mode = .closed →
    (∃ str, token = .valueString str) ∨ token = .endOfInput

theorem spells_nil : Spells (.endOfInput : Token F) [] :=
  ⟨fun _ hs => ⟨(add_zero _).symm, hs⟩, fun _ _ _ _ => trivial, fun _ _ _ => Or.inr rfl⟩

theorem spells_plain {token : Token F} (hdelta : token.delta = 0) (hf : ¬token.Follows) {c : UInt8}
    {t : Bytes} (ht : ∀ b ∈ c :: t, Nest.Plain b) : Spells token (c :: t) where
  moves := by
    rw [hdelta]
    exact moves_plain ht
  calm s hs hclosed _ :=
    Nest.calm_plain (hs.resolve_right fun hm => hf (hclosed hm)) ht
  quoted s hs hend := by
    rw [Nest.run_cons, Nest.step_plain hs (ht c (by simp)),
      Nest.run_plain_mode rfl fun b hb => ht b (by simp [hb])] at hend
    cases hend

theorem Spells.append {token : Token F} {w t : Bytes} (ht : Spells token t)
    (hw : ∀ c ∈ w, Nest.Plain c) (hhead : ∀ c ∈ w.head?, Nest.Gap c) : Spells token (w ++ t) := by
  refine ⟨?_, fun s hs hclosed h0 => ?_, fun s hs hend => ?_⟩
  · simpa using (moves_plain hw).append ht.moves
  · refine Nest.calm_append.mpr ⟨calm_of_head hs hw hhead,
      ht.calm _ (Nest.run_plain hs hw).2 (fun hmode => ?_) ?_⟩
    · cases w with
      | nil => exact hclosed hmode
      | cons c w =>
        rw [Nest.run_cons, Nest.step_plain hs (hw c (by simp)),
          Nest.run_plain_mode rfl fun b hb => hw b (by simp [hb])] at hmode
        cases hmode
    · exact fun hmem => h0 (List.mem_append_right _ hmem)
  · rw [Nest.run_append] at hend
    exact ht.quoted _ (Nest.run_plain hs hw).2 hend

theorem Spells.append_space {token : Token F} {w t : Bytes} (ht : Spells token t)
    (hw : ∀ c ∈ w, isSpace c = true) : Spells token (w ++ t) :=
  ht.append (fun c hc => isSpace_plain (hw c hc))
    fun c hc => Or.inr (Or.inl (hw c (List.mem_of_mem_head? hc)))

/-- The brackets the parser has open. -/
def Parser.depth (st : Parser F) : ℤ :=
  match st.control with
  | .endOfInput _ => 0
  | .objectStart | .arrayStart => st.stack.length + 1
  | _ => st.stack.length

theorem complete_depth (v : Json F) (stack : List (Frame F)) :
    (complete v stack).depth = stack.length := by
  rcases stack with _ | ⟨_ | _, _⟩ <;> simp [complete, Parser.depth]

/-- Where the parser may be behind a string: a name or a value is complete. -/
def Control.Behind : Control F → Prop
  | .separator | .evaluate | .endOfInput _ => True
  | _ => False

theorem complete_behind (v : Json F) (stack : List (Frame F)) :
    (complete v stack).control.Behind := by
  rcases stack with _ | ⟨_ | _, _⟩ <;> exact trivial

/-- Another lexer that has read as much and has `t` to read behind the same input. -/
def Longer (t : Bytes) (lx lx' : Lexer) : Prop :=
  lx'.ia = lx.ia ++ t ∧ lx'.trace.position.charsReadTotal = lx.trace.position.charsReadTotal

theorem Longer.read {t rest : Bytes} {d d' : Trace} {c : UInt8}
    (h : Longer t ⟨c :: rest, d⟩ ⟨c :: rest ++ t, d'⟩) :
    Longer t ⟨rest, d.read c⟩ ⟨rest ++ t, d'.read c⟩ := by
  refine ⟨rfl, ?_⟩
  have hd := (Reads.byte c rest d).total
  have hd' := (Reads.byte c rest d').total
  simp only at hd hd'
  rw [hd', hd]
  exact congrArg (· + _ + _) h.2

theorem scanString_longer {state : StringState} {buffer : Bytes} {d d' : Trace} {input t : Bytes}
    (hl : Longer t ⟨input, d⟩ ⟨input ++ t, d'⟩)
    (h : ∀ m, (scanString (F := F) state buffer d input).1 ≠ .parseError m) :
    (scanString (F := F) state buffer d' (input ++ t)).1 = (scanString state buffer d input).1 ∧
      Longer t (scanString (F := F) state buffer d input).2
        (scanString (F := F) state buffer d' (input ++ t)).2 := by
  induction input generalizing state buffer d d' with
  | nil => exact absurd rfl (h _)
  | cons c rest ih =>
    rw [List.cons_append, scanString, scanString]
    rw [scanString] at h
    cases hs : stringStep buffer state c with
    | more state' buffer' => rw [hs] at h; exact ih hl.read h
    | closed buffer' => exact ⟨rfl, hl.read⟩
    | error message => rw [hs] at h; exact absurd rfl (h _)

theorem scanLiteral_longer {token : Token F} {d d' : Trace} {expected input t : Bytes}
    (hl : Longer t ⟨input, d⟩ ⟨input ++ t, d'⟩)
    (h : ∀ m, (scanLiteral token d expected input).1 ≠ .parseError m) :
    (scanLiteral token d' expected (input ++ t)).1 = (scanLiteral token d expected input).1 ∧
      Longer t (scanLiteral token d expected input).2
        (scanLiteral token d' expected (input ++ t)).2 := by
  induction expected generalizing d d' input with
  | nil => exact ⟨rfl, hl⟩
  | cons e expected ih =>
    cases input with
    | nil => exact absurd rfl (h _)
    | cons c rest =>
      rw [List.cons_append, scanLiteral, scanLiteral]
      rw [scanLiteral] at h
      split_ifs at h ⊢ with hc
      · exact ih hl.read h
      · exact absurd rfl (h _)

section Number
variable [NumberFloat F]

theorem scanNumber_nest {state : NumberState} {kind : NumberKind} {buffer : Bytes} {d : Trace}
    {input : Bytes}
    (h : ∀ m, (scanNumber (F := F) state kind buffer d input).1 ≠ .parseError m) :
    ∃ t, input = t ++ (scanNumber (F := F) state kind buffer d input).2.ia ∧
      (∀ c ∈ t, Nest.Plain c) ∧ (scanNumber (F := F) state kind buffer d input).1.delta = 0 ∧
      ¬(scanNumber (F := F) state kind buffer d input).1.Follows := by
  have number (kind : NumberKind) (buffer : Bytes) :
      (numberToken (F := F) kind buffer).delta = 0 ∧
        ¬(numberToken (F := F) kind buffer).Follows := by
    rcases numberToken_value (F := F) kind buffer with ⟨i, hi⟩ | ⟨x, hx⟩
    · rw [hi]; exact ⟨rfl, id⟩
    · rw [hx]; exact ⟨rfl, id⟩
  induction input generalizing state kind buffer d with
  | nil =>
    rw [scanNumber] at h ⊢
    cases he : numberError state with
    | some message => rw [he] at h; exact absurd rfl (h _)
    | none => exact ⟨[], rfl, by simp, number kind buffer⟩
  | cons c rest ih =>
    rw [scanNumber] at h ⊢
    cases hs : numberStep state c with
    | some state' =>
      rw [hs] at h
      obtain ⟨t, hia, ht, htok⟩ := ih h
      refine ⟨c :: t, by rw [List.cons_append, ← hia], ?_, htok⟩
      exact List.forall_mem_cons.mpr ⟨(numberStep_plain hs).1, ht⟩
    | none =>
      rw [hs] at h
      cases he : numberError state with
      | some message => rw [he] at h; exact absurd rfl (h _)
      | none => exact ⟨[], rfl, by simp, number kind buffer⟩

theorem scanFrom_nest {c : UInt8} {lx : Lexer}
    (h : ∀ m, (scanFrom (F := F) c lx).1 ≠ .parseError m) :
    ∃ t, c :: lx.ia = t ++ (scanFrom (F := F) c lx).2.ia ∧ Spells (scanFrom (F := F) c lx).1 t ∧
      ((scanFrom (F := F) c lx).1 = .endOfInput → 0x00 ∈ t) := by
  have hbegins := scanFrom_begins (F := F) c
  generalize scanFrom (F := F) c = scan at hbegins h ⊢
  cases hbegins with
  | string hquote =>
    subst hquote
    obtain ⟨t, s, hia, htok, hrun⟩ :=
      scanString_nest (show Utf8.Owed (StringState.chars []).owed from Utf8.owed_nil) h
    have hopen {r : Nest} (hr : r.Outside) : r.step 0x22 = ⟨r.depth, .str⟩ := by
      rcases hr with hr | hr <;> simp [Nest.step, hr]
    refine ⟨0x22 :: t, by rw [List.cons_append, ← hia], ⟨fun r hr => ?_, fun r hr hclosed _ => ?_,
      fun _ _ _ => Or.inl ⟨s, htok⟩⟩, by simp [htok]⟩
    · rw [Nest.run_cons, hopen hr, htok]
      exact ⟨(congrArg Nest.depth (hrun r.depth).1).trans (add_zero _).symm,
        Or.inr (congrArg Nest.mode (hrun r.depth).1)⟩
    · refine ⟨fun hm => ?_, ?_⟩
      · rw [htok] at hclosed
        exact (hclosed hm).elim
      · rw [hopen hr]
        exact (hrun r.depth).2
  | nul hnul =>
    subst hnul
    refine ⟨[0x00], rfl, ⟨moves_plain fun c hc => ?_, fun _ _ _ h0 => absurd (by simp) h0,
      fun _ _ _ => Or.inr rfl⟩, fun _ => by simp⟩
    rw [List.mem_singleton.mp hc]
    exact ⟨by decide, by decide, by decide, by decide, by decide⟩
  | other => exact absurd rfl (h _)
  | number state kind hns =>
    obtain ⟨t, hia, ht, hdelta, hf⟩ := scanNumber_nest h
    refine ⟨c :: t, by rw [List.cons_append, ← hia], ?_, fun he => ?_⟩
    · exact spells_plain hdelta hf (List.forall_mem_cons.mpr ⟨(numberStart_plain hns).1, ht⟩)
    · rw [he] at hf
      exact absurd trivial hf
  | literal token expected hlt =>
    obtain ⟨hia, htok⟩ := scanLiteral_eq h
    obtain ⟨hkind, hl⟩ := literalToken_some hlt
    refine ⟨c :: expected, by rw [List.cons_append, ← hia], ?_, fun he => ?_⟩
    · rw [htok]
      refine spells_plain ?_ ?_ fun b hb => (literal_plain hl hb).1
      · rcases hkind with rfl | rfl | rfl <;> rfl
      · rcases hkind with rfl | rfl | rfl <;> exact id
    · rw [htok] at he
      subst he
      rcases hkind with h | h | h <;> cases h
  | structural token hst =>
    have hend : token ≠ .endOfInput := by
      rintro rfl
      rcases structuralToken_some hst with ⟨-, h⟩ | ⟨-, h⟩ | ⟨-, h⟩ | ⟨-, h⟩ | ⟨-, h⟩ | ⟨-, h⟩ <;>
        cases h
    refine ⟨[c], rfl, ⟨fun s hs => ?_, fun s hs hclosed _ => ⟨fun hm => Or.inl ?_, trivial⟩,
      fun s hs hm => ?_⟩, fun he => absurd he hend⟩
    · rcases structuralToken_some hst with ⟨rfl, rfl⟩ | ⟨rfl, rfl⟩ | ⟨rfl, rfl⟩ | ⟨rfl, rfl⟩ |
        ⟨rfl, rfl⟩ | ⟨rfl, rfl⟩ <;> rcases hs with hs | hs <;>
        simp [Nest.step, hs, Token.delta, Nest.Outside, sub_eq_add_neg]
    · have hf := hclosed hm
      rcases structuralToken_some hst with ⟨rfl, rfl⟩ | ⟨rfl, rfl⟩ | ⟨rfl, rfl⟩ | ⟨rfl, rfl⟩ |
        ⟨rfl, rfl⟩ | ⟨rfl, rfl⟩ <;> first | exact hf.elim | simp [Nest.Closer]
    · rcases structuralToken_some hst with ⟨rfl, rfl⟩ | ⟨rfl, rfl⟩ | ⟨rfl, rfl⟩ | ⟨rfl, rfl⟩ |
        ⟨rfl, rfl⟩ | ⟨rfl, rfl⟩ <;> rcases hs with hs | hs <;> simp [Nest.step, hs] at hm

theorem scanToken_nest {lx : Lexer} (h : ∀ m, (scanToken (F := F) lx).1 ≠ .parseError m) :
    ∃ t, lx.ia = t ++ (scanToken (F := F) lx).2.ia ∧ Spells (scanToken (F := F) lx).1 t ∧
      ((scanToken (F := F) lx).1 = .endOfInput →
        (scanToken (F := F) lx).2.ia = [] ∨ 0x00 ∈ t) := by
  obtain ⟨ia, d⟩ := lx
  obtain ⟨w, d', hw, ⟨hia, hs, -⟩ | ⟨c, rest, -, hs, hr⟩⟩ := skipWhitespace_reads d ia
  · simp only [scanToken, hs]
    refine ⟨w, by rw [List.append_nil]; exact hia, ?_, fun _ => Or.inl trivial⟩
    simpa using spells_nil.append_space hw
  · simp only [scanToken, hs] at h ⊢
    obtain ⟨t, hia, hm, heof⟩ := scanFrom_nest h
    refine ⟨w ++ t, ?_, hm.append_space hw, fun he => Or.inr (List.mem_append_right _ (heof he))⟩
    rw [List.append_assoc, ← hia]
    exact hr.ia

theorem scan_nest {lx : Lexer} (h : ∀ m, (scan (F := F) lx).1 ≠ .parseError m) :
    ∃ t, lx.ia = t ++ (scan (F := F) lx).2.ia ∧ Spells (scan (F := F) lx).1 t ∧
      ((scan (F := F) lx).1 = .endOfInput → (scan (F := F) lx).2.ia = [] ∨ 0x00 ∈ t) := by
  unfold scan at h ⊢
  split_ifs at h ⊢
  · obtain ⟨s, n, hr, hbom⟩ := skipBom_reads lx
    rcases hb : skipBom lx with ⟨_ | _, lx'⟩ <;> rw [hb] at h hr hbom
    · exact absurd rfl (h _)
    · obtain ⟨rfl, hs⟩ := hbom rfl
      obtain ⟨t, hia, hm, heof⟩ := scanToken_nest h
      have hspells : Spells (scanToken (F := F) lx').1 (s ++ t) := by
        rcases hs with rfl | rfl
        · exact hm
        · refine hm.append (fun c hc => ?_) fun c hc => ?_
          · simp only [List.mem_cons, List.not_mem_nil, or_false] at hc
            rcases hc with rfl | rfl | rfl <;>
              exact ⟨by decide, by decide, by decide, by decide, by decide⟩
          · cases hc
            exact Or.inr (Or.inr rfl)
      refine ⟨s ++ t, ?_, hspells, fun he => (heof he).imp_right (List.mem_append_right _)⟩
      rw [List.append_assoc, ← hia]
      exact hr.ia
  · exact scanToken_nest h

theorem valueStep_depth {stack : List (Frame F)} {n : ℕ} {token : Token F} {st' : Parser F}
    (h : valueStep stack n token = .next st') : st'.depth = stack.length + token.delta := by
  cases token <;> rw [valueStep] at h <;> (try split_ifs at h) <;> cases h
  all_goals first | exact (complete_depth _ _).trans (add_zero _).symm | rfl

theorem parseStep_depth {st st' : Parser F} {n : ℕ} {token : Token F}
    (h : parseStep st n token = .next st') : st'.depth = st.depth + token.delta := by
  obtain ⟨stack, control⟩ := st
  cases control with
  | value => exact valueStep_depth h
  | arrayStart =>
    by_cases he : token = .endArray
    · subst he
      cases h
      rw [complete_depth]
      simp [Parser.depth, Token.delta]
    · rw [expects_arrayStart stack n token he] at h
      rw [valueStep_depth h]
      simp [Parser.depth]
  | objectStart =>
    cases token <;> simp [parseStep] at h <;> subst h
    · simp [Parser.depth, Token.delta]
    · rw [complete_depth]
      simp [Parser.depth, Token.delta]
  | separator =>
    cases token <;> simp [parseStep] at h
    subst h
    simp [Parser.depth, Token.delta]
  | evaluate =>
    rcases stack with _ | ⟨_ | _, _⟩ <;> cases token <;> simp [parseStep] at h <;> subst h
    · rw [complete_depth]; simp [Parser.depth, Token.delta]
    · simp [Parser.depth, Token.delta]
    · rw [complete_depth]; simp [Parser.depth, Token.delta]
    · simp [Parser.depth, Token.delta]
  | key =>
    rcases stack with _ | ⟨_ | _, _⟩ <;> cases token <;> simp [parseStep] at h
    subst h
    simp [Parser.depth, Token.delta]
  | endOfInput root => cases token <;> simp [parseStep] at h

theorem parseStep_done {st : Parser F} {n : ℕ} {token : Token F} {root : Json F}
    (h : parseStep st n token = .done root) :
    st.control = .endOfInput root ∧ token = .endOfInput := by
  obtain ⟨stack, control⟩ := st
  cases control <;> rcases stack with _ | ⟨_ | _, _⟩ <;> cases token <;>
    simp [parseStep, valueStep] at h <;> (try split_ifs at h) <;> exact ⟨by rw [h], rfl⟩

theorem parseStep_string {st st' : Parser F} {n : ℕ} {s : Bytes}
    (h : parseStep st n (.valueString s) = .next st') : st'.control.Behind := by
  obtain ⟨stack, control⟩ := st
  cases control <;> rcases stack with _ | ⟨_ | _, _⟩ <;> simp [parseStep, valueStep] at h <;>
    subst h <;> first | exact complete_behind _ _ | trivial

theorem parseStep_follows {st st' : Parser F} {n : ℕ} {token : Token F}
    (hst : st.control.Behind) (h : parseStep st n token = .next st') : token.Follows := by
  obtain ⟨stack, control⟩ := st
  cases control with
  | separator | evaluate | endOfInput =>
    rcases stack with _ | ⟨_ | _, _⟩ <;> cases token <;> simp [parseStep] at h <;> trivial
  | value | objectStart | arrayStart | key => exact hst.elim

/-- What the parser has read of a text without a zero byte: outside strings, as many brackets open
as it counts, and something that may stand there behind every string. -/
structure Parsed (st : Parser F) (read : Bytes) : Prop where
  depth : (Nest.run ⟨0, .out⟩ read).depth = st.depth
  outside : (Nest.run ⟨0, .out⟩ read).Outside
  calm : Nest.Calm ⟨0, .out⟩ read
  behind : (Nest.run ⟨0, .out⟩ read).mode = .closed → st.control.Behind

theorem Parsed.next {st st' : Parser F} {n : ℕ} {token : Token F} {read t : Bytes}
    (h : Parsed st read) (hn : parseStep st n token = .next st') (ht : Spells token t)
    (h0 : 0x00 ∉ t) : Parsed st' (read ++ t) where
  depth := by rw [Nest.run_append, (ht.moves _ h.outside).1, h.depth, parseStep_depth hn]
  outside := by
    rw [Nest.run_append]
    exact (ht.moves _ h.outside).2
  calm := Nest.calm_append.mpr ⟨h.calm,
    ht.calm _ h.outside (fun hm => parseStep_follows (h.behind hm) hn) h0⟩
  behind hm := by
    rw [Nest.run_append] at hm
    rcases ht.quoted _ h.outside hm with ⟨s, rfl⟩ | rfl
    · exact parseStep_string hn
    · exact absurd rfl (token_of_parseStep_next hn).1

/-- An accepted text without a zero byte leaves no bracket open, and behind every string of it
stands something that may stand there. -/
theorem parse_nest {body : Bytes} {v : Json F} (h : parse body = .ok v) (h0 : 0x00 ∉ body) :
    (Nest.run ⟨0, .out⟩ body).depth = 0 ∧ Nest.Calm ⟨0, .out⟩ body := by
  obtain ⟨st, lx, ⟨read, hbody, hread⟩, ⟨root, hd, -⟩ | ⟨failure, -, hr⟩⟩ :=
    run_last (F := F) (P := fun st lx => ∃ read, body = read ++ lx.ia ∧ Parsed st read)
      (fun st lx st' ⟨read, hbody, hread⟩ hn => by
        obtain ⟨t, hia, ht, -⟩ := scan_nest (token_of_parseStep_next hn).2
        refine ⟨read ++ t, by rw [List.append_assoc, ← hia, hbody], hread.next hn ht fun hmem => ?_⟩
        rw [hbody, hia] at h0
        simp [hmem] at h0)
      ⟨[], .value⟩ ⟨body, {}⟩ ⟨[], rfl, ⟨rfl, Or.inl rfl, trivial, by simp⟩⟩
  · obtain ⟨hcontrol, htok⟩ := parseStep_done hd
    have hno : ∀ m, (scan (F := F) lx).1 ≠ .parseError m := by simp [htok]
    obtain ⟨t, hia, ht, heof⟩ := scan_nest hno
    have ht0 : 0x00 ∉ t := by
      rw [hbody, hia] at h0
      exact fun hmem => h0 (by simp [hmem])
    rw [(heof htok).resolve_right ht0, List.append_nil] at hia
    rw [hbody, hia, Nest.run_append, Nest.calm_append, (ht.moves _ hread.outside).1, hread.depth,
      htok, Parser.depth, hcontrol]
    refine ⟨rfl, hread.calm, ht.calm _ hread.outside (fun _ => ?_) ht0⟩
    rw [htok]
    trivial
  · cases hr.symm.trans h

theorem scanNumber_longer {state : NumberState} {kind : NumberKind} {buffer : Bytes} {d d' : Trace}
    {input t : Bytes} (hl : Longer t ⟨input, d⟩ ⟨input ++ t, d'⟩) (ht : Delimited t)
    (h : ∀ m, (scanNumber (F := F) state kind buffer d input).1 ≠ .parseError m) :
    (scanNumber (F := F) state kind buffer d' (input ++ t)).1 =
        (scanNumber state kind buffer d input).1 ∧
      Longer t (scanNumber (F := F) state kind buffer d input).2
        (scanNumber (F := F) state kind buffer d' (input ++ t)).2 := by
  induction input generalizing state kind buffer d d' with
  | nil =>
    rw [scanNumber] at h ⊢
    cases he : numberError state with
    | some message => rw [he] at h; exact absurd rfl (h _)
    | none =>
      have hd := (Reads.eof_unread d).total
      cases t with
      | nil =>
        have hd' := (Reads.eof_unread d').total
        rw [List.append_nil, scanNumber, he]
        exact ⟨rfl, rfl, by simp only at hd hd'; rw [hd', hd]; exact hl.2⟩
      | cons c t =>
        have hd' := (Reads.byte_unread c t d').total
        rw [List.nil_append, scanNumber, ht c rfl state]
        simp only [he]
        exact ⟨trivial, rfl, by simp only at hd hd'; rw [hd', hd]; exact hl.2⟩
  | cons c rest ih =>
    rw [List.cons_append, scanNumber, scanNumber]
    rw [scanNumber] at h
    cases hs : numberStep state c with
    | some state' => rw [hs] at h; exact ih hl.read h
    | none =>
      rw [hs] at h
      cases he : numberError state with
      | some message => rw [he] at h; exact absurd rfl (h _)
      | none =>
        have hd := (Reads.byte_unread c rest d).total
        have hd' := (Reads.byte_unread c (rest ++ t) d').total
        exact ⟨rfl, rfl, by simp only at hd hd'; rw [hd', hd]; exact hl.2⟩

theorem skipWhitespace_longer {d d' : Trace} {input t : Bytes}
    (hl : Longer t ⟨input, d⟩ ⟨input ++ t, d'⟩) :
    (∃ c, (skipWhitespace d input).1 = some c ∧ (skipWhitespace d' (input ++ t)).1 = some c ∧
        Longer t (skipWhitespace d input).2 (skipWhitespace d' (input ++ t)).2) ∨
      (skipWhitespace d input).1 = none ∧
        ∃ d'', skipWhitespace d' (input ++ t) = skipWhitespace d'' t := by
  induction input generalizing d d' with
  | nil => exact Or.inr ⟨rfl, d', rfl⟩
  | cons c rest ih =>
    rw [List.cons_append, skipWhitespace, skipWhitespace]
    split_ifs
    · exact ih hl.read
    · exact Or.inl ⟨c, rfl, rfl, hl.read⟩

theorem scanFrom_longer {c : UInt8} {lx lx' : Lexer} {t : Bytes} (hl : Longer t lx lx')
    (ht : Delimited t) (h : ∀ m, (scanFrom (F := F) c lx).1 ≠ .parseError m) :
    (scanFrom (F := F) c lx').1 = (scanFrom c lx).1 ∧
      Longer t (scanFrom (F := F) c lx).2 (scanFrom (F := F) c lx').2 := by
  obtain ⟨ia, d⟩ := lx
  obtain ⟨ia', d'⟩ := lx'
  obtain rfl : ia' = ia ++ t := hl.1
  have hz : Longer t ⟨ia, d.reset c⟩ ⟨ia ++ t, d'.reset c⟩ := ⟨rfl, hl.2⟩
  have hbegins := scanFrom_begins (F := F) c
  generalize scanFrom (F := F) c = scan at hbegins h ⊢
  cases hbegins with
  | structural token hst => exact ⟨rfl, hl⟩
  | literal token expected hlt => exact scanLiteral_longer hl h
  | number state kind hns => exact scanNumber_longer hz ht h
  | string hquote => exact scanString_longer hz h
  | nul hnul => exact ⟨rfl, hl⟩
  | other => exact absurd rfl (h _)

theorem skipBom_longer {lx lx' : Lexer} {t : Bytes} {b : UInt8} (hb : b ≠ 0xEF)
    (hl : Longer (b :: t) lx lx') (h : (skipBom lx).1 = true) :
    (skipBom lx').1 = true ∧ Longer (b :: t) (skipBom lx).2 (skipBom lx').2 := by
  obtain ⟨ia, d⟩ := lx
  obtain ⟨ia', d'⟩ := lx'
  obtain rfl : ia' = ia ++ b :: t := hl.1
  have unread (c : UInt8) (rest rest' : Bytes) : (d'.read c).unread.position.charsReadTotal =
      (d.read c).unread.position.charsReadTotal := by
    have h1 := (Reads.byte_unread c rest d).total
    have h2 := (Reads.byte_unread c rest' d').total
    simp only at h1 h2
    rw [h1, h2]
    exact hl.2
  rcases ia with _ | ⟨c, rest⟩
  · have h1 := (Reads.eof_unread d).total
    have h2 := (Reads.byte_unread b t d').total
    simp only at h1 h2
    simp only [skipBom, List.nil_append, if_neg hb]
    exact ⟨trivial, rfl, by simp only; rw [h1, h2]; exact hl.2⟩
  · by_cases hc : c = 0xEF
    · subst hc
      rcases rest with _ | ⟨x, rest⟩
      · cases h
      · by_cases hx : x = 0xBB
        · subst hx
          rcases rest with _ | ⟨y, rest⟩
          · cases h
          · exact ⟨h, hl.read.read.read⟩
        · simp [skipBom, hx] at h
    · simp only [skipBom, List.cons_append, if_neg hc]
      exact ⟨trivial, rfl, unread c rest (rest ++ b :: t)⟩

theorem scan_longer {lx lx' : Lexer} {t : Bytes} (hl : Longer (0x7B :: t) lx lx')
    (h : ∀ m, (scan (F := F) lx).1 ≠ .parseError m) :
    (scan (F := F) lx').1 = (scan lx).1 ∧
        Longer (0x7B :: t) (scan (F := F) lx).2 (scan (F := F) lx').2 ∨
      (scan (F := F) lx).1 = .endOfInput ∧ (scan (F := F) lx').1 = .beginObject := by
  have hdel : Delimited (0x7B :: t) := by
    intro c hc state
    cases hc
    cases state <;> rfl
  have token {lx lx' : Lexer} (hl : Longer (0x7B :: t) lx lx')
      (h : ∀ m, (scanToken (F := F) lx).1 ≠ .parseError m) :
      (scanToken (F := F) lx').1 = (scanToken lx).1 ∧
          Longer (0x7B :: t) (scanToken (F := F) lx).2 (scanToken (F := F) lx').2 ∨
        (scanToken (F := F) lx).1 = .endOfInput ∧ (scanToken (F := F) lx').1 = .beginObject := by
    obtain ⟨ia, d⟩ := lx
    obtain ⟨ia', d'⟩ := lx'
    obtain rfl : ia' = ia ++ 0x7B :: t := hl.1
    rw [scanToken] at h
    rw [scanToken, scanToken]
    rcases skipWhitespace_longer hl with ⟨c, hw, hw', hlw⟩ | ⟨hw, d'', hw'⟩
    · rcases hs : skipWhitespace d ia with ⟨_, lw⟩
      rcases hs' : skipWhitespace d' (ia ++ 0x7B :: t) with ⟨_, lw'⟩
      rw [hs] at hw hlw h
      rw [hs'] at hw' hlw
      cases hw
      cases hw'
      exact Or.inl (scanFrom_longer hlw hdel h)
    · rcases hs : skipWhitespace d ia with ⟨_, lw⟩
      rw [hs] at hw
      cases hw
      rw [hw']
      exact Or.inr ⟨rfl, rfl⟩
  have htotal := hl.2
  unfold scan at h ⊢
  rw [htotal]
  split_ifs at h ⊢
  · rcases hb : skipBom lx with ⟨_ | _, lb⟩
    · rw [hb] at h
      exact absurd rfl (h _)
    · obtain ⟨hb', hlb⟩ := skipBom_longer (by decide) hl (by rw [hb])
      rcases hs : skipBom lx' with ⟨_ | _, lb'⟩
      · rw [hs] at hb'; cases hb'
      · rw [hb] at h hlb
        rw [hs] at hlb
        exact token hlb h
  · exact token hl h

theorem run_longer {st : Parser F} {lx lx' : Lexer} {t : Bytes} {v : Json F}
    (h : run st lx = .ok v) (hl : Longer (0x7B :: t) lx lx') :
    (∃ e, run st lx' = .error e) ∨ run st lx' = .ok v := by
  induction st, lx using run.induct (F := F) generalizing lx' with
  | case1 st lx st' hn ih =>
    obtain ⟨hne, hnp⟩ := token_of_parseStep_next hn
    rw [run_next hn] at h
    rcases scan_longer hl hnp with ⟨htok, hl'⟩ | ⟨he, -⟩
    · have hn' : nextStep st lx' = .next st' := by rw [nextStep, htok, hl'.2]; exact hn
      rw [run_next hn']
      exact ih h hl'
    · exact absurd he hne
  | case2 st lx root hd =>
    have hv : root = v := Except.ok.inj ((run_done hd).symm.trans h)
    obtain ⟨hcontrol, htok⟩ := parseStep_done hd
    rcases scan_longer hl (fun m hm => by cases htok.symm.trans hm) with ⟨htok', hl'⟩ | ⟨-, htok'⟩
    · have hd' : nextStep st lx' = .done root := by rw [nextStep, htok', hl'.2]; exact hd
      exact Or.inr (hv ▸ run_done hd')
    · obtain ⟨stack, control⟩ := st
      obtain rfl : control = .endOfInput root := hcontrol
      refine Or.inl ⟨_, run_fail
        (?_ : nextStep _ lx' = .fail (.syntaxError "value" (some "end of input")))⟩
      rw [nextStep, htok']
      rfl
  | case3 st lx failure hf => cases (run_fail hf).symm.trans h

/-- Behind an accepted text an object is an error, or it stands behind a zero byte and is
never read. -/
theorem parse_append_object {u t : Bytes} {v : Json F} (h : parse u = .ok v) :
    (∃ e, parse (F := F) (u ++ 0x7B :: t) = .error e) ∨ parse (u ++ 0x7B :: t) = .ok v :=
  run_longer h ⟨rfl, rfl⟩

variable [LawfulNumberFloat F]

theorem parse_text_append_object {v : Json F} (hv : Valid v) (t : Bytes) :
    ∃ e, parse (F := F) (text v ++ 0x7B :: t) = .error e := by
  have hdel : Delimited (0x7B :: t) := by
    intro c hc state
    cases hc
    cases state <;> rfl
  obtain ⟨d, hd, hr⟩ := leads_text hv (expects_value []) hdel (d := {}) (Or.inl rfl)
  have hs : scan (F := F) ⟨0x7B :: t, d⟩ = (.beginObject, ⟨t, d.read 0x7B⟩) :=
    scan_cons (Or.inr hd) (by decide) rfl t
  have hfail : nextStep (complete v []) ⟨0x7B :: t, d⟩ =
      .fail (.syntaxError "value" (some "end of input")) := by
    rw [nextStep, hs]
    rfl
  exact ⟨_, hr.trans (run_fail hfail)⟩

theorem zero_not_mem_text {v : Json F} (hv : Valid v) {p u : Bytes} (h : text v = p ++ u) :
    0x00 ∉ p :=
  fun hz => absurd (text_printable hv 0x00 (h ▸ List.mem_append_left _ hz)) (by decide)

theorem depth_cut_object {ms : Members F} (hv : Valid (.object ms)) {p u : Bytes} (hp : p ≠ [])
    (hu : u ≠ []) (h : text (.object ms) = p ++ u) : 1 ≤ (Nest.run ⟨0, .out⟩ p).depth := by
  obtain ⟨body, hbody, halong, -⟩ := object_text_along hv
  obtain ⟨b, q, rfl⟩ := List.exists_cons_of_ne_nil hp
  obtain ⟨c, u, rfl⟩ := List.exists_cons_of_ne_nil hu
  rw [hbody, List.cons_append] at h
  obtain ⟨rfl, rfl⟩ := List.cons.inj h
  obtain ⟨-, hcut⟩ := Nest.along_append.mp halong
  exact hcut.1.1

/-- A compact object cut short does not parse. -/
theorem parse_cut_object {ms : Members F} (hv : Valid (.object ms)) {p u : Bytes} (hp : p ≠ [])
    (hu : u ≠ []) (h : text (.object ms) = p ++ u) (w : Json F) : parse p ≠ .ok w := by
  intro hw
  have hdepth := (parse_nest hw (zero_not_mem_text hv h)).1
  have hpos := depth_cut_object hv hp hu h
  omega

theorem le_depth_text {v : Json F} (hv : Valid v) {w u : Bytes} (h : text v = w ++ u) (n : ℤ) :
    n ≤ (Nest.run ⟨n, .out⟩ w).depth := by
  obtain ⟨halong, hend, -⟩ := balanced_text hv n n le_rfl
  rw [h] at halong hend
  cases u with
  | nil => rw [List.append_nil] at hend; exact hend.ge
  | cons c u => exact (Nest.along_append.mp halong).2.1.1

/-- Nor does it parse with the beginning of another object behind it: between tokens a bracket stays
open, and in a string the quote of the first key ends the string in front of the key. -/
theorem parse_cut_object_append {ms ms' : Members F} (hv : Valid (.object ms))
    (hv' : Valid (.object ms')) {p u w u' : Bytes} (hp : p ≠ []) (hu : u ≠ []) (hw : w ≠ [])
    (h : text (.object ms) = p ++ u) (h' : text (.object ms') = w ++ u') {c : UInt8} {t : Bytes}
    (hc : ¬Nest.Gap c) (ht : text (.object ms') = 0x7B :: 0x22 :: c :: t) (v : Json F) :
    parse (p ++ w) ≠ .ok v := by
  intro hok
  have h0 : 0x00 ∉ p ++ w := fun hmem => (List.mem_append.mp hmem).elim
    (zero_not_mem_text hv h) (zero_not_mem_text hv' h')
  obtain ⟨hdepth, hcalm⟩ := parse_nest hok h0
  rw [Nest.run_append] at hdepth
  have hcalm := (Nest.calm_append.mp hcalm).2
  have hpos := depth_cut_object hv hp hu h
  generalize Nest.run ⟨0, .out⟩ p = s at hdepth hcalm hpos
  obtain ⟨n, mode⟩ := s
  have hdeep := le_depth_text hv' h' n
  simp only at hpos
  obtain ⟨b, w, rfl⟩ := List.exists_cons_of_ne_nil hw
  rw [ht, List.cons_append] at h'
  obtain ⟨rfl, hrest⟩ := List.cons.inj h'
  have hstring (hmode : Nest.step ⟨n, mode⟩ 0x7B = ⟨n, .str⟩) : False := by
    rw [Nest.run_cons, hmode] at hdepth
    have hcalm := hcalm.2
    rw [hmode] at hcalm
    rcases w with _ | ⟨b, _ | ⟨b', w⟩⟩
    · simp only [Nest.run_nil] at hdepth
      omega
    · obtain ⟨rfl, -⟩ := List.cons.inj hrest
      change n = 0 at hdepth
      omega
    · obtain ⟨rfl, hkey⟩ := List.cons.inj hrest
      obtain ⟨rfl, -⟩ := List.cons.inj hkey
      exact hc (hcalm.2.1 rfl)
  cases mode with
  | out =>
    rw [hdepth] at hdeep
    omega
  | closed =>
    have hsame : Nest.run ⟨n, .closed⟩ (0x7B :: w) = Nest.run ⟨n, .out⟩ (0x7B :: w) := rfl
    rw [← hsame, hdepth] at hdeep
    omega
  | str => exact hstring rfl
  | esc => exact hstring rfl

end Number
end Ledger.Json

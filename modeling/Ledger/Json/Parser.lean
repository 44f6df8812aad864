import Ledger.Json.Lexer

/-! The parser: one step of `sax_parse_internal` for each token read, building the value as
`json_sax_dom_parser` does. -/
namespace Ledger.Json
open Text
variable {F : Type}

/-- An open container. `states` and `ref_stack` of the source are one stack here. -/
inductive Frame (F : Type)
  | array (elements : List (Json F))
  | object (members : Members F) (key : Bytes)

/-- What the next call of `get_token()` is for. -/
inductive Control (F : Type)
  | value
  | objectStart
  | arrayStart
  | separator
  | evaluate
  | key
  | endOfInput (root : Json F)

structure Parser (F : Type) where
  stack : List (Frame F)
  control : Control F

/-- Which of the parser's exceptions a token leads to. -/
inductive Failure
  | syntaxError (context : String) (expected : Option String)
  | emptyInput
  | numberOverflow

inductive ParseStep (F : Type)
  | next (st : Parser F)
  | done (root : Json F)
  | fail (failure : Failure)

/-- A value is finished: it becomes the root, or `handle_value` adds it to the container. -/
def complete (v : Json F) : List (Frame F) → Parser F
  | [] => ⟨[], .endOfInput v⟩
  | .array es :: stack => ⟨.array (es ++ [v]) :: stack, .evaluate⟩
  | .object ms k :: stack => ⟨.object (assign k v ms) k :: stack, .evaluate⟩

/-- The `switch` over the last token where a value is expected. -/
def valueStep [NumberFloat F] (stack : List (Frame F)) (charsReadTotal : ℕ) :
    Token F → ParseStep F
  | .beginObject => .next ⟨stack, .objectStart⟩
  | .beginArray => .next ⟨stack, .arrayStart⟩
  | .valueFloat x =>
    if NumberFloat.isfinite x then .next (complete (.float x) stack) else .fail .numberOverflow
  | .literalFalse => .next (complete (.boolean false) stack)
  | .literalNull => .next (complete .null stack)
  | .literalTrue => .next (complete (.boolean true) stack)
  | .valueInteger i => .next (complete (.number i) stack)
  | .valueString s => .next (complete (.string s) stack)
  | .parseError _ => .fail (.syntaxError "value" none)
  | .endOfInput =>
    if charsReadTotal = 1 then .fail .emptyInput
    else .fail (.syntaxError "value" (some "'[', '\x7b', or a literal"))
  | .endArray | .endObject | .nameSeparator | .valueSeparator =>
    .fail (.syntaxError "value" (some "'[', '\x7b', or a literal"))

def parseStep [NumberFloat F] (st : Parser F) (charsReadTotal : ℕ) (token : Token F) :
    ParseStep F :=
  match st.control, st.stack, token with
  | .value, stack, token => valueStep stack charsReadTotal token
  | .objectStart, stack, .endObject => .next (complete (.object []) stack)
  | .objectStart, stack, .valueString k => .next ⟨.object [] k :: stack, .separator⟩
  | .objectStart, _, _ => .fail (.syntaxError "object key" (some "string literal"))
  | .arrayStart, stack, .endArray => .next (complete (.array []) stack)
  | .arrayStart, stack, token => valueStep (.array [] :: stack) charsReadTotal token
  | .separator, stack, .nameSeparator => .next ⟨stack, .value⟩
  | .separator, _, _ => .fail (.syntaxError "object separator" (some "':'"))
  | .evaluate, .array es :: stack, .valueSeparator => .next ⟨.array es :: stack, .value⟩
  | .evaluate, .array es :: stack, .endArray => .next (complete (.array es) stack)
  | .evaluate, .array _ :: _, _ => .fail (.syntaxError "array" (some "']'"))
  | .evaluate, .object ms k :: stack, .valueSeparator => .next ⟨.object ms k :: stack, .key⟩
  | .evaluate, .object ms _ :: stack, .endObject => .next (complete (.object ms) stack)
  | .evaluate, _, _ => .fail (.syntaxError "object" (some "'\x7d'"))
  | .key, .object ms _ :: stack, .valueString k => .next ⟨.object ms k :: stack, .separator⟩
  | .key, _, _ => .fail (.syntaxError "object key" (some "string literal"))
  | .endOfInput root, _, .endOfInput => .done root
  | .endOfInput _, _, _ => .fail (.syntaxError "value" (some "end of input"))

/-- The part of `exception_message` that says what was found. -/
def foundText (token : Token F) (d : Trace) : Bytes :=
  match token with
  | .parseError message =>
    ascii message ++ ascii "; last read: '" ++ tokenText d.tokenString ++ ascii "'"
  | token => ascii "unexpected " ++ ascii token.name

def expectedText : Option String → Bytes
  | some name => ascii "; expected " ++ ascii name
  | none => []

def exceptionMessage (token : Token F) (d : Trace) (context : String)
    (expected : Option String) : Bytes :=
  ascii "syntax error while parsing " ++ ascii context ++ ascii " - " ++ foundText token d ++
    expectedText expected

def parseError (d : Trace) (explanation : Bytes) : Exception :=
  .create "parse_error" 101 (some d.position.charsReadTotal)
    (ascii "parse error at line " ++ decimal (d.position.linesRead + 1) ++ ascii ", column " ++
      decimal d.position.charsReadCurrentLine ++ ascii ": " ++ explanation)

def Failure.exception (token : Token F) (d : Trace) : Failure → Exception
  | .syntaxError context expected => parseError d (exceptionMessage token d context expected)
  | .emptyInput => parseError d (ascii
      "attempting to parse an empty input; check that your input string or stream contains the expected JSON")
  | .numberOverflow =>
    outOfRange 406 (ascii "number overflow parsing '" ++ tokenText d.tokenString ++ ascii "'")

theorem scanString_length (state : StringState) (buffer : Bytes) (d : Trace) (input : Bytes) :
    (scanString (F := F) state buffer d input).2.ia.length ≤ input.length := by
  induction input generalizing state buffer d with
  | nil => simp [scanString]
  | cons c rest ih =>
    rw [scanString]
    cases stringStep buffer state c with
    | more state' buffer' => exact (ih ..).trans (by simp)
    | closed buffer' => simp
    | error message => simp

theorem scanLiteral_length (token : Token F) (d : Trace) (expected input : Bytes) :
    (scanLiteral token d expected input).2.ia.length ≤ input.length := by
  induction expected generalizing d input with
  | nil => simp [scanLiteral]
  | cons e expected ih =>
    cases input with
    | nil => simp [scanLiteral]
    | cons c rest =>
      rw [scanLiteral]
      split_ifs
      · exact (ih ..).trans (by simp)
      · simp

theorem skipWhitespace_length (d : Trace) (input : Bytes) :
    (skipWhitespace d input).2.ia.length ≤ input.length ∧
      ((skipWhitespace d input).1 ≠ none → (skipWhitespace d input).2.ia.length < input.length) := by
  induction input generalizing d with
  | nil => simp [skipWhitespace]
  | cons c rest ih =>
    rw [skipWhitespace]
    split_ifs
    · obtain ⟨hle, hlt⟩ := ih (d.read c)
      exact ⟨hle.trans (by simp), fun h => (hlt h).trans (by simp)⟩
    · simp

theorem skipBom_length (lx : Lexer) : (skipBom lx).2.ia.length ≤ lx.ia.length := by
  obtain ⟨ia, d⟩ := lx
  unfold skipBom
  rcases ia with _ | ⟨a, _ | ⟨b, _ | ⟨c, rest⟩⟩⟩ <;> dsimp only
  · exact le_rfl
  all_goals split_ifs <;> simp only [List.length_cons, List.length_nil] <;> omega

section Number
variable [NumberFloat F]

theorem scanNumber_length (state : NumberState) (kind : NumberKind) (buffer : Bytes) (d : Trace)
    (input : Bytes) :
    (scanNumber (F := F) state kind buffer d input).2.ia.length ≤ input.length := by
  induction input generalizing state kind buffer d with
  | nil => rw [scanNumber]; cases numberError state <;> simp
  | cons c rest ih =>
    rw [scanNumber]
    cases numberStep state c with
    | some state' => exact (ih ..).trans (by simp)
    | none => cases numberError state <;> simp

/-- How the first byte of a token decides what is scanned. -/
inductive Begins (c : UInt8) : (Lexer → Token F × Lexer) → Prop
  | structural (token : Token F) (h : structuralToken c = some token) :
    Begins c fun lx => (token, lx)
  | literal (token : Token F) (expected : Bytes) (h : literalToken c = some (token, expected)) :
    Begins c fun lx => scanLiteral token lx.trace expected lx.ia
  | number (state : NumberState) (kind : NumberKind) (h : numberStart c = some (state, kind)) :
    Begins c fun lx => scanNumber state kind [c] (lx.trace.reset c) lx.ia
  | string (h : c = 0x22) : Begins c fun lx => scanString (.chars []) [] (lx.trace.reset c) lx.ia
  | nul (h : c = 0x00) : Begins c fun lx => (.endOfInput, lx)
  | other : Begins c fun lx => (.parseError "invalid literal", lx)

theorem scanFrom_begins (c : UInt8) : Begins c (scanFrom (F := F) c) := by
  unfold scanFrom
  cases hst : structuralToken (F := F) c with
  | some token => exact .structural token hst
  | none =>
    cases hlt : literalToken (F := F) c with
    | some literal => exact .literal literal.1 literal.2 hlt
    | none =>
      cases hns : numberStart c with
      | some start => exact .number start.1 start.2 hns
      | none =>
        dsimp only
        split_ifs with h1 h2
        · exact .string h1
        · exact .nul h2
        · exact .other

theorem scanFrom_length (c : UInt8) (lx : Lexer) :
    (scanFrom (F := F) c lx).2.ia.length ≤ lx.ia.length := by
  have hbegins := scanFrom_begins (F := F) c
  generalize scanFrom (F := F) c = scan at hbegins ⊢
  cases hbegins with
  | structural token h => exact le_rfl
  | literal token expected h => exact scanLiteral_length ..
  | number state kind h => exact scanNumber_length ..
  | string h => exact scanString_length ..
  | nul h => exact le_rfl
  | other => exact le_rfl

theorem scan_cases (lx : Lexer) : (scan (F := F) lx).1 = .endOfInput ∨
    (scan (F := F) lx).1 = .parseError "invalid BOM; must be 0xEF 0xBB 0xBF if given" ∨
    ∃ c lx', (scan (F := F) lx).1 = (scanFrom c lx').1 := by
  have htoken (lx : Lexer) : (scanToken (F := F) lx).1 = .endOfInput ∨
      ∃ c lx', (scanToken (F := F) lx).1 = (scanFrom c lx').1 := by
    rw [scanToken]
    rcases skipWhitespace lx.trace lx.ia with ⟨_ | c, lx'⟩
    · exact Or.inl rfl
    · exact Or.inr ⟨c, lx', rfl⟩
  rw [scan]
  split_ifs
  · rcases skipBom lx with ⟨_ | _, lx'⟩
    · exact Or.inr (Or.inl rfl)
    · exact (htoken lx').imp_right Or.inr
  · exact (htoken lx).imp_right Or.inr

theorem scanToken_length (lx : Lexer) (h : (scanToken (F := F) lx).1 ≠ .endOfInput) :
    (scanToken (F := F) lx).2.ia.length < lx.ia.length := by
  unfold scanToken at h ⊢
  have hs := (skipWhitespace_length lx.trace lx.ia).2
  rcases hw : skipWhitespace lx.trace lx.ia with ⟨_ | c, lx'⟩
  · simp [hw] at h
  · rw [hw] at hs
    exact (scanFrom_length c lx').trans_lt (hs (by simp))

theorem scan_length (lx : Lexer) (h : (scan (F := F) lx).1 ≠ .endOfInput)
    (hp : ∀ m, (scan (F := F) lx).1 ≠ .parseError m) :
    (scan (F := F) lx).2.ia.length < lx.ia.length := by
  unfold scan at h hp ⊢
  split_ifs at h hp ⊢
  · have hb := skipBom_length lx
    rcases hs : skipBom lx with ⟨_ | _, lx'⟩
    · simp [hs] at hp
    · rw [hs] at h hb
      exact (scanToken_length lx' h).trans_le hb
  · exact scanToken_length lx h

theorem token_of_parseStep_next {st st' : Parser F} {n : ℕ} {token : Token F}
    (h : parseStep st n token = .next st') :
    token ≠ .endOfInput ∧ ∀ m, token ≠ .parseError m := by
  obtain ⟨stack, control⟩ := st
  constructor
  · rintro rfl
    cases control <;> rcases stack with _ | ⟨_ | _, _⟩ <;>
      simp [parseStep, valueStep] at h <;> split_ifs at h
  · rintro m rfl
    cases control <;> rcases stack with _ | ⟨_ | _, _⟩ <;> simp [parseStep, valueStep] at h

/-- Read a token and act on it until the value is complete or an exception is thrown. -/
def run (st : Parser F) (lx : Lexer) : Except Exception (Json F) :=
  match _h : parseStep st (scan (F := F) lx).2.trace.position.charsReadTotal (scan lx).1 with
  | .next st' => run st' (scan (F := F) lx).2
  | .done root => .ok root
  | .fail failure => .error (failure.exception (scan (F := F) lx).1 (scan (F := F) lx).2.trace)
termination_by lx.ia.length
decreasing_by exact scan_length lx (token_of_parseStep_next _h).1 (token_of_parseStep_next _h).2

def parse (input : Bytes) : Except Exception (Json F) :=
  run ⟨[], .value⟩ ⟨input, {}⟩

def nextStep (st : Parser F) (lx : Lexer) : ParseStep F :=
  parseStep st (scan (F := F) lx).2.trace.position.charsReadTotal (scan lx).1

theorem run_next {st st' : Parser F} {lx : Lexer} (h : nextStep st lx = .next st') :
    run st lx = run st' (scan (F := F) lx).2 := by
  rw [run]
  split <;> simp_all [nextStep]

theorem run_done {st : Parser F} {lx : Lexer} {root : Json F} (h : nextStep st lx = .done root) :
    run st lx = .ok root := by
  rw [run]
  split <;> simp_all [nextStep]

theorem run_fail {st : Parser F} {lx : Lexer} {failure : Failure}
    (h : nextStep st lx = .fail failure) :
    run st lx = .error (failure.exception (scan (F := F) lx).1 (scan (F := F) lx).2.trace) := by
  rw [run]
  split <;> simp_all [nextStep]

/-- An invariant of the loop holds where it ends. -/
theorem run_last {P : Parser F → Lexer → Prop}
    (hstep : ∀ st lx st', P st lx → nextStep st lx = .next st' → P st' (scan (F := F) lx).2)
    (st : Parser F) (lx : Lexer) (hP : P st lx) :
    ∃ st' lx', P st' lx' ∧
      ((∃ root, nextStep st' lx' = .done root ∧ run st lx = .ok root) ∨
        ∃ failure, nextStep st' lx' = .fail failure ∧
          run st lx =
            .error (failure.exception (scan (F := F) lx').1 (scan (F := F) lx').2.trace)) := by
  induction st, lx using run.induct (F := F) with
  | case1 st lx st' h ih =>
    rw [run_next h]
    exact ih (hstep st lx st' hP h)
  | case2 st lx root h => exact ⟨st, lx, hP, Or.inl ⟨root, h, run_done h⟩⟩
  | case3 st lx failure h => exact ⟨st, lx, hP, Or.inr ⟨failure, h, run_fail h⟩⟩

end Number
end Ledger.Json

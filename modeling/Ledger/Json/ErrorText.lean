import Ledger.Json.Scan

/-! The texts of parse errors: everything in them is ASCII but the last bytes read, which the
lexer quotes as they are. -/
namespace Ledger.Json
open Text
variable {F : Type}

def IsAscii (s : String) : Prop :=
  ∀ b ∈ ascii s, b ≤ 0x7F

instance (s : String) : Decidable (IsAscii s) :=
  List.decidableBAll _ (ascii s)

theorem isAscii_ofList {l : List Char} (h : l.all (fun c => decide (c.toNat ≤ 0x7F)) = true) :
    IsAscii (String.ofList l) := by
  intro b hb
  simp only [ascii, String.toList_ofList, List.mem_map] at hb
  obtain ⟨c, hc, rfl⟩ := hb
  have hle : c.toNat ≤ 0x7F := of_decide_eq_true (List.all_eq_true.mp h c hc)
  rw [UInt8.le_iff_toNat_le, Nat.toUInt8_eq, UInt8.toNat_ofNat']
  exact (Nat.mod_le ..).trans hle

theorem IsAscii.append {s t : String} (hs : IsAscii s) (ht : IsAscii t) : IsAscii (s ++ t) := by
  intro b hb
  simp only [ascii, String.toList_append, List.map_append, List.mem_append] at hb
  exact hb.elim (hs b) (ht b)

theorem IsAscii.wellFormed {s : String} (hs : IsAscii s) : Utf8.WellFormed (ascii s) :=
  Utf8.wellFormed_ascii hs

theorem controlMessages_ascii : ∀ s ∈ controlMessages, IsAscii s := by
  simp only [controlMessages, List.forall_mem_cons, List.not_mem_nil, IsEmpty.forall_iff,
    implies_true, and_true]
  repeat' apply And.intro
  all_goals exact isAscii_ofList (by decide)

theorem controlMessage_ascii (c : UInt8) : IsAscii (controlMessage c) := by
  apply IsAscii.append (isAscii_ofList (by decide))
  rw [List.getD_eq_getElem?_getD]
  cases h : controlMessages[c.toNat]? with
  | none => decide
  | some s => exact controlMessages_ascii s (List.mem_of_getElem? h)

theorem stringStep_message {buffer : Bytes} {state : StringState} {c : UInt8} {m : String}
    (h : stringStep buffer state c = .error m) : IsAscii m := by
  have hill : IsAscii illFormed := isAscii_ofList (by decide)
  have hesc : IsAscii badEscape := isAscii_ofList (by decide)
  have hhex : IsAscii badHex := isAscii_ofList (by decide)
  have hhigh : IsAscii loneHigh := isAscii_ofList (by decide)
  have hlow : IsAscii loneLow := isAscii_ofList (by decide)
  have hctl := controlMessage_ascii c
  rcases state with (_ | ⟨r, owed⟩) | _ | ⟨digits, acc, high⟩ | high | high <;>
    rw [stringStep] at h
  · split_ifs at h
    · cases h; exact hctl
    · cases hc : Utf8.continuation c <;> simp only [hc] at h <;> cases h
      exact hill
  · cases hc : Utf8.step (r :: owed) c <;> simp only [hc] at h <;> cases h
    exact hill
  · split_ifs at h
    cases he : escapeValue c <;> simp only [he] at h <;> cases h
    exact hesc
  · cases hx : hexValue c with
    | none => simp only [hx] at h; cases h; exact hhex
    | some x =>
      simp only [hx] at h
      split_ifs at h
      unfold codepointRead at h
      cases high <;> dsimp only at h <;> split_ifs at h <;> cases h
      · exact hlow
      · exact hhigh
  · split_ifs at h; cases h; exact hhigh
  · split_ifs at h; cases h; exact hhigh

theorem scanString_message {state : StringState} {buffer : Bytes} {d : Trace} {input : Bytes}
    {m : String} (h : (scanString (F := F) state buffer d input).1 = .parseError m) :
    IsAscii m := by
  induction input generalizing state buffer d with
  | nil =>
    cases h
    rcases state with (_ | ⟨r, owed⟩) | _ | ⟨digits, acc, high⟩ | high | high <;>
      rw [stringEof] <;> exact isAscii_ofList (by decide)
  | cons c rest ih =>
    rw [scanString] at h
    cases hs : stringStep buffer state c with
    | more state' buffer' => rw [hs] at h; exact ih h
    | closed buffer' => rw [hs] at h; cases h
    | error message => rw [hs] at h; cases h; exact stringStep_message hs

theorem scanLiteral_message {token : Token F} {d : Trace} {expected input : Bytes} {m : String}
    (ht : ∀ m, token ≠ .parseError m)
    (h : (scanLiteral token d expected input).1 = .parseError m) : IsAscii m := by
  induction expected generalizing d input with
  | nil => exact absurd h (ht m)
  | cons e expected ih =>
    cases input with
    | nil => cases h; exact isAscii_ofList (by decide)
    | cons c rest =>
      rw [scanLiteral] at h
      split_ifs at h
      · exact ih h
      · cases h; exact isAscii_ofList (by decide)

theorem numberError_message {state : NumberState} {m : String} (h : numberError state = some m) :
    IsAscii m := by
  cases state <;> cases h <;> exact isAscii_ofList (by decide)

theorem hexByteUpper_ascii (c : UInt8) : ∀ b ∈ hexByteUpper c, b ≤ 0x7F := by
  have digit {d : ℕ} (hd : d < 16) : hexDigitUpper d ≤ 0x7F := by
    interval_cases d <;> decide
  have hc := c.toNat_lt
  simp only [hexByteUpper, List.forall_mem_cons, List.not_mem_nil, false_implies, implies_true,
    and_true]
  exact ⟨digit (by omega), digit (by omega)⟩

/-- Spelling out control characters neither creates nor repairs ill-formed text. -/
theorem tokenText_wellFormed_iff (t : Bytes) :
    Utf8.WellFormed (tokenText t) ↔ Utf8.WellFormed t := by
  refine Utf8.wellFormed_flatMap_iff (fun c => ?_) t
  unfold tokenByte
  split_ifs with hc
  · refine Or.inr ⟨UInt8.le_trans hc (by decide), by simp [ascii], fun b hb => ?_⟩
    rcases List.mem_append.mp hb with hb | hb
    · rcases List.mem_append.mp hb with hb | hb
      · exact (show IsAscii "<U+00" by decide) b hb
      · exact hexByteUpper_ascii c b hb
    · exact (show IsAscii ">" by decide) b hb
  · exact Or.inl rfl

private theorem create_wellFormed_iff {ename : String} (he : IsAscii ename) (id : ℕ)
    (byte : Option ℕ) (t : Bytes) :
    Utf8.WellFormed (Exception.create ename id byte t).what ↔ Utf8.WellFormed t := by
  have hpre : Utf8.WellFormed (ascii "[json.exception." ++ ascii ename ++ ascii "." ++ decimal id ++
      ascii "] ") := by
    refine Utf8.WellFormed.append (Utf8.WellFormed.append (Utf8.WellFormed.append
      (Utf8.WellFormed.append ?_ he.wellFormed) ?_) (decimal_wellFormed id)) ?_ <;> decide
  exact hpre.append_iff t

private theorem parseError_wellFormed_iff (d : Trace) (t : Bytes) :
    Utf8.WellFormed (parseError d t).what ↔ Utf8.WellFormed t := by
  rw [parseError, create_wellFormed_iff (by decide)]
  refine Utf8.WellFormed.append_iff (Utf8.WellFormed.append (Utf8.WellFormed.append
    (Utf8.WellFormed.append (Utf8.WellFormed.append ?_ (decimal_wellFormed _)) ?_)
    (decimal_wellFormed _)) ?_) t <;> decide

theorem expectedText_ascii {expected : Option String} (he : ∀ name ∈ expected, IsAscii name) :
    ∀ b ∈ expectedText expected, b ≤ 0x7F := by
  cases expected with
  | none => simp [expectedText]
  | some name =>
    intro b hb
    rcases List.mem_append.mp hb with hb | hb
    · exact (show IsAscii "; expected " by decide) b hb
    · exact he name rfl b hb

theorem name_ascii (token : Token F) : IsAscii token.name := by
  cases token <;> rw [Token.name] <;> exact isAscii_ofList (by decide)

theorem foundText_error_wellFormed_iff {m : String} (hm : IsAscii m) (d : Trace) :
    Utf8.WellFormed (foundText (F := F) (.parseError m) d) ↔ Utf8.WellFormed d.tokenString := by
  have hpre : Utf8.WellFormed (ascii m ++ ascii "; last read: '") :=
    hm.wellFormed.append (by decide)
  rw [foundText, Utf8.wellFormed_append_ascii_iff (show IsAscii "'" by decide), hpre.append_iff,
    tokenText_wellFormed_iff]

theorem foundText_wellFormed {token : Token F} (ht : ∀ m, token ≠ .parseError m) (d : Trace) :
    Utf8.WellFormed (foundText token d) := by
  have h : foundText token d = ascii "unexpected " ++ ascii token.name := by
    cases token <;> first | rfl | exact absurd rfl (ht _)
  rw [h]
  exact Utf8.WellFormed.append (by decide) (name_ascii token).wellFormed

theorem exceptionMessage_wellFormed_iff {context : String} {expected : Option String}
    (hc : IsAscii context) (he : ∀ name ∈ expected, IsAscii name) (token : Token F) (d : Trace) :
    Utf8.WellFormed (exceptionMessage token d context expected) ↔
      Utf8.WellFormed (foundText token d) := by
  have hpre : Utf8.WellFormed (ascii "syntax error while parsing " ++ ascii context ++
      ascii " - ") :=
    Utf8.WellFormed.append (Utf8.WellFormed.append (by decide) hc.wellFormed) (by decide)
  rw [exceptionMessage, Utf8.wellFormed_append_ascii_iff (expectedText_ascii he), hpre.append_iff]

theorem numberOverflow_wellFormed {d : Trace} (h : Utf8.WellFormed d.tokenString)
    (token : Token F) : Utf8.WellFormed (Failure.numberOverflow.exception token d).what := by
  have hpre : Utf8.WellFormed (ascii "number overflow parsing '") := by decide
  rw [Failure.exception, outOfRange, create_wellFormed_iff (by decide),
    Utf8.wellFormed_append_ascii_iff (show IsAscii "'" by decide), hpre.append_iff,
    tokenText_wellFormed_iff]
  exact h

theorem typeName_ascii (j : Json F) : IsAscii j.typeName := by
  cases j <;> simp only [typeName] <;> exact isAscii_ofList (by decide)

theorem atKey_error_wellFormed {j : Json F} {key : String} {e : Exception} (hk : IsAscii key)
    (h : atKey j key = .error e) : Utf8.WellFormed e.what := by
  unfold atKey at h
  split at h
  · split at h
    · cases h
    · cases h
      rw [outOfRange, create_wellFormed_iff (by decide)]
      exact ((show IsAscii "key '" by decide).wellFormed.append hk.wellFormed).append (by decide)
  · cases h
    rw [typeError, create_wellFormed_iff (by decide)]
    exact (show IsAscii "cannot use at() with " by decide).wellFormed.append
      (typeName_ascii _).wellFormed

theorem getString_error_wellFormed {j : Json F} {e : Exception} (h : getString j = .error e) :
    Utf8.WellFormed e.what := by
  unfold getString at h
  split at h
  · cases h
  · cases h
    rw [typeError, create_wellFormed_iff (by decide)]
    exact (show IsAscii "type must be string, but is " by decide).wellFormed.append
      (typeName_ascii _).wellFormed

section Number
variable [NumberFloat F]

private theorem numberEnd_message {state : NumberState} {kind : NumberKind} {buffer : Bytes}
    {lx lx' : Lexer} {m : String}
    (h : (match numberError state with
      | some message => ((.parseError message : Token F), lx)
      | none => (numberToken kind buffer, lx')).1 = .parseError m) : IsAscii m := by
  cases he : numberError state with
  | some message => rw [he] at h; cases h; exact numberError_message he
  | none =>
    rw [he] at h
    rcases numberToken_value (F := F) kind buffer with ⟨i, hi⟩ | ⟨x, hx⟩
    · cases hi.symm.trans h
    · cases hx.symm.trans h

theorem scanNumber_message {state : NumberState} {kind : NumberKind} {buffer : Bytes} {d : Trace}
    {input : Bytes} {m : String}
    (h : (scanNumber (F := F) state kind buffer d input).1 = .parseError m) : IsAscii m := by
  induction input generalizing state kind buffer d with
  | nil => exact numberEnd_message h
  | cons c rest ih =>
    rw [scanNumber] at h
    cases hs : numberStep state c with
    | some state' => rw [hs] at h; exact ih h
    | none => rw [hs] at h; exact numberEnd_message h

theorem scanFrom_message {c : UInt8} {lx : Lexer} {m : String}
    (h : (scanFrom (F := F) c lx).1 = .parseError m) : IsAscii m := by
  have hbegins := scanFrom_begins (F := F) c
  generalize scanFrom (F := F) c = scan at hbegins h
  cases hbegins with
  | structural token hst =>
    rcases structuralToken_some hst with ⟨-, rfl⟩ | ⟨-, rfl⟩ | ⟨-, rfl⟩ | ⟨-, rfl⟩ | ⟨-, rfl⟩ |
      ⟨-, rfl⟩ <;> cases h
  | literal token expected hlt =>
    refine scanLiteral_message (fun m hm => ?_) h
    rcases (literalToken_some hlt).1 with rfl | rfl | rfl <;> cases hm
  | number state kind hns => exact scanNumber_message h
  | string hquote => exact scanString_message h
  | nul hnul => cases h
  | other => cases h; decide

theorem scan_message {lx : Lexer} {m : String} (h : (scan (F := F) lx).1 = .parseError m) :
    IsAscii m := by
  rcases scan_cases (F := F) lx with hend | hbom | ⟨c, lx', hfrom⟩
  · cases hend.symm.trans h
  · cases hbom.symm.trans h
    decide
  · exact scanFrom_message (hfrom.symm.trans h)

def Failure.Ascii : Failure → Prop
  | .syntaxError context expected => IsAscii context ∧ ∀ name ∈ expected, IsAscii name
  | .emptyInput => True
  | .numberOverflow => True

theorem parseStep_fail {st : Parser F} {n : ℕ} {token : Token F} {failure : Failure}
    (h : parseStep st n token = .fail failure) :
    failure.Ascii ∧ ((∃ m, token = .parseError m) →
      ∃ context expected, failure = .syntaxError context expected) := by
  have value {stack : List (Frame F)} {token : Token F}
      (h : valueStep stack n token = .fail failure) :
      failure.Ascii ∧ ((∃ m, token = .parseError m) →
        ∃ context expected, failure = .syntaxError context expected) := by
    cases token <;> rw [valueStep] at h <;> try split_ifs at h
    all_goals cases h
    all_goals exact ⟨by simp only [Failure.Ascii]; try decide, by simp⟩
  obtain ⟨stack, control⟩ := st
  cases control with
  | value => exact value h
  | arrayStart =>
    by_cases he : token = .endArray
    · subst he; cases h
    · have hv : parseStep ⟨stack, .arrayStart⟩ n token = valueStep (.array [] :: stack) n token := by
        cases token <;> first | rfl | exact absurd rfl he
      exact value (hv ▸ h)
  | objectStart =>
    cases token <;> simp [parseStep] at h <;> subst h <;>
      exact ⟨by simp only [Failure.Ascii]; decide, fun _ => ⟨_, _, rfl⟩⟩
  | separator =>
    cases token <;> simp [parseStep] at h <;> subst h <;>
      exact ⟨by simp only [Failure.Ascii]; decide, fun _ => ⟨_, _, rfl⟩⟩
  | evaluate =>
    rcases stack with _ | ⟨_ | _, _⟩ <;> cases token <;> simp [parseStep] at h <;> subst h <;>
      exact ⟨by simp only [Failure.Ascii]; decide, fun _ => ⟨_, _, rfl⟩⟩
  | key =>
    rcases stack with _ | ⟨_ | _, _⟩ <;> cases token <;> simp [parseStep] at h <;> subst h <;>
      exact ⟨by simp only [Failure.Ascii]; decide, fun _ => ⟨_, _, rfl⟩⟩
  | endOfInput root =>
    cases token <;> simp [parseStep] at h <;> subst h <;>
      exact ⟨by simp only [Failure.Ascii]; decide, fun _ => ⟨_, _, rfl⟩⟩

/-- Between two tokens: `read` is what has been read, all of it well-formed. -/
def Between (body : Bytes) (lx : Lexer) : Prop :=
  ∃ read dropped, body = read ++ lx.ia ∧ Utf8.WellFormed read ∧
    lx.trace.position.charsReadTotal = read.length ∧
    read = dropped ++ lx.trace.tokenString ∧ Utf8.WellFormed dropped

theorem Between.start (body : Bytes) : Between body ⟨body, {}⟩ :=
  ⟨[], [], rfl, rfl, rfl, rfl, rfl⟩

private theorem take_read {body t ia : Bytes} {n : ℕ} (h : body = t ++ ia) (he : n ≠ 0 → ia = []) :
    body.take (t.length + n) = t := by
  subst h
  rcases Nat.eq_zero_or_pos n with rfl | hn
  · simp
  · rw [he (by omega), List.append_nil, List.take_of_length_le (by omega)]

/-- After one more token, the bytes counted are well-formed exactly when the bytes kept are. -/
theorem Between.scan {body : Bytes} {lx : Lexer} (h : Between body lx) :
    (Utf8.WellFormed (body.take (Json.scan (F := F) lx).2.trace.position.charsReadTotal) ↔
      Utf8.WellFormed (Json.scan (F := F) lx).2.trace.tokenString) ∧
    ((∃ m, (Json.scan (F := F) lx).1 = .parseError m) ∨
      Utf8.WellFormed (Json.scan (F := F) lx).2.trace.tokenString ∧
        ((Json.scan (F := F) lx).1 = .endOfInput ∨ Between body (Json.scan (F := F) lx).2)) := by
  obtain ⟨read, dropped, hbody, hread, htotal, hq, hd⟩ := h
  obtain ⟨t, n, p, hr, hp, ht⟩ := scan_reads (F := F) lx
  have hts : Utf8.WellFormed lx.trace.tokenString := (hd.append_iff _).mp (hq ▸ hread)
  have hkeep : read ++ t = (dropped ++ p) ++ (Json.scan (F := F) lx).2.trace.tokenString := by
    rw [hq, List.append_assoc, hr.quoted, List.append_assoc]
  have hdrop : Utf8.WellFormed (dropped ++ p) := hd.append (hp hts)
  have hsplit : body = (read ++ t) ++ (Json.scan (F := F) lx).2.ia := by
    rw [hbody, hr.ia, List.append_assoc]
  have hcount := hr.total
  rw [htotal, ← List.length_append] at hcount
  refine ⟨?_, ht.imp_right fun ⟨hwf, hn⟩ => ?_⟩
  · rw [hcount, take_read hsplit hr.ended, hkeep, hdrop.append_iff]
  · have hall := hread.append hwf
    refine ⟨(hdrop.append_iff _).mp (hkeep ▸ hall), hn.symm.imp_right ?_⟩
    rintro rfl
    exact ⟨read ++ t, dropped ++ p, hsplit, hall, hcount, hkeep, hdrop⟩

/-- The message of a failed parse is ill-formed exactly when the bytes counted up to the error
are: they end in the bytes the message quotes. -/
theorem parse_error_wellFormed_iff {body : Bytes} {e : Exception}
    (h : parse (F := F) body = .error e) :
    Utf8.WellFormed e.what ↔ ∀ n ∈ e.byte, Utf8.WellFormed (body.take n) := by
  obtain ⟨st, lx, hb, ⟨root, -, hr⟩ | ⟨failure, hf, hr⟩⟩ :=
    run_last (F := F) (P := fun _ lx => Between body lx)
      (fun st lx st' hb hn => by
        obtain ⟨-, ⟨m, hm⟩ | ⟨-, he | hb'⟩⟩ := hb.scan (F := F)
        · exact absurd hm ((token_of_parseStep_next hn).2 m)
        · exact absurd he (token_of_parseStep_next hn).1
        · exact hb')
      ⟨[], .value⟩ _ (Between.start body)
  · cases hr.symm.trans h
  · have he : e = _ := Except.error.inj (h.symm.trans hr)
    obtain ⟨htake, htok⟩ := hb.scan (F := F)
    obtain ⟨hascii, hsyntax⟩ := parseStep_fail hf
    rw [he]
    rcases htok with ⟨m, hm⟩ | ⟨hq, -⟩
    · obtain ⟨context, expected, rfl⟩ := hsyntax ⟨m, hm⟩
      rw [Failure.exception, parseError_wellFormed_iff,
        exceptionMessage_wellFormed_iff hascii.1 hascii.2, hm,
        foundText_error_wellFormed_iff (scan_message hm), ← htake]
      simp [parseError, Exception.create]
    · have hwf := htake.mpr hq
      cases failure with
      | syntaxError context expected =>
        rw [Failure.exception, parseError_wellFormed_iff,
          exceptionMessage_wellFormed_iff hascii.1 hascii.2]
        by_cases hm : ∃ m, (scan (F := F) lx).1 = .parseError m
        · obtain ⟨m, hm⟩ := hm
          rw [hm, foundText_error_wellFormed_iff (scan_message hm), ← htake]
          simp [parseError, Exception.create]
        · have hfound := foundText_wellFormed (not_exists.mp hm) (scan (F := F) lx).2.trace
          simpa [hfound, parseError, Exception.create] using hwf
      | emptyInput =>
        rw [Failure.exception, parseError_wellFormed_iff]
        have hmsg : Utf8.WellFormed (ascii
            "attempting to parse an empty input; check that your input string or stream contains the expected JSON") := by
          decide
        simpa [hmsg, parseError, Exception.create] using hwf
      | numberOverflow =>
        have hn := numberOverflow_wellFormed hq (scan (F := F) lx).1
        simp only [hn, true_iff]
        intro n hn'
        cases hn'

end Number
end Ledger.Json

import Ledger.Json.Scan

/-! Every value a parse returns is valid: its strings are well-formed, its numbers finite and
its members in key order. -/
namespace Ledger.Json
open Text
variable {F : Type}

/-- What `get_codepoint` knows of the digits read so far. -/
def StringState.Bounded : StringState → Prop
  | .chars _ => True
  | .escape => True
  | .codepoint digits acc high =>
    1 ≤ digits ∧ digits ≤ 4 ∧ acc < 16 ^ (4 - digits) ∧ ∀ hi ∈ high, 0xD800 ≤ hi ∧ hi ≤ 0xDBFF
  | .surrogateBackslash high => 0xD800 ≤ high ∧ high ≤ 0xDBFF
  | .surrogateU high => 0xD800 ≤ high ∧ high ≤ 0xDBFF

theorem hexValue_lt {c : UInt8} {d : ℕ} (h : hexValue c = some d) : d < 16 := by
  unfold hexValue at h
  split_ifs at h with h1 h2 h3 <;> cases h
  · have := UInt8.le_iff_toNat_le.mp h1.2
    change c.toNat ≤ 57 at this
    omega
  · have := UInt8.le_iff_toNat_le.mp h2.2
    change c.toNat ≤ 70 at this
    omega
  · have := UInt8.le_iff_toNat_le.mp h3.2
    change c.toNat ≤ 102 at this
    omega

theorem isScalar_pair {hi lo : ℕ} (h1 : 0xD800 ≤ hi) (h2 : hi ≤ 0xDBFF) (h3 : 0xDC00 ≤ lo)
    (h4 : lo ≤ 0xDFFF) : Utf8.IsScalar (hi * 1024 + lo - 0x35FDC00) := by
  unfold Utf8.IsScalar
  omega

theorem codepointRead_buffer {cp : ℕ} {high : Option ℕ} {buffer buffer' : Bytes}
    {state' : StringState} (hcp : cp < 0x10000) (hhigh : ∀ hi ∈ high, 0xD800 ≤ hi ∧ hi ≤ 0xDBFF)
    (hbuf : Utf8.WellFormed buffer) (h : codepointRead cp high buffer = .more state' buffer') :
    state'.Bounded ∧ Utf8.WellFormed buffer' := by
  unfold codepointRead at h
  cases high with
  | none =>
    dsimp only at h
    split_ifs at h with h1 h2 <;> cases h
    · exact ⟨h1, hbuf⟩
    · exact ⟨trivial, hbuf.append (Utf8.wellFormed_encode ⟨by omega, by omega⟩)⟩
  | some hi =>
    dsimp only at h
    split_ifs at h with h1
    cases h
    obtain ⟨hlo, hhi⟩ := hhigh hi rfl
    exact ⟨trivial, hbuf.append (Utf8.wellFormed_encode (isScalar_pair hlo hhi h1.1 h1.2))⟩

theorem stringStep_buffer {buffer buffer' : Bytes} {state state' : StringState} {c : UInt8}
    (hs : state.Bounded) (hb : Utf8.run [] buffer = some state.owed)
    (h : stringStep buffer state c = .more state' buffer') :
    state'.Bounded ∧ Utf8.run [] buffer' = some state'.owed := by
  have ho := stringStep_owed h
  rcases state with (_ | ⟨r, owed⟩) | _ | ⟨digits, acc, high⟩ | high | high <;>
    rw [stringStep] at h
  · split_ifs at h with h1 h2 h3
    · cases h; exact ⟨trivial, hb⟩
    · cases hc : Utf8.continuation c with
      | none => simp [hc] at h
      | some owed =>
        rw [hc] at h
        cases h
        exact ⟨trivial, by rw [Utf8.run_append, hb]; simpa [Utf8.run_cons] using ho⟩
  · cases hc : Utf8.step (r :: owed) c with
    | none => simp [hc] at h
    | some owed' =>
      rw [hc] at h
      cases h
      exact ⟨trivial, by rw [Utf8.run_append, hb]; simpa [Utf8.run_cons] using ho⟩
  · split_ifs at h with h1
    · cases h; exact ⟨⟨by omega, le_rfl, by norm_num, by simp⟩, hb⟩
    · cases he : escapeValue c with
      | none => simp [he] at h
      | some e =>
        rw [he] at h
        cases h
        exact ⟨trivial, Utf8.WellFormed.append hb
          (Utf8.wellFormed_ascii (by simpa using (escapeValue_ascii he).2))⟩
  · cases hx : hexValue c with
    | none => simp [hx] at h
    | some x =>
      obtain ⟨h1, h4, hacc, hhigh⟩ := hs
      have hlt := hexValue_lt hx
      simp only [hx] at h
      split_ifs at h with hd
      · have hd1 : digits = 1 := by omega
        subst hd1
        have hcp : acc * 16 + x < 0x10000 := by norm_num at hacc; omega
        obtain ⟨hB, hW⟩ := codepointRead_buffer hcp hhigh hb h
        exact ⟨hB, (codepointRead_owed h).symm ▸ hW⟩
      · cases h
        refine ⟨⟨by omega, by omega, ?_, hhigh⟩, hb⟩
        rw [show 4 - (digits - 1) = (4 - digits) + 1 by omega, pow_succ]
        omega
  · split_ifs at h
    cases h; exact ⟨hs, hb⟩
  · split_ifs at h
    cases h
    exact ⟨⟨by omega, le_rfl, by norm_num, fun hi hhi => by cases hhi; exact hs⟩, hb⟩

theorem scanString_wellFormed {state : StringState} {buffer : Bytes} {d : Trace} {input s : Bytes}
    (hs : state.Bounded) (hb : Utf8.run [] buffer = some state.owed)
    (h : (scanString (F := F) state buffer d input).1 = .valueString s) : Utf8.WellFormed s := by
  induction input generalizing state buffer d with
  | nil => cases h
  | cons c rest ih =>
    rw [scanString] at h
    cases hst : stringStep buffer state c with
    | more state' buffer' =>
      rw [hst] at h
      obtain ⟨hs', hb'⟩ := stringStep_buffer hs hb hst
      exact ih hs' hb' h
    | closed buffer' =>
      rw [hst] at h
      obtain ⟨rfl, -, rfl⟩ := stringStep_closed hst
      cases h
      exact hb
    | error message => rw [hst] at h; cases h

section Number
variable [NumberFloat F]

theorem scanNumber_not_string {state : NumberState} {kind : NumberKind} {buffer : Bytes}
    {d : Trace} {input s : Bytes} :
    (scanNumber (F := F) state kind buffer d input).1 ≠ .valueString s := by
  induction input generalizing state kind buffer d with
  | nil =>
    rw [scanNumber]
    cases numberError state with
    | some message => simp
    | none => rcases numberToken_value (F := F) kind buffer with ⟨i, h⟩ | ⟨x, h⟩ <;> simp [h]
  | cons c rest ih =>
    rw [scanNumber]
    cases numberStep state c with
    | some state' => exact ih
    | none =>
      cases numberError state with
      | some message => simp
      | none => rcases numberToken_value (F := F) kind buffer with ⟨i, h⟩ | ⟨x, h⟩ <;> simp [h]

theorem scanFrom_wellFormed {c : UInt8} {lx : Lexer} {s : Bytes}
    (h : (scanFrom (F := F) c lx).1 = .valueString s) : Utf8.WellFormed s := by
  have hbegins := scanFrom_begins (F := F) c
  generalize scanFrom (F := F) c = scan at hbegins h
  cases hbegins with
  | structural token hst =>
    rcases structuralToken_some hst with ⟨-, rfl⟩ | ⟨-, rfl⟩ | ⟨-, rfl⟩ | ⟨-, rfl⟩ | ⟨-, rfl⟩ |
      ⟨-, rfl⟩ <;> cases h
  | literal token expected hlt =>
    have hl := literalToken_some hlt
    obtain ⟨t, n, -, hr⟩ := scanLiteral_reads token lx.trace expected lx.ia
      fun b hb => UInt8.le_trans (hl.2 b (by simp [hb])).2 (by decide)
    rcases hr with ⟨m, hm⟩ | ⟨-, ht, -⟩
    · rw [hm] at h; cases h
    · rw [ht] at h
      rcases hl.1 with rfl | rfl | rfl <;> cases h
  | number state kind hns => exact absurd h scanNumber_not_string
  | string hquote =>
    exact scanString_wellFormed (show (StringState.chars []).Bounded from trivial) rfl h
  | nul hnul => cases h
  | other => cases h

theorem scan_wellFormed {lx : Lexer} {s : Bytes} (h : (scan (F := F) lx).1 = .valueString s) :
    Utf8.WellFormed s := by
  rcases scan_cases (F := F) lx with hend | hbom | ⟨c, lx', hfrom⟩
  · cases hend.symm.trans h
  · cases hbom.symm.trans h
  · exact scanFrom_wellFormed (hfrom.symm.trans h)

def Frame.Valid : Frame F → Prop
  | .array es => ValidElements es
  | .object ms k => (Sorted ms ∧ ValidMembers ms) ∧ Utf8.WellFormed k

/-- Everything the parser has built so far is valid. -/
def Parser.Valid (st : Parser F) : Prop :=
  (∀ f ∈ st.stack, f.Valid) ∧ ∀ root, st.control = .endOfInput root → root.Valid

/-- A token carries nothing invalid. -/
def Token.Valid (token : Token F) : Prop :=
  ∀ s, token = .valueString s → Utf8.WellFormed s

theorem complete_valid {v : Json F} {stack : List (Frame F)} (hv : v.Valid)
    (hs : ∀ f ∈ stack, f.Valid) : (complete v stack).Valid := by
  rcases stack with _ | ⟨es | ⟨ms, k⟩, stack⟩
  · exact ⟨by simp [complete], fun root h => by cases h; exact hv⟩
  · have hes : ValidElements es := hs (.array es) (by simp)
    refine ⟨fun f hf => ?_, fun root h => by cases h⟩
    rcases List.mem_cons.mp hf with rfl | hf
    · refine validElements_iff.mpr fun w hw => ?_
      rcases List.mem_append.mp hw with hw | hw
      · exact validElements_iff.mp hes w hw
      · exact List.mem_singleton.mp hw ▸ hv
    · exact hs f (by simp [hf])
  · obtain ⟨⟨hsort, hms⟩, hk⟩ : Frame.Valid (.object ms k) := hs _ (by simp)
    refine ⟨fun f hf => ?_, fun root h => by cases h⟩
    rcases List.mem_cons.mp hf with rfl | hf
    · exact ⟨⟨hsort.assign k v, hms.assign hk hv⟩, hk⟩
    · exact hs f (by simp [hf])

theorem valueStep_valid {stack : List (Frame F)} {n : ℕ} {token : Token F} {st' : Parser F}
    (hs : ∀ f ∈ stack, f.Valid) (ht : token.Valid) (h : valueStep stack n token = .next st') :
    st'.Valid := by
  cases token <;> rw [valueStep] at h <;> try cases h
  case literalTrue => exact complete_valid trivial hs
  case literalFalse => exact complete_valid trivial hs
  case literalNull => exact complete_valid trivial hs
  case valueString s => exact complete_valid (ht s rfl) hs
  case valueInteger i => exact complete_valid trivial hs
  case valueFloat x =>
    split_ifs at h with hx
    cases h
    exact complete_valid hx hs
  case beginArray => exact ⟨hs, fun root h => by cases h⟩
  case beginObject => exact ⟨hs, fun root h => by cases h⟩
  case endOfInput => split_ifs at h

theorem parseStep_valid {st st' : Parser F} {n : ℕ} {token : Token F} (hst : st.Valid)
    (ht : token.Valid) (h : parseStep st n token = .next st') : st'.Valid := by
  obtain ⟨stack, control⟩ := st
  obtain ⟨hs, -⟩ := hst
  have tail {f : Frame F} {stack' : List (Frame F)} (hf : f.Valid)
      (hs' : ∀ g ∈ stack', g.Valid) : ∀ g ∈ f :: stack', g.Valid := by
    simpa using ⟨hf, hs'⟩
  cases control with
  | value => exact valueStep_valid hs ht h
  | objectStart =>
    cases token <;> simp [parseStep] at h <;> subst h
    · exact ⟨tail (f := .object [] _) ⟨⟨List.Pairwise.nil, trivial⟩, ht _ rfl⟩ hs,
        fun root h => by cases h⟩
    · exact complete_valid (v := .object []) ⟨List.Pairwise.nil, trivial⟩ hs
  | arrayStart =>
    by_cases he : token = .endArray
    · subst he
      cases h
      exact complete_valid (v := .array []) trivial hs
    · have hv : parseStep ⟨stack, .arrayStart⟩ n token = valueStep (.array [] :: stack) n token := by
        cases token <;> first | rfl | exact absurd rfl he
      exact valueStep_valid (tail (f := .array []) trivial hs) ht (hv ▸ h)
  | separator =>
    cases token <;> simp [parseStep] at h
    subst h
    exact ⟨hs, fun root h => by cases h⟩
  | evaluate =>
    rcases stack with _ | ⟨es | ⟨ms, k⟩, stack⟩ <;> cases token <;> simp [parseStep] at h <;>
      subst h
    · exact complete_valid (v := .array es) (hs (.array es) (by simp)) fun f hf => hs f (by simp [hf])
    · exact ⟨hs, fun root h => by cases h⟩
    · exact complete_valid (v := .object ms) (hs (.object ms k) (by simp)).1
        fun f hf => hs f (by simp [hf])
    · exact ⟨hs, fun root h => by cases h⟩
  | key =>
    rcases stack with _ | ⟨es | ⟨ms, k⟩, stack⟩ <;> cases token <;> simp [parseStep] at h
    subst h
    exact ⟨tail (f := .object ms _) ⟨(hs (.object ms k) (by simp)).1, ht _ rfl⟩
      fun f hf => hs f (by simp [hf]), fun root h => by cases h⟩
  | endOfInput root => cases token <;> simp [parseStep] at h

/-- A document that parses yields a valid value. -/
theorem parse_valid {input : Bytes} {v : Json F} (h : parse input = .ok v) : v.Valid := by
  obtain ⟨st, lx, hst, ⟨root, hd, hr⟩ | ⟨failure, -, hr⟩⟩ :=
    run_last (F := F) (P := fun st _ => st.Valid)
      (fun st lx st' hst hn => parseStep_valid hst (fun s hs => scan_wellFormed hs) hn)
      ⟨[], .value⟩ ⟨input, {}⟩ ⟨by simp, fun root h => by cases h⟩
  · have hv : root = v := Except.ok.inj (hr.symm.trans h)
    subst hv
    obtain ⟨stack, control⟩ := st
    refine hst.2 root ?_
    rw [nextStep] at hd
    revert hd
    generalize (scan (F := F) lx).1 = token
    cases control <;> rcases stack with _ | ⟨_ | _, _⟩ <;> cases token <;>
      simp [parseStep, valueStep] <;> split_ifs <;> simp
  · cases hr.symm.trans h

end Number
end Ledger.Json

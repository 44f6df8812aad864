import Ledger.Json.RoundTrip

/-! Bracket depth. A compact text closes every bracket it opens and nothing before its last
byte; the parser accepts no text that leaves a bracket open. -/
namespace Ledger.Json
open Text
variable {F : Type}

/-- Outside strings, right behind one, inside one, and behind a backslash in one. -/
inductive Mode
  | out | closed | str | esc
  deriving DecidableEq

structure Nest where
  depth : ℤ
  mode : Mode
  deriving DecidableEq

namespace Nest

def step (s : Nest) (c : UInt8) : Nest :=
  match s.mode with
  | .str =>
    if c = 0x22 then ⟨s.depth, .closed⟩ else if c = 0x5C then ⟨s.depth, .esc⟩ else ⟨s.depth, .str⟩
  | .esc => ⟨s.depth, .str⟩
  | .out | .closed =>
    if c = 0x22 then ⟨s.depth, .str⟩
    else if c = 0x5B ∨ c = 0x7B then ⟨s.depth + 1, .out⟩
    else if c = 0x5D ∨ c = 0x7D then ⟨s.depth - 1, .out⟩
    else ⟨s.depth, .out⟩

def run (s : Nest) (t : Bytes) : Nest :=
  t.foldl step s

@[simp] theorem run_nil (s : Nest) : s.run [] = s := rfl

@[simp] theorem run_cons (s : Nest) (c : UInt8) (t : Bytes) :
    s.run (c :: t) = (s.step c).run t := rfl

theorem run_append (s : Nest) (t u : Bytes) : s.run (t ++ u) = (s.run t).run u :=
  List.foldl_append

def Outside (s : Nest) : Prop :=
  s.mode = .out ∨ s.mode = .closed

/-- What may follow a string in compact text. -/
def Closer (c : UInt8) : Prop :=
  c = 0x2C ∨ c = 0x3A ∨ c = 0x5D ∨ c = 0x7D

/-- A byte of compact text at depth `k` or deeper. -/
def Tidy (k : ℤ) (s : Nest) (c : UInt8) : Prop :=
  k ≤ s.depth ∧ (s.mode = .closed → Closer c) ∧ 0x20 ≤ c

/-- Every byte of a text is tidy where it stands. -/
def Along (k : ℤ) (s : Nest) : Bytes → Prop
  | [] => True
  | c :: t => Tidy k s c ∧ Along k (s.step c) t

theorem along_append {k : ℤ} {s : Nest} {t u : Bytes} :
    Along k s (t ++ u) ↔ Along k s t ∧ Along k (s.run t) u := by
  induction t generalizing s with
  | nil => simp [Along]
  | cons c t ih => rw [List.cons_append, Along, ih, Along, run_cons, and_assoc]

/-- What may stand right behind a string; the byte order mark is there for a lexer that reads its
first byte. -/
def Gap (c : UInt8) : Prop :=
  Closer c ∨ isSpace c = true ∨ c = 0xEF

def Calm (s : Nest) : Bytes → Prop
  | [] => True
  | c :: t => (s.mode = .closed → Gap c) ∧ Calm (s.step c) t

theorem calm_append {s : Nest} {t u : Bytes} :
    Calm s (t ++ u) ↔ Calm s t ∧ Calm (s.run t) u := by
  induction t generalizing s with
  | nil => simp [Calm]
  | cons c t ih => rw [List.cons_append, Calm, ih, Calm, run_cons, and_assoc]

def Plain (c : UInt8) : Prop :=
  c ≠ 0x22 ∧ c ≠ 0x5B ∧ c ≠ 0x7B ∧ c ≠ 0x5D ∧ c ≠ 0x7D

theorem step_plain {s : Nest} (hs : s.Outside) {c : UInt8} (hc : Plain c) :
    s.step c = ⟨s.depth, .out⟩ := by
  obtain ⟨h1, h2, h3, h4, h5⟩ := hc
  rcases hs with h | h <;> simp [step, h, h1, h2, h3, h4, h5]

theorem run_plain {s : Nest} (hs : s.Outside) {t : Bytes} (ht : ∀ c ∈ t, Plain c) :
    (s.run t).depth = s.depth ∧ (s.run t).Outside := by
  induction t generalizing s with
  | nil => exact ⟨rfl, hs⟩
  | cons c t ih =>
    rw [run_cons, step_plain hs (ht c (by simp))]
    exact ih (Or.inl rfl) fun b hb => ht b (by simp [hb])

theorem calm_plain {s : Nest} (hs : s.mode = .out) {t : Bytes} (ht : ∀ c ∈ t, Plain c) :
    s.Calm t := by
  induction t generalizing s with
  | nil => trivial
  | cons c t ih =>
    refine ⟨by simp [hs], ?_⟩
    rw [step_plain (Or.inl hs) (ht c (by simp))]
    exact ih rfl fun b hb => ht b (by simp [hb])

theorem run_plain_mode {s : Nest} (hs : s.mode = .out) {t : Bytes} (ht : ∀ c ∈ t, Plain c) :
    (s.run t).mode = .out := by
  induction t generalizing s with
  | nil => exact hs
  | cons c t ih =>
    rw [run_cons, step_plain (Or.inl hs) (ht c (by simp))]
    exact ih rfl fun b hb => ht b (by simp [hb])

theorem step_closer {s : Nest} (hs : s.Outside) {c : UInt8} (hc : c = 0x2C ∨ c = 0x3A) :
    s.step c = ⟨s.depth, .out⟩ :=
  step_plain hs (by rcases hc with rfl | rfl <;> exact ⟨by decide, by decide, by decide, by decide,
    by decide⟩)

theorem step_close {s : Nest} (hs : s.Outside) {c : UInt8} (hc : c = 0x5D ∨ c = 0x7D) :
    s.step c = ⟨s.depth - 1, .out⟩ := by
  rcases hs with h | h <;> rcases hc with rfl | rfl <;> simp [step, h]

end Nest

/-- A piece of compact text: tidy from any depth, and it ends where it started. -/
def Balanced (t : Bytes) : Prop :=
  ∀ (k n : ℤ), k ≤ n → Nest.Along k ⟨n, .out⟩ t ∧
    (Nest.run ⟨n, .out⟩ t).depth = n ∧ (Nest.run ⟨n, .out⟩ t).Outside

theorem balanced_nil : Balanced [] :=
  fun _ _ _ => ⟨trivial, rfl, Or.inl rfl⟩

theorem Balanced.append {t u : Bytes} (ht : Balanced t) (hu : Balanced u) {c : UInt8}
    (hc : c = 0x2C ∨ c = 0x3A) : Balanced (t ++ c :: u) := by
  intro k n hk
  obtain ⟨h1, h2, h3⟩ := ht k n hk
  obtain ⟨h4, h5, h6⟩ := hu k n hk
  have hstep : (Nest.run ⟨n, .out⟩ t).step c = ⟨n, .out⟩ := by rw [Nest.step_closer h3 hc, h2]
  refine ⟨Nest.along_append.mpr ⟨h1, ⟨by rw [h2]; exact hk, fun _ => ?_, ?_⟩, ?_⟩, ?_, ?_⟩
  · rcases hc with rfl | rfl
    · exact Or.inl rfl
    · exact Or.inr (Or.inl rfl)
  · rcases hc with rfl | rfl <;> decide
  · rw [hstep]; exact h4
  · rw [Nest.run_append, Nest.run_cons, hstep]; exact h5
  · rw [Nest.run_append, Nest.run_cons, hstep]; exact h6

theorem along_bracket {t : Bytes} (ht : Balanced t) {c : UInt8} (hc : c = 0x5D ∨ c = 0x7D)
    {k n : ℤ} (hk : k ≤ n + 1) :
    Nest.Along k ⟨n + 1, .out⟩ (t ++ [c]) ∧ Nest.run ⟨n + 1, .out⟩ (t ++ [c]) = ⟨n, .out⟩ := by
  obtain ⟨h1, h2, h3⟩ := ht k (n + 1) hk
  have hstep : (Nest.run ⟨n + 1, .out⟩ t).step c = ⟨n, .out⟩ := by
    rw [Nest.step_close h3 hc, h2, add_sub_cancel_right]
  refine ⟨Nest.along_append.mpr ⟨h1, ⟨by rw [h2]; exact hk, fun _ => ?_, ?_⟩, trivial⟩, ?_⟩
  · exact Or.inr (Or.inr hc)
  · rcases hc with rfl | rfl <;> decide
  · rw [Nest.run_append]; exact hstep

theorem balanced_bracket {t : Bytes} (ht : Balanced t) {b c : UInt8}
    (hb : b = 0x5B ∨ b = 0x7B) (hc : c = 0x5D ∨ c = 0x7D) : Balanced (b :: (t ++ [c])) := by
  intro k n hk
  have hstep : Nest.step ⟨n, .out⟩ b = ⟨n + 1, .out⟩ := by
    rcases hb with rfl | rfl <;> simp [Nest.step]
  obtain ⟨h1, h2⟩ := along_bracket ht hc (k := k) (n := n) (by omega)
  refine ⟨⟨⟨hk, by simp, ?_⟩, by rw [hstep]; exact h1⟩, ?_, ?_⟩
  · rcases hb with rfl | rfl <;> decide
  · rw [Nest.run_cons, hstep, h2]
  · rw [Nest.run_cons, hstep, h2]; exact Or.inl rfl

theorem balanced_plain {t : Bytes} (ht : ∀ c ∈ t, Nest.Plain c ∧ 0x20 ≤ c) : Balanced t := by
  intro k n hk
  refine ⟨?_, Nest.run_plain (Or.inl rfl) fun c hc => (ht c hc).1⟩
  induction t with
  | nil => trivial
  | cons c t ih =>
    refine ⟨⟨hk, by simp, (ht c (by simp)).2⟩, ?_⟩
    rw [Nest.step_plain (Or.inl rfl) (ht c (by simp)).1]
    exact ih fun b hb => ht b (by simp [hb])

theorem escapeByte_nest (b : UInt8) {k n : ℤ} (hk : k ≤ n) :
    Nest.Along k ⟨n, .str⟩ (escapeByte b) ∧ Nest.run ⟨n, .str⟩ (escapeByte b) = ⟨n, .str⟩ := by
  have quiet {t : Bytes} (ht : ∀ c ∈ t, c ≠ 0x22 ∧ c ≠ 0x5C ∧ 0x20 ≤ c) :
      Nest.Along k ⟨n, .str⟩ t ∧ Nest.run ⟨n, .str⟩ t = ⟨n, .str⟩ := by
    induction t with
    | nil => exact ⟨trivial, rfl⟩
    | cons c t ih =>
      obtain ⟨h1, h2, h3⟩ := ht c (by simp)
      have hstep : Nest.step ⟨n, .str⟩ c = ⟨n, .str⟩ := by simp [Nest.step, h1, h2]
      obtain ⟨h4, h5⟩ := ih fun b hb => ht b (by simp [hb])
      exact ⟨⟨⟨hk, by simp, h3⟩, by rw [hstep]; exact h4⟩, by rw [Nest.run_cons, hstep, h5]⟩
  have pair {c : UInt8} {t : Bytes} (hc : 0x20 ≤ c)
      (ht : ∀ c ∈ t, c ≠ 0x22 ∧ c ≠ 0x5C ∧ 0x20 ≤ c) :
      Nest.Along k ⟨n, .str⟩ (0x5C :: c :: t) ∧
        Nest.run ⟨n, .str⟩ (0x5C :: c :: t) = ⟨n, .str⟩ :=
    ⟨⟨⟨hk, by simp, by decide⟩, ⟨hk, by simp [Nest.step], hc⟩, (quiet ht).1⟩, (quiet ht).2⟩
  have hexd {d : ℕ} (hd : d < 16) :
      hexDigit d ≠ 0x22 ∧ hexDigit d ≠ 0x5C ∧ 0x20 ≤ hexDigit d := by
    interval_cases d <;> decide
  unfold escapeByte
  split_ifs with h1 h2 h3 h4 h5 h6 h7 h8
  · exact pair (c := 0x62) (t := []) (by decide) (by simp)
  · exact pair (c := 0x74) (t := []) (by decide) (by simp)
  · exact pair (c := 0x6E) (t := []) (by decide) (by simp)
  · exact pair (c := 0x66) (t := []) (by decide) (by simp)
  · exact pair (c := 0x72) (t := []) (by decide) (by simp)
  · exact pair (c := 0x22) (t := []) (by decide) (by simp)
  · exact pair (c := 0x5C) (t := []) (by decide) (by simp)
  · have hb := b.toNat_lt
    refine pair (c := 0x75) (t := [0x30, 0x30] ++ hexByte b) (by decide) fun c hc => ?_
    simp only [hexByte, List.cons_append, List.nil_append, List.mem_cons, List.not_mem_nil,
      or_false] at hc
    rcases hc with rfl | rfl | rfl | rfl
    · decide
    · decide
    · exact hexd (by omega)
    · exact hexd (by omega)
  · refine quiet fun c hc => ?_
    rw [List.mem_singleton.mp hc]
    exact ⟨h6, h7, by grind⟩

theorem escape_nest (s : Bytes) {k n : ℤ} (hk : k ≤ n) :
    Nest.Along k ⟨n, .str⟩ (escape s) ∧ Nest.run ⟨n, .str⟩ (escape s) = ⟨n, .str⟩ := by
  induction s with
  | nil => exact ⟨trivial, rfl⟩
  | cons b s ih =>
    obtain ⟨h1, h2⟩ := escapeByte_nest b hk
    rw [escape, List.flatMap_cons, Nest.along_append, Nest.run_append, h2]
    exact ⟨⟨h1, ih.1⟩, ih.2⟩

theorem balanced_string (s : Bytes) : Balanced (0x22 :: (escape s ++ [0x22])) := by
  intro k n hk
  obtain ⟨h1, h2⟩ := escape_nest s hk
  have hopen : Nest.step ⟨n, .out⟩ 0x22 = ⟨n, .str⟩ := rfl
  have hclose : Nest.step ⟨n, .str⟩ 0x22 = ⟨n, .closed⟩ := rfl
  refine ⟨⟨⟨hk, by simp, by decide⟩, ?_⟩, ?_, ?_⟩
  · rw [hopen, Nest.along_append, h2]
    exact ⟨h1, ⟨hk, by simp, by decide⟩, trivial⟩
  · rw [Nest.run_cons, hopen, Nest.run_append, h2, Nest.run_cons, hclose, Nest.run_nil]
  · rw [Nest.run_cons, hopen, Nest.run_append, h2, Nest.run_cons, hclose, Nest.run_nil]
    exact Or.inr rfl

theorem isDigit_plain {c : UInt8} (h : isDigit c = true) : Nest.Plain c ∧ 0x20 ≤ c := by
  simp only [isDigit, Bool.and_eq_true, decide_eq_true_eq] at h
  refine ⟨⟨?_, ?_, ?_, ?_, ?_⟩, ?_⟩ <;> grind

theorem numberStep_plain {state state' : NumberState} {c : UInt8}
    (h : numberStep state c = some state') : Nest.Plain c ∧ 0x20 ≤ c := by
  by_cases hd : isDigit c = true
  · exact isDigit_plain hd
  · have hc : c = 0x2E ∨ c = 0x65 ∨ c = 0x45 ∨ c = 0x2B ∨ c = 0x2D ∨ c = 0x30 := by
      cases state <;> simp only [numberStep, hd] at h <;> split_ifs at h <;> simp_all
      all_goals tauto
    rcases hc with rfl | rfl | rfl | rfl | rfl | rfl <;>
      exact ⟨⟨by decide, by decide, by decide, by decide, by decide⟩, by decide⟩

theorem numberStart_plain {c : UInt8} {state : NumberState} {kind : NumberKind}
    (h : numberStart c = some (state, kind)) : Nest.Plain c ∧ 0x20 ≤ c := by
  unfold numberStart at h
  split_ifs at h with h1 h2 h3
  · subst h1; exact ⟨⟨by decide, by decide, by decide, by decide, by decide⟩, by decide⟩
  · subst h2; exact ⟨⟨by decide, by decide, by decide, by decide, by decide⟩, by decide⟩
  · exact isDigit_plain h3

theorem floatText_plain {t : Bytes} (h : FloatText t) : ∀ c ∈ t, Nest.Plain c ∧ 0x20 ≤ c := by
  obtain ⟨c, u, start, kind, stop, rfl, hs, hrun, -⟩ := h
  have tail {u : Bytes} {state : NumberState} {kind : NumberKind}
      (h : ∃ r, numberRun state kind u = some r) : ∀ c ∈ u, Nest.Plain c ∧ 0x20 ≤ c := by
    induction u generalizing state kind with
    | nil => simp
    | cons b u ih =>
      obtain ⟨r, hr⟩ := h
      rw [numberRun] at hr
      cases hb : numberStep state b with
      | none => simp [hb] at hr
      | some state' =>
        rw [hb, Option.bind_some] at hr
        rintro c (_ | ⟨_, hc⟩)
        · exact numberStep_plain hb
        · exact ih ⟨r, hr⟩ c hc
  rintro b (_ | ⟨_, hb⟩)
  · exact numberStart_plain hs
  · exact tail ⟨_, hrun⟩ b hb

theorem dumpInteger_plain (i : JsonInt) : ∀ c ∈ dumpInteger i, Nest.Plain c ∧ 0x20 ≤ c := by
  intro c hc
  unfold dumpInteger at hc
  split_ifs at hc
  · rcases List.mem_cons.mp hc with rfl | hc
    · exact ⟨⟨by decide, by decide, by decide, by decide, by decide⟩, by decide⟩
    · exact isDigit_plain (isDigit_of_mem_decimal hc)
  · exact isDigit_plain (isDigit_of_mem_decimal hc)

theorem literal_plain {t : Bytes} (ht : ∀ b ∈ t, 0x61 ≤ b ∧ b ≤ 0x7A) {c : UInt8} (hc : c ∈ t) :
    Nest.Plain c ∧ 0x20 ≤ c := by
  obtain ⟨h1, h2⟩ := ht c hc
  refine ⟨⟨?_, ?_, ?_, ?_, ?_⟩, ?_⟩ <;> grind

section Values
variable [NumberFloat F]

mutual
theorem balanced_text [LawfulNumberFloat F] : ∀ {v : Json F}, Valid v → Balanced (text v)
  | .null, _ =>
    balanced_plain fun c hc => literal_plain (literalToken_some (F := F) (c := 0x6E) rfl).2 hc
  | .boolean true, _ =>
    balanced_plain fun c hc => literal_plain (literalToken_some (F := F) (c := 0x74) rfl).2 hc
  | .boolean false, _ =>
    balanced_plain fun c hc => literal_plain (literalToken_some (F := F) (c := 0x66) rfl).2 hc
  | .number i, _ => balanced_plain (dumpInteger_plain i)
  | .float x, hv => by
    rw [Valid] at hv
    rw [text, dumpFloat, if_pos hv]
    exact balanced_plain (floatText_plain (LawfulNumberFloat.floatText_toChars x hv))
  | .string s, _ => balanced_string s
  | .array es, hv => by
    rw [Valid] at hv
    exact balanced_bracket (balanced_elements hv) (Or.inl rfl) (Or.inl rfl)
  | .object ms, hv => by
    rw [Valid] at hv
    exact balanced_bracket (balanced_members hv.2) (Or.inr rfl) (Or.inr rfl)

theorem balanced_elements [LawfulNumberFloat F] :
    ∀ {es : List (Json F)}, ValidElements es → Balanced (textElements es)
  | [], _ => balanced_nil
  | [v], hv => by
    rw [ValidElements] at hv
    exact balanced_text hv.1
  | v :: w :: es, hv => by
    rw [ValidElements] at hv
    have h := (balanced_text hv.1).append (balanced_elements hv.2) (c := 0x2C) (Or.inl rfl)
    have htext : textElements (v :: w :: es) = text v ++ 0x2C :: textElements (w :: es) := by
      rw [textElements]
      simp [ascii]
    rw [htext]
    exact h

theorem balanced_members [LawfulNumberFloat F] :
    ∀ {ms : Members F}, ValidMembers ms → Balanced (textMembers ms)
  | [], _ => balanced_nil
  | [(k, v)], hv => by
    rw [ValidMembers] at hv
    have h := (balanced_string k).append (balanced_text hv.1.2) (c := 0x3A) (Or.inr rfl)
    have htext : textMembers [(k, v)] = 0x22 :: (escape k ++ [0x22]) ++ 0x3A :: text v := by
      rw [textMembers]
      simp [ascii]
    rw [htext]
    exact h
  | (k, v) :: m :: ms, hv => by
    rw [ValidMembers] at hv
    have h := ((balanced_string k).append (balanced_text hv.1.2) (c := 0x3A) (Or.inr rfl)).append
      (balanced_members hv.2) (c := 0x2C) (Or.inl rfl)
    have htext : textMembers ((k, v) :: m :: ms) =
        (0x22 :: (escape k ++ [0x22]) ++ 0x3A :: text v) ++ 0x2C :: textMembers (m :: ms) := by
      rw [textMembers]
      simp [ascii]
    rw [htext]
    exact h
end

variable [LawfulNumberFloat F]

theorem text_printable {v : Json F} (hv : Valid v) : ∀ c ∈ text v, 0x20 ≤ c := by
  have along {s : Nest} {t : Bytes} (h : Nest.Along 0 s t) : ∀ c ∈ t, 0x20 ≤ c := by
    induction t generalizing s with
    | nil => simp
    | cons c t ih => exact List.forall_mem_cons.mpr ⟨h.1.2.2, ih h.2⟩
  exact along (balanced_text hv 0 0 le_rfl).1

theorem newline_not_mem_text {v : Json F} (hv : Valid v) : 0x0A ∉ text v :=
  fun h => absurd (text_printable hv _ h) (by decide)

theorem object_text_along {ms : Members F} (hv : Valid (.object ms)) :
    ∃ body, text (.object ms) = 0x7B :: body ∧ Nest.Along 1 ⟨1, .out⟩ body ∧
      Nest.run ⟨1, .out⟩ body = ⟨0, .out⟩ := by
  rw [Valid] at hv
  obtain ⟨h1, h2⟩ := along_bracket (balanced_members hv.2) (c := 0x7D) (Or.inr rfl)
    (k := 1) (n := 0) (by omega)
  exact ⟨textMembers ms ++ [0x7D], by rw [text]; rfl, h1, h2⟩

/-- No proper part at the end of a compact object reads as a compact object with a plain key. -/
theorem object_text_suffix {ms ms' : Members F} (hv : Valid (.object ms))
    (hv' : Valid (.object ms')) {u t : Bytes} {c : UInt8} (hc : ¬ Nest.Closer c)
    (ht : text (.object ms') = 0x7B :: 0x22 :: c :: t)
    (h : text (.object ms) = u ++ text (.object ms')) : u = [] := by
  obtain ⟨body, hbody, halong, hrun⟩ := object_text_along hv
  rcases u with _ | ⟨b, u⟩
  · rfl
  exfalso
  rw [hbody, List.cons_append] at h
  obtain ⟨-, rfl⟩ := List.cons.inj h
  rw [Nest.along_append] at halong
  rw [Nest.run_append] at hrun
  generalize Nest.run ⟨1, .out⟩ u = s at halong hrun
  obtain ⟨n, mode⟩ := s
  obtain ⟨-, hrest⟩ := halong
  have hdepth : 1 ≤ n := by rw [ht] at hrest; exact hrest.1.1
  have hstr (hm : mode = .str ∨ mode = .esc) : False := by
    -- the object's brace continues the open string, so its key would stand behind the string
    rw [ht] at hrest
    rcases hm with rfl | rfl <;> exact hc (hrest.2.2.1.2.1 rfl)
  cases mode with
  | out =>
    have hend := (balanced_text hv' n n le_rfl).2.1
    rw [hrun] at hend
    simp only at hend
    omega
  | closed =>
    rw [ht] at hrest
    rcases hrest.1.2.1 rfl with h | h | h | h <;> exact absurd h (by decide)
  | str => exact hstr (Or.inl rfl)
  | esc => exact hstr (Or.inr rfl)

end Values
end Ledger.Json

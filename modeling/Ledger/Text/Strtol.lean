import Ledger.Text.Bytes
import Mathlib.Data.List.TakeWhile

/-! The number at the front of a text, as `strtol` reads it in base ten. -/
namespace Ledger.Text

/-- `isspace` in the C locale. -/
def isBlank (c : UInt8) : Bool :=
  c = 0x20 || 0x09 ≤ c && c ≤ 0x0D

/-- Whether the text is of a negative number, and what stands behind the sign. -/
def takeSign : Bytes → Bool × Bytes
  | [] => (false, [])
  | c :: t => if c = 0x2B then (false, t) else if c = 0x2D then (true, t) else (false, c :: t)

/-- The value, which may be too large for a `long`, and what stands behind it; `none` if there is
no conversion. -/
def strtol (t : Bytes) : Option (ℤ × Bytes) :=
  let signed := takeSign (t.dropWhile isBlank)
  let digits := signed.2.takeWhile isDigit
  if digits = [] then none
  else some (if signed.1 then -(ofDecimal digits : ℤ) else ofDecimal digits,
    signed.2.dropWhile isDigit)

inductive StoiError
  | invalidArgument
  | outOfRange
  deriving DecidableEq

/-- `std::stoi`: what does not fit a `long` does not fit an `int`. -/
def stoi (t : Bytes) : Except StoiError ℤ :=
  match strtol t with
  | none => .error .invalidArgument
  | some (n, _) => if -2 ^ 31 ≤ n ∧ n < 2 ^ 31 then .ok n else .error .outOfRange

/-- A sign or none, and its factor. -/
inductive IsSign : Bytes → ℤ → Prop
  | none : IsSign [] 1
  | plus : IsSign [0x2B] 1
  | minus : IsSign [0x2D] (-1)

/-- Blanks, a sign or none, and all digits that follow. -/
structure NumberAtFront (t : Bytes) (n : ℤ) (rest : Bytes) : Prop where
  split : ∃ blanks sign digits factor, t = blanks ++ (sign ++ (digits ++ rest)) ∧
    (∀ c ∈ blanks, isBlank c = true) ∧ IsSign sign factor ∧ digits ≠ [] ∧
    (∀ c ∈ digits, isDigit c = true) ∧ n = factor * ofDecimal digits
  stop : ∀ c ∈ rest.head?, isDigit c = false

theorem ne_sign_of_isDigit {c : UInt8} (h : isDigit c = true) : c ≠ 0x2B ∧ c ≠ 0x2D := by
  constructor
  · rintro rfl
    exact absurd h (by decide)
  · rintro rfl
    exact absurd h (by decide)

theorem not_isBlank_of_isDigit {c : UInt8} (h : isDigit c = true) : isBlank c = false := by
  simp only [isDigit, Bool.and_eq_true, decide_eq_true_eq, UInt8.le_iff_toNat_le] at h
  have hne : c ≠ 0x20 := by
    rintro rfl
    exact absurd h.1 (by decide)
  have hlt : ¬c ≤ 0x0D := by
    rw [UInt8.le_iff_toNat_le]
    change ¬c.toNat ≤ 13
    have hge : 48 ≤ c.toNat := h.1
    omega
  simp [isBlank, hne, hlt]

theorem takeSign_digits {c : UInt8} (h : isDigit c = true) (t : Bytes) :
    takeSign (c :: t) = (false, c :: t) := by
  obtain ⟨hplus, hminus⟩ := ne_sign_of_isDigit h
  rw [takeSign, if_neg hplus, if_neg hminus]

theorem exists_isSign (t : Bytes) : ∃ sign factor, IsSign sign factor ∧
    t = sign ++ (takeSign t).2 ∧ (takeSign t).1 = decide (factor = -1) := by
  cases t with
  | nil => exact ⟨[], 1, .none, rfl, rfl⟩
  | cons c t =>
    rw [takeSign]
    split_ifs with hplus hminus
    · exact ⟨[0x2B], 1, .plus, by rw [hplus]; rfl, rfl⟩
    · exact ⟨[0x2D], -1, .minus, by rw [hminus]; rfl, rfl⟩
    · exact ⟨[], 1, .none, rfl, rfl⟩

theorem head_dropWhile {p : UInt8 → Bool} (t : Bytes) :
    ∀ c ∈ (t.dropWhile p).head?, p c = false := by
  intro c hc
  have hnot := List.head?_dropWhile_not p t
  rw [Option.mem_def.mp hc] at hnot
  exact hnot

theorem IsSign.factor_cases {sign : Bytes} {factor : ℤ} (h : IsSign sign factor) :
    factor = 1 ∨ factor = -1 := by
  cases h
  · exact Or.inl rfl
  · exact Or.inl rfl
  · exact Or.inr rfl

theorem IsSign.takeSign_eq {sign : Bytes} {factor : ℤ} (h : IsSign sign factor) {c : UInt8}
    (hc : isDigit c = true) (t : Bytes) :
    takeSign (sign ++ c :: t) = (decide (factor = -1), c :: t) := by
  cases h with
  | none => exact takeSign_digits hc t
  | plus => rfl
  | minus => rfl

theorem IsSign.dropWhile_isBlank {sign : Bytes} {factor : ℤ} (h : IsSign sign factor) {c : UInt8}
    (hc : isDigit c = true) (t : Bytes) :
    (sign ++ c :: t).dropWhile isBlank = sign ++ c :: t := by
  cases h with
  | none => exact List.dropWhile_cons_of_neg (by simp [not_isBlank_of_isDigit hc])
  | plus => rfl
  | minus => rfl

/-- `strtol` reads the grammar, and nothing but the grammar. -/
theorem strtol_eq_some_iff {t : Bytes} {n : ℤ} {rest : Bytes} :
    strtol t = some (n, rest) ↔ NumberAtFront t n rest := by
  constructor
  · intro h
    obtain ⟨sign, factor, hsign, hsplit, hfactor⟩ := exists_isSign (t.dropWhile isBlank)
    unfold strtol at h
    dsimp only at h
    generalize takeSign (t.dropWhile isBlank) = signed at h hsplit hfactor
    by_cases hempty : signed.2.takeWhile isDigit = []
    · rw [if_pos hempty] at h
      cases h
    rw [if_neg hempty] at h
    obtain ⟨hn, hrest⟩ := Prod.mk.inj (Option.some.inj h)
    refine ⟨⟨t.takeWhile isBlank, sign, signed.2.takeWhile isDigit, factor, ?_, ?_, hsign, hempty,
      ?_, ?_⟩, ?_⟩
    · rw [← hrest, List.takeWhile_append_dropWhile, ← hsplit, List.takeWhile_append_dropWhile]
    · exact fun c hc => List.mem_takeWhile_imp hc
    · exact fun c hc => List.mem_takeWhile_imp hc
    · rw [← hn, hfactor]
      rcases hsign.factor_cases with rfl | rfl
      · simp
      · simp
    · rw [← hrest]
      exact head_dropWhile _
  · rintro ⟨⟨blanks, sign, digits, factor, rfl, hblanks, hsign, hne, hdigits, rfl⟩, hstop⟩
    obtain ⟨c, digits', rfl⟩ := List.exists_cons_of_ne_nil hne
    have hc : isDigit c = true := hdigits c List.mem_cons_self
    have hbehind : rest.takeWhile isDigit = [] ∧ rest.dropWhile isDigit = rest := by
      cases rest with
      | nil => exact ⟨rfl, rfl⟩
      | cons d rest =>
        have hd : isDigit d = false := hstop d rfl
        exact ⟨List.takeWhile_cons_of_neg (by simp [hd]), List.dropWhile_cons_of_neg (by simp [hd])⟩
    unfold strtol
    rw [List.dropWhile_append_of_pos hblanks, List.cons_append, hsign.dropWhile_isBlank hc,
      hsign.takeSign_eq hc, ← List.cons_append]
    dsimp only
    rw [List.takeWhile_append_of_pos hdigits, List.dropWhile_append_of_pos hdigits, hbehind.1,
      hbehind.2, List.append_nil, if_neg (List.cons_ne_nil _ _)]
    rcases hsign.factor_cases with rfl | rfl
    · simp
    · simp

theorem stoi_eq_ok_iff {t : Bytes} {n : ℤ} :
    stoi t = .ok n ↔ (∃ rest, NumberAtFront t n rest) ∧ -2 ^ 31 ≤ n ∧ n < 2 ^ 31 := by
  simp only [← strtol_eq_some_iff]
  unfold stoi
  cases h : strtol t with
  | none => simp
  | some r =>
    obtain ⟨m, rest⟩ := r
    dsimp only
    split_ifs with hm
    · constructor
      · intro hok
        obtain rfl := Except.ok.inj hok
        exact ⟨⟨rest, rfl⟩, hm⟩
      · rintro ⟨⟨rest', hrest⟩, -⟩
        obtain ⟨rfl, -⟩ := Prod.mk.inj (Option.some.inj hrest)
        rfl
    · constructor
      · intro hok
        cases hok
      · rintro ⟨⟨rest', hrest⟩, hn⟩
        obtain ⟨rfl, -⟩ := Prod.mk.inj (Option.some.inj hrest)
        exact absurd hn hm

example : stoi (ascii " +8080x") = .ok 8080 := by decide

theorem numberAtFront_digits {digits : Bytes} (hne : digits ≠ [])
    (hdigits : ∀ c ∈ digits, isDigit c = true) :
    NumberAtFront digits (ofDecimal digits) [] where
  split := ⟨[], [], digits, 1, by simp, by simp, .none, hne, hdigits, (one_mul _).symm⟩
  stop := by simp

end Ledger.Text

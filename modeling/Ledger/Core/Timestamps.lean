import Ledger.Core.Block
import Ledger.System.Calendar

/-! The timestamps of the storage core, and what another service writes for the same second: their
order as texts is the order in time. -/
namespace Ledger
open Text Json

/-- Numerals of one length whose order as texts is that of their values. -/
structure FixedWidth (valid : ℕ → Prop) (encode : ℕ → Bytes) : Prop where
  length_eq : ∀ n m, valid n → valid m → (encode n).length = (encode m).length
  lt_iff : ∀ n m, valid n → valid m → (keyOrder (encode n) < keyOrder (encode m) ↔ n < m)

theorem append_lt_append_iff {α : Type*} [LinearOrder α] {xs ys : List α}
    (h : xs.length = ys.length) (us vs : List α) :
    xs ++ us < ys ++ vs ↔ xs < ys ∨ xs = ys ∧ us < vs := by
  induction xs generalizing ys with
  | nil =>
    rw [List.eq_nil_of_length_eq_zero h.symm]
    simp
  | cons x xs ih =>
    obtain ⟨y, ys, rfl⟩ := List.exists_cons_of_length_eq_add_one h.symm
    rw [List.cons_append, List.cons_append, List.cons_lt_cons_iff, List.cons_lt_cons_iff,
      ih (Nat.succ.inj h), List.cons.injEq]
    tauto

theorem keyOrder_append (s t : Bytes) : keyOrder (s ++ t) = keyOrder s ++ keyOrder t :=
  List.map_append

theorem length_keyOrder (s : Bytes) : (keyOrder s).length = s.length :=
  List.length_map _

theorem keyOrder_append_lt_iff (s t u : Bytes) :
    keyOrder (s ++ t) < keyOrder (s ++ u) ↔ keyOrder t < keyOrder u := by
  rw [keyOrder_append, keyOrder_append, append_lt_append_iff rfl]
  simp

section FixedWidth
variable {valid : ℕ → Prop} {encode : ℕ → Bytes}

theorem FixedWidth.injOn (h : FixedWidth valid encode) {n m : ℕ} (hn : valid n) (hm : valid m)
    (heq : encode n = encode m) : n = m := by
  rcases lt_trichotomy n m with hlt | rfl | hlt
  · have hlt' := (h.lt_iff n m hn hm).mpr hlt
    rw [heq] at hlt'
    exact absurd hlt' (lt_irrefl _)
  · rfl
  · have hlt' := (h.lt_iff m n hm hn).mpr hlt
    rw [heq] at hlt'
    exact absurd hlt' (lt_irrefl _)

theorem FixedWidth.append_lt_iff (h : FixedWidth valid encode) {n m : ℕ} (hn : valid n)
    (hm : valid m) (sep s t : Bytes) :
    keyOrder (encode n ++ (sep ++ s)) < keyOrder (encode m ++ (sep ++ t)) ↔
      n < m ∨ n = m ∧ keyOrder s < keyOrder t := by
  have hlength : (keyOrder (encode n)).length = (keyOrder (encode m)).length := by
    rw [length_keyOrder, length_keyOrder]
    exact h.length_eq n m hn hm
  have heq : keyOrder (encode n) = keyOrder (encode m) ↔ n = m := by
    constructor
    · exact fun heq => h.injOn hn hm (keyOrder_injective heq)
    · rintro rfl
      rfl
  rw [keyOrder_append (encode n), keyOrder_append (encode m), append_lt_append_iff hlength,
    h.lt_iff n m hn hm, heq, keyOrder_append_lt_iff]

end FixedWidth

theorem decimal_digit {n : ℕ} (h : n < 10) : decimal n = [digitByte n] := by
  unfold decimal
  split_ifs with hn
  · rw [hn]
    rfl
  · rw [Nat.digits_of_lt 10 n hn h]
    rfl

theorem decimal_step {n : ℕ} (h : 10 ≤ n) :
    decimal n = decimal (n / 10) ++ [digitByte (n % 10)] := by
  have hn : n ≠ 0 := by omega
  have hdiv : n / 10 ≠ 0 := by omega
  unfold decimal
  rw [if_neg hn, if_neg hdiv, Nat.digits_def' (by norm_num) (Nat.pos_of_ne_zero hn), List.map_cons,
    List.reverse_cons]

theorem keyOrder_digit {d : ℕ} (h : d < 10) (t : Bytes) :
    keyOrder (digitByte d :: t) = (d + 48) :: keyOrder t := by
  have hd := digitByte_toNat h
  unfold keyOrder
  rw [List.map_cons, hd]

theorem keyOrder_twoDigits {n : ℕ} (h : n < 100) :
    keyOrder (twoDigits n) = [n / 10 + 48, n % 10 + 48] := by
  have htext : twoDigits n = [digitByte (n / 10), digitByte (n % 10)] := by
    unfold twoDigits
    split_ifs with hn
    · rw [decimal_digit hn, Nat.div_eq_of_lt hn, Nat.mod_eq_of_lt hn]
      rfl
    · rw [decimal_step (by omega), decimal_digit (by omega)]
      rfl
  rw [htext, keyOrder_digit (by omega), keyOrder_digit (by omega)]
  rfl

theorem keyOrder_fourDigits {n : ℕ} (h : 1000 ≤ n ∧ n < 10000) : keyOrder (decimal n) =
    [n / 10 / 10 / 10 + 48, n / 10 / 10 % 10 + 48, n / 10 % 10 + 48, n % 10 + 48] := by
  have htext : decimal n = [digitByte (n / 10 / 10 / 10), digitByte (n / 10 / 10 % 10),
      digitByte (n / 10 % 10), digitByte (n % 10)] := by
    rw [decimal_step (by omega), decimal_step (by omega), decimal_step (by omega),
      decimal_digit (by omega)]
    rfl
  rw [htext, keyOrder_digit (by omega), keyOrder_digit (by omega), keyOrder_digit (by omega),
    keyOrder_digit (by omega)]
  rfl

theorem fixedWidth_twoDigits : FixedWidth (· < 100) twoDigits where
  length_eq n m hn hm := by
    rw [← length_keyOrder, ← length_keyOrder, keyOrder_twoDigits hn, keyOrder_twoDigits hm]
    rfl
  lt_iff n m hn hm := by
    rw [keyOrder_twoDigits hn, keyOrder_twoDigits hm]
    simp only [List.cons_lt_cons_iff, List.not_lt_nil, and_false, or_false]
    omega

theorem fixedWidth_decimal : FixedWidth (fun n => 1000 ≤ n ∧ n < 10000) decimal where
  length_eq n m hn hm := by
    rw [← length_keyOrder, ← length_keyOrder, keyOrder_fourDigits hn, keyOrder_fourDigits hm]
    rfl
  lt_iff n m hn hm := by
    rw [keyOrder_fourDigits hn, keyOrder_fourDigits hm]
    simp only [List.cons_lt_cons_iff, List.not_lt_nil, and_false, or_false]
    omega

namespace Tm

/-- A second of the years that have four digits. -/
structure Valid (tm : Tm) : Prop where
  year : 1000 ≤ tm.year ∧ tm.year < 10000
  date : IsDate tm.year tm.month tm.day
  hour : tm.hour < 24
  minute : tm.minute < 60
  second : tm.second < 60

def seconds (tm : Tm) : ℕ :=
  (((ordinal tm.year tm.month tm.day - 1) * 24 + tm.hour) * 60 + tm.minute) * 60 + tm.second

/-- Microseconds, as Python counts them. -/
def micros (tm : Tm) : ℤ :=
  tm.seconds * 1000000

/-- Milliseconds from the first of January of 1970, as a browser counts them. -/
def epochMillis (tm : Tm) : ℤ :=
  (tm.seconds - 62135596800) * 1000

example : (⟨1970, 1, 1, 0, 0, 0⟩ : Tm).epochMillis = 0 := by decide

def fields (tm : Tm) : List ℕ :=
  [tm.year, tm.month, tm.day, tm.hour, tm.minute, tm.second]

variable {tm tm' : Tm}

theorem Valid.ordinal_pos (h : tm.Valid) : 1 ≤ ordinal tm.year tm.month tm.day := by
  have := h.date.day.1
  unfold ordinal
  omega

theorem Valid.seconds_lt_end (h : tm.Valid) : tm.seconds < 315537897600 := by
  have hyear : daysBeforeYear (tm.year + 1) ≤ daysBeforeYear 10000 :=
    daysBeforeYear_mono (by omega) (by have := h.year.2; omega)
  have hend : daysBeforeYear 10000 = 3652059 := rfl
  have hday := h.date.ordinal_le_year
  have hhour := h.hour
  have hminute := h.minute
  have hsecond := h.second
  have hpos := h.ordinal_pos
  unfold seconds
  omega

theorem seconds_lt (h : tm.Valid) (h' : tm'.Valid) (hlt : tm.fields < tm'.fields) :
    tm.seconds < tm'.seconds := by
  have hpos := h.ordinal_pos
  have hpos' := h'.ordinal_pos
  have hhour := h.hour
  have hminute := h.minute
  have hsecond := h.second
  have hday : [tm.year, tm.month, tm.day] < [tm'.year, tm'.month, tm'.day] →
      ordinal tm.year tm.month tm.day < ordinal tm'.year tm'.month tm'.day :=
    ordinal_lt h.date h'.date
  unfold fields at hlt
  unfold seconds
  simp only [List.cons_lt_cons_iff, List.not_lt_nil, and_false, or_false] at hlt hday
  rcases hlt with hy | ⟨hy, hm | ⟨hm, hd | ⟨hd, hrest⟩⟩⟩
  · have := hday (Or.inl hy)
    omega
  · have := hday (Or.inr ⟨hy, Or.inl hm⟩)
    omega
  · have := hday (Or.inr ⟨hy, Or.inr ⟨hm, hd⟩⟩)
    omega
  · rw [hy, hm, hd]
    omega

theorem seconds_lt_iff (h : tm.Valid) (h' : tm'.Valid) :
    tm.fields < tm'.fields ↔ tm.seconds < tm'.seconds := by
  constructor
  · exact seconds_lt h h'
  · intro hlt
    rcases lt_trichotomy tm.fields tm'.fields with hfields | hfields | hfields
    · exact hfields
    · simp only [fields, List.cons.injEq, and_true] at hfields
      obtain ⟨hy, hm, hd, hh, hmi, hs⟩ := hfields
      unfold seconds at hlt
      rw [hy, hm, hd, hh, hmi, hs] at hlt
      exact absurd hlt (lt_irrefl _)
    · exact absurd hlt (seconds_lt h' h hfields).asymm

theorem eq_of_seconds_eq (h : tm.Valid) (h' : tm'.Valid) (heq : tm.seconds = tm'.seconds) :
    tm = tm' := by
  have hfields : tm.fields = tm'.fields := by
    rcases lt_trichotomy tm.fields tm'.fields with hlt | hfields | hlt
    · exact absurd heq (seconds_lt h h' hlt).ne
    · exact hfields
    · exact absurd heq (seconds_lt h' h hlt).ne'
  simp only [fields, List.cons.injEq, and_true] at hfields
  obtain ⟨hy, hm, hd, hh, hmi, hs⟩ := hfields
  cases tm
  cases tm'
  congr

end Tm

def stampPrefix (tm : Tm) : Bytes :=
  decimal tm.year ++ ascii "-" ++ twoDigits tm.month ++ ascii "-" ++ twoDigits tm.day ++
    ascii "T" ++ twoDigits tm.hour ++ ascii ":" ++ twoDigits tm.minute ++ ascii ":" ++
    twoDigits tm.second

theorem nowRfc3339_eq (tm : Tm) : nowRfc3339 tm = stampPrefix tm ++ ascii "Z" := rfl

/-- The texts are in order of time, and what is behind the second decides where that is the
same. -/
theorem stampPrefix_lt_iff {tm tm' : Tm} (h : tm.Valid) (h' : tm'.Valid) (s t : Bytes) :
    keyOrder (stampPrefix tm ++ s) < keyOrder (stampPrefix tm' ++ t) ↔
      tm.seconds < tm'.seconds ∨ tm.seconds = tm'.seconds ∧ keyOrder s < keyOrder t := by
  have hmonth : tm.month < 100 := by have := h.date.month.2; omega
  have hmonth' : tm'.month < 100 := by have := h'.date.month.2; omega
  have hday (y m d : ℕ) (hd : IsDate y m d) : d < 100 := by
    have := hd.day.2
    unfold daysInMonth at this
    split_ifs at this <;> omega
  have hlast := fixedWidth_twoDigits.append_lt_iff (lt_trans h.second (by norm_num))
    (lt_trans h'.second (by norm_num)) [] s t
  rw [List.nil_append, List.nil_append] at hlast
  have hfields : keyOrder (stampPrefix tm ++ s) < keyOrder (stampPrefix tm' ++ t) ↔
      tm.fields < tm'.fields ∨ tm.fields = tm'.fields ∧ keyOrder s < keyOrder t := by
    unfold stampPrefix
    simp only [List.append_assoc]
    rw [fixedWidth_decimal.append_lt_iff h.year h'.year,
      fixedWidth_twoDigits.append_lt_iff hmonth hmonth',
      fixedWidth_twoDigits.append_lt_iff (hday _ _ _ h.date) (hday _ _ _ h'.date),
      fixedWidth_twoDigits.append_lt_iff (lt_trans h.hour (by norm_num))
        (lt_trans h'.hour (by norm_num)),
      fixedWidth_twoDigits.append_lt_iff (lt_trans h.minute (by norm_num))
        (lt_trans h'.minute (by norm_num)), hlast]
    simp only [Tm.fields, List.cons_lt_cons_iff, List.not_lt_nil, List.cons.injEq, and_false,
      or_false, and_true]
    grind
  have hsame : tm.fields = tm'.fields ↔ tm.seconds = tm'.seconds := by
    constructor
    · intro heq
      rcases lt_trichotomy tm.seconds tm'.seconds with hlt | hsec | hlt
      · exact absurd heq ((Tm.seconds_lt_iff h h').mpr hlt).ne
      · exact hsec
      · exact absurd heq ((Tm.seconds_lt_iff h' h).mpr hlt).ne'
    · intro heq
      rw [Tm.eq_of_seconds_eq h h' heq]
  rw [hfields, Tm.seconds_lt_iff h h', hsame]

theorem nowRfc3339_lt_iff {tm tm' : Tm} (h : tm.Valid) (h' : tm'.Valid) :
    keyOrder (nowRfc3339 tm) < keyOrder (nowRfc3339 tm') ↔ tm.seconds < tm'.seconds := by
  rw [nowRfc3339_eq, nowRfc3339_eq, stampPrefix_lt_iff h h']
  simp

theorem nowRfc3339_injOn {tm tm' : Tm} (h : tm.Valid) (h' : tm'.Valid)
    (heq : nowRfc3339 tm = nowRfc3339 tm') : tm = tm' := by
  have hlt := nowRfc3339_lt_iff h h'
  have hgt := nowRfc3339_lt_iff h' h
  rw [heq] at hlt hgt
  have hlt' := mt hlt.mpr (lt_irrefl _)
  have hgt' := mt hgt.mpr (lt_irrefl _)
  exact Tm.eq_of_seconds_eq h h' (by omega)

end Ledger

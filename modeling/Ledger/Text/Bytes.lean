import Mathlib.Data.Nat.Digits.Defs
import Mathlib.Tactic

/-! Byte strings: ASCII literals, decimal numerals, hex digits and little-endian words. -/
namespace Ledger.Text

abbrev Bytes := List UInt8

def ascii (s : String) : Bytes :=
  s.toList.map fun c => c.toNat.toUInt8

theorem forall_mem_of_all {α : Type*} {p : α → Prop} [DecidablePred p] {l : List α}
    (h : l.all (fun x => decide (p x)) = true) : ∀ x ∈ l, p x :=
  fun x hx => of_decide_eq_true (List.all_eq_true.mp h x hx)

def isDigit (c : UInt8) : Bool :=
  0x30 ≤ c && c ≤ 0x39

def digitByte (d : ℕ) : UInt8 :=
  UInt8.ofNat (d + 0x30)

/-- Base ten without leading zeros, as `std::to_string` and `dump_integer` write it. -/
def decimal (n : ℕ) : Bytes :=
  if n = 0 then [0x30] else ((Nat.digits 10 n).map digitByte).reverse

/-- The value `strtoull` reads from a run of digits. -/
def ofDecimal (t : Bytes) : ℕ :=
  t.foldl (fun n c => 10 * n + (c.toNat - 0x30)) 0

theorem digitByte_toNat {d : ℕ} (hd : d < 10) : (digitByte d).toNat = d + 0x30 := by
  simp only [digitByte, UInt8.toNat_ofNat']
  omega

theorem isDigit_digitByte {d : ℕ} (hd : d < 10) : isDigit (digitByte d) = true := by
  have h := digitByte_toNat hd
  simp only [isDigit, Bool.and_eq_true, decide_eq_true_eq, UInt8.le_iff_toNat_le, h]
  constructor
  · change 48 ≤ d + 48; omega
  · change d + 48 ≤ 57; omega

theorem decimal_ne_nil (n : ℕ) : decimal n ≠ [] := by
  unfold decimal
  split_ifs with h
  · simp
  · simpa using Nat.digits_ne_nil_iff_ne_zero.mpr h

theorem isDigit_of_mem_decimal {n : ℕ} {c : UInt8} (hc : c ∈ decimal n) : isDigit c = true := by
  unfold decimal at hc
  split_ifs at hc
  · rw [List.mem_singleton.mp hc]; decide
  · obtain ⟨d, hd, rfl⟩ := List.mem_map.mp (List.mem_reverse.mp hc)
    exact isDigit_digitByte (Nat.digits_lt_base (by norm_num) hd)

theorem ofDecimal_append_singleton (t : Bytes) (c : UInt8) :
    ofDecimal (t ++ [c]) = 10 * ofDecimal t + (c.toNat - 0x30) := by
  simp [ofDecimal]

theorem ofDecimal_reverse_digits (L : List ℕ) (hL : ∀ d ∈ L, d < 10) :
    ofDecimal (L.map digitByte).reverse = Nat.ofDigits 10 L := by
  induction L with
  | nil => rfl
  | cons d L ih =>
    have hd := digitByte_toNat (hL d (by simp))
    rw [List.map_cons, List.reverse_cons, ofDecimal_append_singleton,
      ih (fun e he => hL e (by simp [he])), hd, Nat.ofDigits_cons]
    simp
    omega

@[simp] theorem ofDecimal_decimal (n : ℕ) : ofDecimal (decimal n) = n := by
  unfold decimal
  split_ifs with h
  · subst n; rfl
  · rw [ofDecimal_reverse_digits _ (fun d hd => Nat.digits_lt_base (by norm_num) hd),
      Nat.ofDigits_digits]

theorem head_decimal_ne_zero {n : ℕ} (hn : n ≠ 0) {c : UInt8} {t : Bytes}
    (h : decimal n = c :: t) : c ≠ 0x30 := by
  have hne : Nat.digits 10 n ≠ [] := Nat.digits_ne_nil_iff_ne_zero.mpr hn
  have hlt : (Nat.digits 10 n).getLast hne < 10 :=
    Nat.digits_lt_base (by norm_num) (List.getLast_mem hne)
  have hlast := Nat.getLast_digit_ne_zero 10 hn
  have hc : c = digitByte ((Nat.digits 10 n).getLast hne) := by
    have hh := congrArg List.head? h
    simp only [decimal, if_neg hn, List.head?_reverse, List.getLast?_map,
      List.getLast?_eq_getLast_of_ne_nil hne, Option.map_some, List.head?_cons] at hh
    exact (Option.some.inj hh).symm
  intro h0
  have ht := congrArg UInt8.toNat (hc.symm.trans h0)
  rw [digitByte_toNat hlt] at ht
  change _ + 48 = 48 at ht
  omega

def hexDigit (d : ℕ) : UInt8 :=
  if d < 10 then UInt8.ofNat (d + 0x30) else UInt8.ofNat (d + 0x57)

def hexByte (b : UInt8) : Bytes :=
  [hexDigit (b.toNat / 16), hexDigit (b.toNat % 16)]

theorem hexDigit_injOn {d e : ℕ} (hd : d < 16) (he : e < 16)
    (h : hexDigit d = hexDigit e) : d = e := by
  have ht := congrArg UInt8.toNat h
  unfold hexDigit at ht
  split_ifs at ht <;> simp only [UInt8.toNat_ofNat'] at ht <;> omega

theorem hexByte_injective : Function.Injective hexByte := by
  intro a b h
  simp only [hexByte, List.cons.injEq, and_true] at h
  have ha := a.toNat_lt
  have hb := b.toNat_lt
  have hhi := hexDigit_injOn (by omega) (by omega) h.1
  have hlo := hexDigit_injOn (by omega) (by omega) h.2
  exact UInt8.toNat_inj.mp (by omega)

def hexText (t : Bytes) : Bytes :=
  t.flatMap hexByte

@[simp] theorem length_hexText (t : Bytes) : (hexText t).length = 2 * t.length := by
  induction t with
  | nil => rfl
  | cons b t ih =>
    simp only [hexText, List.flatMap_cons, List.length_append, List.length_cons] at ih ⊢
    rw [ih]
    simp [hexByte]
    omega

theorem hexText_injective : Function.Injective hexText := by
  intro a
  induction a with
  | nil =>
    intro b h
    have hl := congrArg List.length h
    simp only [length_hexText, List.length_nil] at hl
    exact (List.length_eq_zero_iff.mp (by omega)).symm
  | cons x a ih =>
    intro b h
    cases b with
    | nil => simp [hexText, hexByte] at h
    | cons y b =>
      simp only [hexText, List.flatMap_cons] at h
      obtain ⟨hx, ht⟩ := List.append_inj h rfl
      rw [hexByte_injective hx, ih ht]

def hexDigitUpper (d : ℕ) : UInt8 :=
  if d < 10 then UInt8.ofNat (d + 0x30) else UInt8.ofNat (d + 0x37)

/-- Two upper-case hex digits, high half first. -/
def hexByteUpper (b : UInt8) : Bytes :=
  [hexDigitUpper (b.toNat / 16), hexDigitUpper (b.toNat % 16)]

def littleEndian (w : UInt64) : Bytes :=
  (List.range 8).map fun i => (w >>> UInt64.ofNat (i * 8)).toUInt8

@[simp] theorem length_littleEndian (w : UInt64) : (littleEndian w).length = 8 := by
  simp [littleEndian]

private theorem shifted_byte_toNat (w : UInt64) {i : ℕ} (hi : i < 8) :
    (w >>> UInt64.ofNat (i * 8)).toUInt8.toNat = w.toNat / 256 ^ i % 256 := by
  have hp : (256 : ℕ) ^ i = 2 ^ (i * 8) := by
    rw [mul_comm, pow_mul]
    norm_num
  rw [hp, UInt64.toNat_toUInt8, UInt64.toNat_shiftRight, UInt64.toNat_ofNat',
    Nat.shiftRight_eq_div_pow, show i * 8 % 2 ^ 64 % 64 = i * 8 by omega]

theorem littleEndian_injective : Function.Injective littleEndian := by
  intro v w h
  have hb : ∀ i < 8, v.toNat / 256 ^ i % 256 = w.toNat / 256 ^ i % 256 := by
    intro i hi
    have hg := List.map_inj_left.mp h i (List.mem_range.mpr hi)
    rw [← shifted_byte_toNat v hi, ← shifted_byte_toNat w hi, hg]
  have h0 := hb 0 (by norm_num)
  have h1 := hb 1 (by norm_num)
  have h2 := hb 2 (by norm_num)
  have h3 := hb 3 (by norm_num)
  have h4 := hb 4 (by norm_num)
  have h5 := hb 5 (by norm_num)
  have h6 := hb 6 (by norm_num)
  have h7 := hb 7 (by norm_num)
  have hv := v.toNat_lt
  have hw := w.toNat_lt
  norm_num at h0 h1 h2 h3 h4 h5 h6 h7 hv hw
  exact UInt64.toNat_inj.mp (by omega)

end Ledger.Text

import Ledger.Text.Bytes

/-! Well-formed UTF-8 as a byte machine. A state lists the ranges that the next bytes
must fall in; the empty list stands between characters. -/
namespace Ledger.Text.Utf8

/-- Inclusive bounds on one continuation byte. -/
abbrev Range := UInt8 × UInt8

def tail : Range := (0x80, 0xBF)

/-- Continuation ranges owed after a leading byte; `none` for a byte that leads nothing. -/
def continuation (b : UInt8) : Option (List Range) :=
  if b ≤ 0x7F then some []
  else if b ≤ 0xC1 then none
  else if b ≤ 0xDF then some [tail]
  else if b = 0xE0 then some [(0xA0, 0xBF), tail]
  else if b = 0xED then some [(0x80, 0x9F), tail]
  else if b ≤ 0xEF then some [tail, tail]
  else if b = 0xF0 then some [(0x90, 0xBF), tail, tail]
  else if b ≤ 0xF3 then some [tail, tail, tail]
  else if b = 0xF4 then some [(0x80, 0x8F), tail, tail]
  else none

def step : List Range → UInt8 → Option (List Range)
  | [], b => continuation b
  | (lo, hi) :: owed, b => if lo ≤ b ∧ b ≤ hi then some owed else none

def run : List Range → Bytes → Option (List Range)
  | owed, [] => some owed
  | owed, b :: t => (step owed b).bind fun owed' => run owed' t

def WellFormed (t : Bytes) : Prop :=
  run [] t = some []

instance (t : Bytes) : Decidable (WellFormed t) :=
  inferInstanceAs (Decidable (run [] t = some []))

@[simp] theorem run_nil (owed : List Range) : run owed [] = some owed := rfl

theorem run_cons (owed : List Range) (b : UInt8) (t : Bytes) :
    run owed (b :: t) = (step owed b).bind fun owed' => run owed' t := rfl

theorem run_append (owed : List Range) (s t : Bytes) :
    run owed (s ++ t) = (run owed s).bind fun owed' => run owed' t := by
  induction s generalizing owed with
  | nil => rfl
  | cons b s ih =>
    rw [List.cons_append, run_cons, run_cons]
    cases step owed b with
    | none => rfl
    | some owed' => exact ih owed'

@[simp] theorem wellFormed_nil : WellFormed [] := rfl

theorem WellFormed.append_iff {s : Bytes} (hs : WellFormed s) (t : Bytes) :
    WellFormed (s ++ t) ↔ WellFormed t := by
  unfold WellFormed at hs ⊢
  rw [run_append, hs, Option.bind_some]

theorem WellFormed.append {s t : Bytes} (hs : WellFormed s) (ht : WellFormed t) :
    WellFormed (s ++ t) :=
  (hs.append_iff t).mpr ht

theorem step_ascii {b : UInt8} (hb : b ≤ 0x7F) : step [] b = some [] := by
  simp [step, continuation, hb]

theorem run_ascii {t : Bytes} (ht : ∀ b ∈ t, b ≤ 0x7F) : run [] t = some [] := by
  induction t with
  | nil => rfl
  | cons b t ih =>
    rw [run_cons, step_ascii (ht b (by simp)), Option.bind_some]
    exact ih fun c hc => ht c (by simp [hc])

theorem wellFormed_ascii {t : Bytes} (ht : ∀ b ∈ t, b ≤ 0x7F) : WellFormed t :=
  run_ascii ht

theorem WellFormed.cons_ascii {b : UInt8} (hb : b ≤ 0x7F) (t : Bytes) :
    WellFormed (b :: t) ↔ WellFormed t :=
  WellFormed.append_iff (s := [b]) (wellFormed_ascii (by simpa using hb)) t

/-- Every owed range lies above the ASCII bytes. -/
def Owed (owed : List Range) : Prop :=
  ∀ r ∈ owed, 0x80 ≤ r.1

theorem owed_nil : Owed [] := by
  intro r hr
  cases hr

theorem owed_of_continuation {b : UInt8} {owed : List Range}
    (h : continuation b = some owed) : Owed owed := by
  unfold continuation at h
  split_ifs at h <;> cases h <;> intro r hr <;>
    simp only [List.mem_cons, List.not_mem_nil, or_false, tail] at hr <;>
    rcases hr with rfl | rfl | rfl <;> decide

theorem Owed.step {owed owed' : List Range} (ho : Owed owed) {b : UInt8}
    (h : step owed b = some owed') : Owed owed' := by
  cases owed with
  | nil => exact owed_of_continuation h
  | cons r owed =>
    simp only [Utf8.step] at h
    split_ifs at h
    cases h
    exact fun s hs => ho s (by simp [hs])

theorem step_owed_ascii {r : Range} {owed : List Range} (ho : Owed (r :: owed)) {b : UInt8}
    (hb : b ≤ 0x7F) : step (r :: owed) b = none := by
  have hr := ho r (by simp)
  simp only [step, ite_eq_right_iff, reduceCtorEq, imp_false, not_and]
  intro h
  grind

theorem run_owed_ascii {owed : List Range} (ho : Owed owed) {b : UInt8} (hb : b ≤ 0x7F)
    (t : Bytes) : run owed (b :: t) = if owed = [] then run [] t else none := by
  cases owed with
  | nil => rw [run_cons, step_ascii hb, Option.bind_some, if_pos rfl]
  | cons r owed => rw [run_cons, step_owed_ascii ho hb]; rfl

theorem Owed.run {owed owed' : List Range} (ho : Owed owed) {t : Bytes}
    (h : run owed t = some owed') : Owed owed' := by
  induction t generalizing owed with
  | nil => cases h; exact ho
  | cons b t ih =>
    rw [run_cons] at h
    cases hs : Utf8.step owed b with
    | none => simp [hs] at h
    | some owed'' => rw [hs, Option.bind_some] at h; exact ih (ho.step hs) h

theorem wellFormed_append_ascii_iff {u : Bytes} (hu : ∀ b ∈ u, b ≤ 0x7F) (t : Bytes) :
    WellFormed (t ++ u) ↔ WellFormed t := by
  refine ⟨fun h => ?_, fun h => h.append (wellFormed_ascii hu)⟩
  unfold WellFormed at h ⊢
  rw [run_append] at h
  cases ht : run [] t with
  | none => simp [ht] at h
  | some owed =>
    rw [ht, Option.bind_some] at h
    cases u with
    | nil => exact h
    | cons b u =>
      rw [run_owed_ascii (owed_nil.run ht) (hu b (by simp))] at h
      split_ifs at h with ho
      rw [ho]

/-- Replaces single ASCII bytes by ASCII text and keeps every other byte. -/
def AsciiRewrite (f : UInt8 → Bytes) : Prop :=
  ∀ b, f b = [b] ∨ b ≤ 0x7F ∧ f b ≠ [] ∧ ∀ c ∈ f b, c ≤ 0x7F

private theorem run_flatMap_iff {f : UInt8 → Bytes} (hf : AsciiRewrite f) (t : Bytes)
    {owed : List Range} (ho : Owed owed) :
    run owed (t.flatMap f) = some [] ↔ run owed t = some [] := by
  induction t generalizing owed with
  | nil => rfl
  | cons b t ih =>
    rw [List.flatMap_cons]
    rcases hf b with h | ⟨hb, hne, hc⟩
    · rw [h, List.singleton_append, run_cons, run_cons]
      cases hs : step owed b with
      | none => rfl
      | some owed' => exact ih (ho.step hs)
    · obtain ⟨c, u, hu⟩ := List.exists_cons_of_ne_nil hne
      have hc0 : c ≤ 0x7F := hc c (by simp [hu])
      have hcu : run [] u = some [] := run_ascii fun d hd => hc d (by simp [hu, hd])
      rw [hu, List.cons_append, run_owed_ascii ho hc0, run_owed_ascii ho hb]
      split_ifs
      · rw [run_append, hcu, Option.bind_some]
        exact ih owed_nil
      · rfl

/-- Rewriting ASCII bytes neither creates nor repairs ill-formed text. -/
theorem wellFormed_flatMap_iff {f : UInt8 → Bytes} (hf : AsciiRewrite f) (t : Bytes) :
    WellFormed (t.flatMap f) ↔ WellFormed t :=
  run_flatMap_iff hf t owed_nil

/-- The bytes of one code point. -/
def encode (cp : ℕ) : Bytes :=
  if cp < 0x80 then [UInt8.ofNat cp]
  else if cp ≤ 0x7FF then [UInt8.ofNat (0xC0 + cp / 64), UInt8.ofNat (0x80 + cp % 64)]
  else if cp ≤ 0xFFFF then
    [UInt8.ofNat (0xE0 + cp / 4096), UInt8.ofNat (0x80 + cp / 64 % 64),
      UInt8.ofNat (0x80 + cp % 64)]
  else
    [UInt8.ofNat (0xF0 + cp / 262144), UInt8.ofNat (0x80 + cp / 4096 % 64),
      UInt8.ofNat (0x80 + cp / 64 % 64), UInt8.ofNat (0x80 + cp % 64)]

/-- Unicode scalar values: every code point but the surrogates. -/
def IsScalar (cp : ℕ) : Prop :=
  cp ≤ 0x10FFFF ∧ ¬ (0xD800 ≤ cp ∧ cp ≤ 0xDFFF)

private theorem ofNat_le {n : ℕ} (hn : n < 256) (b : UInt8) :
    UInt8.ofNat n ≤ b ↔ n ≤ b.toNat := by
  rw [UInt8.le_iff_toNat_le, UInt8.toNat_ofNat', Nat.mod_eq_of_lt hn]

private theorem le_ofNat {n : ℕ} (hn : n < 256) (b : UInt8) :
    b ≤ UInt8.ofNat n ↔ b.toNat ≤ n := by
  rw [UInt8.le_iff_toNat_le, UInt8.toNat_ofNat', Nat.mod_eq_of_lt hn]

private theorem ofNat_eq {n : ℕ} (hn : n < 256) (b : UInt8) :
    UInt8.ofNat n = b ↔ n = b.toNat := by
  rw [← UInt8.toNat_inj, UInt8.toNat_ofNat', Nat.mod_eq_of_lt hn]

private theorem step_range {lo hi : UInt8} (owed : List Range) {n : ℕ} (hn : n < 256)
    (hlo : lo.toNat ≤ n) (hhi : n ≤ hi.toNat) :
    step ((lo, hi) :: owed) (UInt8.ofNat n) = some owed := by
  simp only [step, le_ofNat hn, ofNat_le hn, hlo, hhi, and_self, if_true]

private theorem continuation_ofNat {n : ℕ} (hn : n < 256) :
    continuation (UInt8.ofNat n) =
      if n ≤ 0x7F then some []
      else if n ≤ 0xC1 then none
      else if n ≤ 0xDF then some [tail]
      else if n = 0xE0 then some [(0xA0, 0xBF), tail]
      else if n = 0xED then some [(0x80, 0x9F), tail]
      else if n ≤ 0xEF then some [tail, tail]
      else if n = 0xF0 then some [(0x90, 0xBF), tail, tail]
      else if n ≤ 0xF3 then some [tail, tail, tail]
      else if n = 0xF4 then some [(0x80, 0x8F), tail, tail]
      else none := by
  simp only [continuation, ofNat_le hn, ofNat_eq hn]
  rfl

private theorem wellFormed_lead {n : ℕ} (owed : List Range) {t : Bytes}
    (hc : continuation (UInt8.ofNat n) = some owed) (ht : run owed t = some []) :
    WellFormed (UInt8.ofNat n :: t) := by
  rw [WellFormed, run_cons, step, hc, Option.bind_some, ht]

private theorem run_step {owed owed' : List Range} {b : UInt8} {t : Bytes}
    (hb : step owed b = some owed') (ht : run owed' t = some []) :
    run owed (b :: t) = some [] := by
  rw [run_cons, hb, Option.bind_some, ht]

private theorem step_tail (owed : List Range) {n : ℕ} (hn : n < 64) :
    step (tail :: owed) (UInt8.ofNat (0x80 + n)) = some owed :=
  step_range owed (by omega) (by change 128 ≤ _; omega) (by change _ ≤ 191; omega)

theorem wellFormed_encode {cp : ℕ} (h : IsScalar cp) : WellFormed (encode cp) := by
  obtain ⟨hmax, hs⟩ := h
  have low := step_tail [] (Nat.mod_lt cp (show 0 < 64 by norm_num))
  have mid := fun owed => step_tail owed (Nat.mod_lt (cp / 64) (show 0 < 64 by norm_num))
  unfold encode
  split_ifs with h1 h2 h3
  · exact wellFormed_ascii (by simp [ofNat_le (show cp < 256 by omega)]; omega)
  · refine wellFormed_lead [tail] ?_ (run_step low rfl)
    rw [continuation_ofNat (by omega), if_neg (by omega), if_neg (by omega), if_pos (by omega)]
  · have hn : 0x80 + cp / 64 % 64 < 256 := by omega
    by_cases hE0 : cp / 4096 = 0
    -- E0 and ED owe a narrower second byte: no overlong form, no surrogate
    · refine wellFormed_lead [(0xA0, 0xBF), tail] ?_ (run_step ?_ (run_step low rfl))
      · rw [continuation_ofNat (by omega), if_neg (by omega), if_neg (by omega), if_neg (by omega),
          if_pos (by omega)]
      · exact step_range _ hn (by change 160 ≤ _; omega) (by change _ ≤ 191; omega)
    by_cases hED : cp / 4096 = 13
    · refine wellFormed_lead [(0x80, 0x9F), tail] ?_ (run_step ?_ (run_step low rfl))
      · rw [continuation_ofNat (by omega), if_neg (by omega), if_neg (by omega), if_neg (by omega),
          if_neg (by omega), if_pos (by omega)]
      · exact step_range _ hn (by change 128 ≤ _; omega) (by change _ ≤ 159; omega)
    · refine wellFormed_lead [tail, tail] ?_ (run_step (mid _) (run_step low rfl))
      rw [continuation_ofNat (by omega), if_neg (by omega), if_neg (by omega), if_neg (by omega),
        if_neg (by omega), if_neg (by omega), if_pos (by omega)]
  · have hn : 0x80 + cp / 4096 % 64 < 256 := by omega
    by_cases hF0 : cp / 262144 = 0
    · refine wellFormed_lead [(0x90, 0xBF), tail, tail] ?_
        (run_step ?_ (run_step (mid _) (run_step low rfl)))
      · rw [continuation_ofNat (by omega), if_neg (by omega), if_neg (by omega), if_neg (by omega),
          if_neg (by omega), if_neg (by omega), if_neg (by omega), if_pos (by omega)]
      · exact step_range _ hn (by change 144 ≤ _; omega) (by change _ ≤ 191; omega)
    by_cases hF4 : cp / 262144 = 4
    · refine wellFormed_lead [(0x80, 0x8F), tail, tail] ?_
        (run_step ?_ (run_step (mid _) (run_step low rfl)))
      · rw [continuation_ofNat (by omega), if_neg (by omega), if_neg (by omega), if_neg (by omega),
          if_neg (by omega), if_neg (by omega), if_neg (by omega), if_neg (by omega),
          if_neg (by omega), if_pos (by omega)]
      · exact step_range _ hn (by change 128 ≤ _; omega) (by change _ ≤ 143; omega)
    · refine wellFormed_lead [tail, tail, tail] ?_
        (run_step (step_tail _ (Nat.mod_lt _ (by norm_num))) (run_step (mid _) (run_step low rfl)))
      rw [continuation_ofNat (by omega), if_neg (by omega), if_neg (by omega), if_neg (by omega),
        if_neg (by omega), if_neg (by omega), if_neg (by omega), if_neg (by omega),
        if_pos (by omega)]

end Ledger.Text.Utf8

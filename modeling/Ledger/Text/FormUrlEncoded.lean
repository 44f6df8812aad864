import Ledger.Text.LossyUtf8

/-! `application/x-www-form-urlencoded`: lists of names and values as one text, and what a text is
read as. -/
namespace Ledger.Text.FormUrlEncoded

def isPlain (c : UInt8) : Bool :=
  isDigit c || (0x41 ≤ c && c ≤ 0x5A) || (0x61 ≤ c && c ≤ 0x7A) || c = 0x2A || c = 0x2D || c = 0x2E
    || c = 0x5F

def encodeByte (b : UInt8) : Bytes :=
  if isPlain b then [b] else if b = 0x20 then [0x2B] else 0x25 :: hexByteUpper b

def encode (s : Bytes) : Bytes :=
  s.flatMap encodeByte

def unhex (c : UInt8) : Option ℕ :=
  (List.range 16).find? fun d => c = hexDigit d ∨ c = hexDigitUpper d

def unhexByte (hi lo : UInt8) : Option UInt8 :=
  (unhex hi).bind fun h => (unhex lo).map fun l => UInt8.ofNat (16 * h + l)

def plusToSpace (t : Bytes) : Bytes :=
  t.map fun c => if c = 0x2B then 0x20 else c

/-- A percent sign without two hex digits behind it stands for itself. -/
def percentDecode : Bytes → Bytes
  | [] => []
  | [c] => [c]
  | [c, d] => [c, d]
  | c :: hi :: lo :: t =>
    match if c = 0x25 then unhexByte hi lo else none with
    | some b => b :: percentDecode t
    | none => c :: percentDecode (hi :: lo :: t)

def decode (t : Bytes) : Bytes :=
  percentDecode (plusToSpace t)

theorem unhex_hexDigitUpper {d : ℕ} (h : d < 16) : unhex (hexDigitUpper d) = some d := by
  have hall : ∀ d < 16, unhex (hexDigitUpper d) = some d := by decide
  exact hall d h

theorem unhexByte_hexByteUpper (b : UInt8) :
    unhexByte (hexDigitUpper (b.toNat / 16)) (hexDigitUpper (b.toNat % 16)) = some b := by
  have hb := b.toNat_lt
  rw [unhexByte, unhex_hexDigitUpper (by omega), unhex_hexDigitUpper (by omega), Option.bind_some,
    Option.map_some, Nat.div_add_mod, UInt8.ofNat_toNat]

theorem percentDecode_cons_of_ne {c : UInt8} (h : c ≠ 0x25) (t : Bytes) :
    percentDecode (c :: t) = c :: percentDecode t := by
  match t with
  | [] => rfl
  | [d] => rfl
  | hi :: lo :: t => rw [percentDecode, if_neg h]

theorem percentDecode_hexByteUpper (b : UInt8) (t : Bytes) :
    percentDecode (0x25 :: hexByteUpper b ++ t) = b :: percentDecode t := by
  rw [hexByteUpper, List.cons_append, List.cons_append, List.cons_append, List.nil_append,
    percentDecode, if_pos rfl, unhexByte_hexByteUpper]

/-- The bytes of an encoding. -/
def IsSafe (c : UInt8) : Prop :=
  isPlain c = true ∨ c = 0x25 ∨ c = 0x2B

theorem IsSafe.ne {c d : UInt8} (h : IsSafe c) (hd : ¬IsSafe d) : c ≠ d := by
  rintro rfl
  exact hd h

instance (c : UInt8) : Decidable (IsSafe c) :=
  inferInstanceAs (Decidable (_ ∨ _))

theorem IsSafe.le {c : UInt8} (h : IsSafe c) : c ≤ 0x7F := by
  unfold IsSafe isPlain isDigit at h
  grind

theorem isPlain_hexDigitUpper {d : ℕ} (h : d < 16) : isPlain (hexDigitUpper d) = true := by
  have hall : ∀ d < 16, isPlain (hexDigitUpper d) = true := by decide
  exact hall d h

theorem isSafe_encodeByte {b c : UInt8} (h : c ∈ encodeByte b) : IsSafe c := by
  have hb := b.toNat_lt
  unfold encodeByte at h
  split_ifs at h with hplain hspace
  · rw [List.mem_singleton.mp h]
    exact .inl hplain
  · rw [List.mem_singleton.mp h]
    exact .inr (.inr rfl)
  · simp only [hexByteUpper, List.mem_cons, List.not_mem_nil, or_false] at h
    rcases h with rfl | rfl | rfl
    · exact .inr (.inl rfl)
    · exact .inl (isPlain_hexDigitUpper (by omega))
    · exact .inl (isPlain_hexDigitUpper (by omega))

theorem isSafe_encode {s : Bytes} {c : UInt8} (h : c ∈ encode s) : IsSafe c := by
  obtain ⟨b, _, hc⟩ := List.mem_flatMap.mp h
  exact isSafe_encodeByte hc

theorem not_mem_encode {s : Bytes} {d : UInt8} (hd : ¬IsSafe d) : d ∉ encode s :=
  fun h => hd (isSafe_encode h)

theorem plusToSpace_of_ne {t : Bytes} (h : ∀ c ∈ t, c ≠ 0x2B) : plusToSpace t = t := by
  rw [plusToSpace]
  conv_rhs => rw [← List.map_id t]
  exact List.map_congr_left fun c hc => if_neg (h c hc)

theorem ne_of_isPlain {c d : UInt8} (hc : isPlain c = true) (hd : isPlain d = false) : c ≠ d := by
  rintro rfl
  exact Bool.false_ne_true (hd.symm.trans hc)

theorem plusToSpace_hexByteUpper (b : UInt8) :
    plusToSpace (0x25 :: hexByteUpper b) = 0x25 :: hexByteUpper b := by
  have hb := b.toNat_lt
  have hhi := isPlain_hexDigitUpper (show b.toNat / 16 < 16 by omega)
  have hlo := isPlain_hexDigitUpper (show b.toNat % 16 < 16 by omega)
  refine plusToSpace_of_ne fun c hc => ?_
  simp only [hexByteUpper, List.mem_cons, List.not_mem_nil, or_false] at hc
  rcases hc with rfl | rfl | rfl
  · decide
  · exact ne_of_isPlain hhi (by decide)
  · exact ne_of_isPlain hlo (by decide)

theorem decode_encodeByte (b : UInt8) (t : Bytes) :
    decode (encodeByte b ++ t) = b :: decode t := by
  unfold encodeByte decode
  split_ifs with hplain hspace
  · have hplus : b ≠ 0x2B := ne_of_isPlain hplain (by decide)
    have hpercent : b ≠ 0x25 := ne_of_isPlain hplain (by decide)
    rw [plusToSpace, List.singleton_append, List.map_cons, if_neg hplus]
    exact percentDecode_cons_of_ne hpercent _
  · rw [hspace, plusToSpace, List.singleton_append, List.map_cons, if_pos rfl]
    exact percentDecode_cons_of_ne (by decide) _
  · rw [plusToSpace, List.map_append, ← plusToSpace, ← plusToSpace, plusToSpace_hexByteUpper]
    exact percentDecode_hexByteUpper b _

theorem decode_encode (s : Bytes) : decode (encode s) = s := by
  induction s with
  | nil => rfl
  | cons b s ih => rw [encode, List.flatMap_cons, decode_encodeByte, ← encode, ih]

abbrev Entries := List (Utf8String × Utf8String)

/-- A name and a value around the first equals sign; without one, all is the name. -/
def pairOf (piece : Bytes) : Utf8String × Utf8String :=
  (Utf8.decodeLossy (decode (piece.takeWhile (· ≠ 0x3D))),
    Utf8.decodeLossy (decode ((piece.dropWhile (· ≠ 0x3D)).drop 1)))

/-- Pieces around ampersands; empty ones are skipped. -/
def parse (t : Bytes) : Entries :=
  ((t.splitOn 0x26).filter (· ≠ [])).map pairOf

def pieceOf (e : Utf8String × Utf8String) : Bytes :=
  encode e.1 ++ 0x3D :: encode e.2

def serialise (entries : Entries) : Bytes :=
  [0x26].intercalate (entries.map pieceOf)

theorem pairOf_pieceOf (e : Utf8String × Utf8String) : pairOf (pieceOf e) = e := by
  have hname : ∀ c ∈ encode e.1, decide (c ≠ 0x3D) = true := fun c hc =>
    decide_eq_true ((isSafe_encode hc).ne (by decide))
  rw [pairOf, pieceOf, List.takeWhile_append_of_pos hname, List.dropWhile_append_of_pos hname,
    List.takeWhile_cons_of_neg (by simp), List.dropWhile_cons_of_neg (by simp), List.append_nil,
    List.drop_one, List.tail_cons, decode_encode, decode_encode,
    Utf8.decodeLossy_of_wellFormed e.1.2, Utf8.decodeLossy_of_wellFormed e.2.2]

/-- What is serialised is read as it was. -/
theorem parse_serialise (entries : Entries) : parse (serialise entries) = entries := by
  cases entries with
  | nil => rfl
  | cons e entries =>
    have hpiece : ∀ piece ∈ (e :: entries).map pieceOf, (0x26 : UInt8) ∉ piece := by
      intro piece h
      obtain ⟨e', _, rfl⟩ := List.mem_map.mp h
      rw [pieceOf, List.mem_append, List.mem_cons]
      rintro (h | h | h)
      · exact not_mem_encode (by decide) h
      · exact absurd h (by decide)
      · exact not_mem_encode (by decide) h
    have hne : ∀ piece ∈ (e :: entries).map pieceOf, decide (piece ≠ []) = true := by
      intro piece h
      obtain ⟨e', _, rfl⟩ := List.mem_map.mp h
      exact decide_eq_true (by simp [pieceOf])
    have hid : pairOf ∘ pieceOf = id := funext pairOf_pieceOf
    rw [parse, serialise, List.splitOn_intercalate _ hpiece (by simp), List.filter_eq_self.mpr hne,
      List.map_map, hid, List.map_id]

theorem mem_serialise {entries : Entries} {c : UInt8} (h : c ∈ serialise entries) :
    IsSafe c ∨ c = 0x26 ∨ c = 0x3D := by
  induction entries with
  | nil => cases h
  | cons e entries ih =>
    have hpiece (h : c ∈ pieceOf e) : IsSafe c ∨ c = 0x26 ∨ c = 0x3D := by
      rw [pieceOf, List.mem_append, List.mem_cons] at h
      rcases h with h | h | h
      · exact .inl (isSafe_encode h)
      · exact .inr (.inr h)
      · exact .inl (isSafe_encode h)
    cases entries with
    | nil =>
      rw [serialise, List.map_singleton, List.intercalate_singleton] at h
      exact hpiece h
    | cons e' entries =>
      rw [serialise, List.map_cons, List.map_cons, List.intercalate_cons_cons, List.mem_append,
        List.mem_append, List.mem_singleton] at h
      rcases h with (h | h) | h
      · exact hpiece h
      · exact .inr (.inl h)
      · exact ih h

theorem wellFormed_serialise (entries : Entries) : Utf8.WellFormed (serialise entries) := by
  refine Utf8.wellFormed_ascii fun c hc => ?_
  rcases mem_serialise hc with h | rfl | rfl
  · exact h.le
  · decide
  · decide

theorem not_mem_serialise (entries : Entries) : (0x3F : UInt8) ∉ serialise entries := by
  intro h
  rcases mem_serialise h with h | h | h
  · exact absurd h (by decide)
  · exact absurd h (by decide)
  · exact absurd h (by decide)

end Ledger.Text.FormUrlEncoded

import Ledger.Text.Utf8

/-! Decoding of bytes as UTF-8, where each part that is not well formed becomes U+FFFD. -/
namespace Ledger.Text

/-- A string without lone surrogates, as its bytes. -/
abbrev Utf8String := {s : Bytes // Utf8.WellFormed s}

namespace Utf8

def replacement : Bytes :=
  [0xEF, 0xBF, 0xBD]

/-- What is decoded, and the bytes of an open character with the ranges that it owes. -/
structure Decoder where
  out : Bytes
  owed : List Range
  pending : Bytes

namespace Decoder

def push (d : Decoder) (b : UInt8) : Option Decoder :=
  (Utf8.step d.owed b).map fun owed =>
    if owed = [] then ⟨d.out ++ d.pending ++ [b], [], []⟩ else ⟨d.out, owed, d.pending ++ [b]⟩

def fail (d : Decoder) : Decoder :=
  ⟨d.out ++ replacement, [], []⟩

/-- A byte that does not continue an open character is read again as a first one. -/
def step (d : Decoder) (b : UInt8) : Decoder :=
  match d.push b with
  | some d' => d'
  | none => if d.owed = [] then d.fail else (d.fail.push b).getD d.fail.fail

/-- All that is decoded; an open character is not well formed. -/
def finish (d : Decoder) : Bytes :=
  if d.owed = [] then d.out else d.fail.out

def start : Decoder :=
  ⟨[], [], []⟩

/-- What is decoded is well formed, and what is pending may become so. -/
structure Sound (d : Decoder) : Prop where
  out : WellFormed d.out
  pending : run [] d.pending = some d.owed
  closed : d.owed = [] → d.pending = []

variable {d d' : Decoder} {b : UInt8}

theorem sound_start : start.Sound :=
  ⟨rfl, rfl, fun _ => rfl⟩

theorem Sound.fail (h : d.Sound) : d.fail.Sound :=
  ⟨h.out.append (by decide), rfl, fun _ => rfl⟩

theorem Sound.push (h : d.Sound) (hpush : d.push b = some d') : d'.Sound := by
  obtain ⟨owed, howed, rfl⟩ := Option.map_eq_some_iff.mp hpush
  have hpending : run [] (d.pending ++ [b]) = some owed := by
    rw [run_append, h.pending, Option.bind_some, run_cons, howed, Option.bind_some, run_nil]
  split_ifs with hnil
  · subst hnil
    refine ⟨?_, rfl, fun _ => rfl⟩
    rw [List.append_assoc]
    exact h.out.append hpending
  · exact ⟨h.out, hpending, fun h => absurd h hnil⟩

theorem Sound.step (h : d.Sound) (b : UInt8) : (d.step b).Sound := by
  unfold Decoder.step
  cases hpush : d.push b with
  | some d' => exact h.push hpush
  | none =>
    dsimp only
    split_ifs
    · exact h.fail
    · cases hfail : d.fail.push b with
      | none => exact h.fail.fail
      | some d' => exact h.fail.push hfail

theorem Sound.foldl (h : d.Sound) (t : Bytes) : (t.foldl Decoder.step d).Sound := by
  induction t generalizing d with
  | nil => exact h
  | cons b t ih => exact ih (h.step b)

theorem Sound.finish (h : d.Sound) : WellFormed d.finish := by
  unfold Decoder.finish
  split_ifs
  · exact h.out
  · exact h.fail.out

theorem finish_foldl {t : Bytes} (h : d.Sound) (ht : run d.owed t = some []) :
    (t.foldl step d).finish = d.out ++ d.pending ++ t := by
  induction t generalizing d with
  | nil =>
    have hnil : d.owed = [] := Option.some.inj ht
    rw [List.foldl_nil, finish, if_pos hnil, h.closed hnil, List.append_nil, List.append_nil]
  | cons b t ih =>
    rw [run_cons] at ht
    obtain ⟨owed, howed, hrest⟩ := Option.bind_eq_some_iff.mp ht
    have hpush : d.push b = some (if owed = [] then ⟨d.out ++ d.pending ++ [b], [], []⟩
        else ⟨d.out, owed, d.pending ++ [b]⟩) := by
      rw [push, howed, Option.map_some]
    rw [List.foldl_cons, show d.step b = _ by rw [step, hpush]]
    by_cases hnil : owed = []
    · rw [if_pos hnil] at hpush ⊢
      rw [ih (h.push hpush) (hnil ▸ hrest)]
      simp
    · rw [if_neg hnil] at hpush ⊢
      rw [ih (h.push hpush) hrest]
      simp

end Decoder

/-- Decoding, as `TextDecoder` and `bytes.decode` with `replace` do it. -/
def decodeLossy (t : Bytes) : Utf8String :=
  ⟨(t.foldl Decoder.step .start).finish, (Decoder.sound_start.foldl t).finish⟩

theorem decodeLossy_of_wellFormed {t : Bytes} (h : WellFormed t) : decodeLossy t = ⟨t, h⟩ :=
  Subtype.ext (Decoder.finish_foldl Decoder.sound_start h)

end Utf8
end Ledger.Text

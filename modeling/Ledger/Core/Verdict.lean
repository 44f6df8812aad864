import Ledger.Core.Tampering

/-! The verdict of `verify_chain` position by position, and what appending does to it. -/
namespace Ledger
open Text
variable {F : Type} [NumberFloat F] {sha256 : Bytes → Digest}

/-- What the `prev_hash` at a position is compared with. -/
def expectedPrev (blocks : List (Block F)) : ℕ → Option Bytes
  | 0 => some zeroHash
  | i + 1 => (blocks[i]?).map Block.hash

/-- There is a block at the position, it names the hash before it and carries its own. -/
def IntactAt (sha256 : Bytes → Digest) (blocks : List (Block F)) (i : ℕ) : Prop :=
  ∃ b, blocks[i]? = some b ∧ expectedPrev blocks i = some b.prevHash ∧ b.Sealed sha256

theorem expectedPrev_append {xs : List (Block F)} {i : ℕ} (h : i ≤ xs.length)
    (ys : List (Block F)) : expectedPrev (xs ++ ys) i = expectedPrev xs i := by
  cases i with
  | zero => rfl
  | succ i => rw [expectedPrev, expectedPrev, List.getElem?_append_left (by omega)]

theorem expectedPrev_length (xs : List (Block F)) :
    expectedPrev xs xs.length = some (HashChain.lastHash Block.hash zeroHash xs) := by
  rcases List.eq_nil_or_concat' xs with rfl | ⟨xs, b, rfl⟩
  · rfl
  · rw [List.length_append, List.length_singleton, expectedPrev, List.getElem?_concat_length,
      HashChain.lastHash_append_singleton]
    rfl

theorem intactAt_append {xs : List (Block F)} {i : ℕ} (h : i < xs.length) (ys : List (Block F)) :
    IntactAt sha256 (xs ++ ys) i ↔ IntactAt sha256 xs i := by
  unfold IntactAt
  rw [expectedPrev_append h.le, List.getElem?_append_left h]

theorem intactAt_length {before rest : List (Block F)} {b : Block F} :
    IntactAt sha256 (before ++ b :: rest) before.length ↔ b.Attached sha256 before := by
  have hb : (before ++ b :: rest)[before.length]? = some b := by
    simp
  unfold IntactAt Block.Attached
  rw [expectedPrev_append le_rfl, expectedPrev_length, hb]
  constructor
  · rintro ⟨c, hc, hprev, hsealed⟩
    obtain rfl : b = c := Option.some.inj hc
    exact ⟨(Option.some.inj hprev).symm, hsealed⟩
  · rintro ⟨hprev, hsealed⟩
    exact ⟨b, rfl, by rw [hprev], hsealed⟩

theorem linked_sealed_iff {blocks : List (Block F)} :
    (BlocksLinked blocks ∧ ∀ b ∈ blocks, b.Sealed sha256) ↔
      ∀ i < blocks.length, IntactAt sha256 blocks i := by
  induction blocks using List.reverseRecOn with
  | nil =>
    simp only [List.not_mem_nil, List.length_nil, Nat.not_lt_zero, false_implies, implies_true,
      and_true]
    trivial
  | append_singleton blocks b ih =>
    have hlast : IntactAt sha256 (blocks ++ [b]) blocks.length ↔ b.Attached sha256 blocks :=
      intactAt_length
    constructor
    · rintro ⟨hlinked, hsealed⟩ i hi
      obtain ⟨hbefore, hprev⟩ := HashChain.linked_append_singleton.mp hlinked
      rw [List.length_append, List.length_singleton] at hi
      rcases Nat.lt_succ_iff_lt_or_eq.mp hi with hi | rfl
      · rw [intactAt_append hi]
        exact ih.mp ⟨hbefore, fun c hc => hsealed c (by simp [hc])⟩ i hi
      · exact hlast.mpr ⟨hprev, hsealed b (by simp)⟩
    · intro h
      have hbefore : ∀ i < blocks.length, IntactAt sha256 blocks i := by
        intro i hi
        rw [← intactAt_append hi [b]]
        exact h i (by rw [List.length_append]; omega)
      obtain ⟨hlinked, hsealed⟩ := ih.mpr hbefore
      have hb : b.Attached sha256 blocks := hlast.mp (h blocks.length (by simp))
      exact hb.append hlinked hsealed

theorem valid_or_split (sha256 : Bytes → Digest) (blocks : List (Block F)) :
    (BlocksLinked blocks ∧ ∀ b ∈ blocks, b.Sealed sha256) ∨
      ∃ before b rest, blocks = before ++ b :: rest ∧ BlocksLinked before ∧
        (∀ c ∈ before, c.Sealed sha256) ∧ ¬b.Attached sha256 before := by
  induction blocks using List.reverseRecOn with
  | nil => exact Or.inl ⟨trivial, by simp⟩
  | append_singleton blocks b ih =>
    rcases ih with ⟨hlinked, hsealed⟩ | ⟨before, c, rest, rfl, hsplit⟩
    · by_cases hb : b.Attached sha256 blocks
      · exact Or.inl (hb.append hlinked hsealed)
      · exact Or.inr ⟨blocks, b, [], rfl, hlinked, hsealed, hb⟩
    · refine Or.inr ⟨before, c, rest ++ [b], ?_, hsplit⟩
      rw [List.append_assoc, List.cons_append]

/-- The declared verdict: the least position that is not intact, if there is one. -/
structure Verdict (sha256 : Bytes → Digest) (blocks : List (Block F)) (r : VerifyResult) :
    Prop where
  chainLength : r.chainLength = blocks.length
  valid : r.valid = true ↔ ∀ i < blocks.length, IntactAt sha256 blocks i
  intact : r.valid = true → r.firstInvalidIndex = none ∧ r.checkedBlocks = blocks.length
  broken : r.valid = false → ∃ i < blocks.length, r.firstInvalidIndex = some i ∧
    r.checkedBlocks = i + 1 ∧ ¬IntactAt sha256 blocks i ∧ ∀ j < i, IntactAt sha256 blocks j

/-- What is appended does not hide or move a fault. -/
structure Growth (before after : VerifyResult) : Prop where
  broken : before.valid = false → after.valid = false ∧
    after.firstInvalidIndex = before.firstInvalidIndex ∧
      after.checkedBlocks = before.checkedBlocks
  intact : before.valid = true → ∀ i ∈ after.firstInvalidIndex, before.chainLength ≤ i

theorem verifyChain_verdict (sha256 : Bytes → Digest) (blocks : List (Block F)) :
    Verdict sha256 blocks (verifyChain sha256 blocks) := by
  rcases valid_or_split sha256 blocks with ⟨hl, hs⟩ | ⟨before, b, rest, rfl, hl, hs, hb⟩
  · have hok : verifyChain sha256 blocks = _ := verifyChain_of_valid hl hs
    rw [hok]
    constructor
    · rfl
    · exact iff_of_true rfl (linked_sealed_iff.mp ⟨hl, hs⟩)
    · exact fun _ => ⟨rfl, rfl⟩
    · exact fun h => absurd h (by simp)
  · have hstop : verifyChain sha256 (before ++ b :: rest) = _ := verifyChain_stops hl hs hb rest
    have hlt : before.length < (before ++ b :: rest).length := by
      simp
    have hbroken : ¬IntactAt sha256 (before ++ b :: rest) before.length :=
      fun h => hb (intactAt_length.mp h)
    rw [hstop]
    constructor
    · rfl
    · exact iff_of_false (by simp) fun h => hbroken (h _ hlt)
    · exact fun h => absurd h (by simp)
    · intro _
      refine ⟨before.length, hlt, rfl, rfl, hbroken, ?_⟩
      intro j hj
      rw [intactAt_append hj]
      exact linked_sealed_iff.mp ⟨hl, hs⟩ j hj

theorem verifyChain_growth (sha256 : Bytes → Digest) (xs ys : List (Block F)) :
    Growth (verifyChain sha256 xs) (verifyChain sha256 (xs ++ ys)) := by
  rcases valid_or_split sha256 xs with ⟨hl, hs⟩ | ⟨before, b, rest, rfl, hl, hs, hb⟩
  · have hok : verifyChain sha256 xs = _ := verifyChain_of_valid hl hs
    have hverdict := verifyChain_verdict sha256 (xs ++ ys)
    rw [hok]
    constructor
    · exact fun h => absurd h (by simp)
    · intro _ i hi
      -- below the length of `xs` every position is still intact
      by_contra hlt
      have hi' : (verifyChain sha256 (xs ++ ys)).firstInvalidIndex = some i := hi
      cases hv : (verifyChain sha256 (xs ++ ys)).valid with
      | true =>
        rw [(hverdict.intact hv).1] at hi'
        cases hi'
      | false =>
        obtain ⟨j, -, hj, -, hbroken, -⟩ := hverdict.broken hv
        obtain rfl : i = j := Option.some.inj (hi'.symm.trans hj)
        have hlt' : i < xs.length := not_le.mp hlt
        rw [intactAt_append hlt'] at hbroken
        exact hbroken (linked_sealed_iff.mp ⟨hl, hs⟩ i hlt')
  · have hstop : verifyChain sha256 (before ++ b :: rest) = _ := verifyChain_stops hl hs hb rest
    have hgrown : verifyChain sha256 (before ++ b :: rest ++ ys) =
        ⟨false, (before ++ b :: rest ++ ys).length, before.length + 1, some before.length⟩ := by
      rw [List.append_assoc, List.cons_append]
      exact verifyChain_stops hl hs hb (rest ++ ys)
    rw [hstop, hgrown]
    constructor
    · exact fun _ => ⟨rfl, rfl, rfl⟩
    · exact fun h => absurd h (by simp)

/-- The loop of `verify_chain` computes the declared verdict, and no block behind a list changes
what it says about the list. -/
theorem verify_declared_and_stable (sha256 : Bytes → Digest) (blocks : List (Block F)) :
    Verdict sha256 blocks (verifyChain sha256 blocks) ∧
      ∀ later, Growth (verifyChain sha256 blocks) (verifyChain sha256 (blocks ++ later)) :=
  ⟨verifyChain_verdict sha256 blocks, verifyChain_growth sha256 blocks⟩

end Ledger

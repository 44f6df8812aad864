import Ledger.Core.Block
import Ledger.System.HashChain

/-! The chain and its verification. -/
namespace Ledger
open Text
variable {F : Type} [NumberFloat F]

/-- `blocks_` is never empty: it starts from genesis or from a file with a line. -/
structure Chain (F : Type) [NumberFloat F] where
  blocks : List (Block F)
  ne_nil : blocks ≠ []

namespace Chain

def fresh (sha256 : Bytes → Digest) (now : Tm) : Chain F :=
  ⟨[genesis sha256 now], by simp⟩

def latest (c : Chain F) : Block F :=
  c.blocks.getLast c.ne_nil

def size (c : Chain F) : ℕ :=
  c.blocks.length

/-- Hashes the next block itself, unlike the writer. -/
def append (sha256 : Bytes → Digest) (now : Tm) (c : Chain F) (event : EventPayload F) :
    Chain F :=
  ⟨c.blocks ++ [makeBlock sha256 now (c.latest.index + 1) event c.latest.hash], by simp⟩

def pushPersisted (c : Chain F) (block : Block F) : Chain F :=
  ⟨c.blocks ++ [block], by simp⟩

@[simp] theorem pushPersisted_blocks (c : Chain F) (b : Block F) :
    (c.pushPersisted b).blocks = c.blocks ++ [b] := rfl

@[simp] theorem size_pushPersisted (c : Chain F) (b : Block F) :
    (c.pushPersisted b).size = c.size + 1 := by
  simp [size]

end Chain

structure VerifyResult where
  valid : Bool
  chainLength : ℕ
  checkedBlocks : ℕ
  firstInvalidIndex : Option ℕ
  deriving DecidableEq

/-- The loop of `verify_chain` from position `i`. -/
def verifyFrom (sha256 : Bytes → Digest) (chainLength : ℕ) :
    (i : ℕ) → (expectedPrev : Bytes) → List (Block F) → VerifyResult
  | i, _, [] => ⟨true, chainLength, i, none⟩
  | i, expectedPrev, b :: blocks =>
    if b.prevHash ≠ expectedPrev ∨ b.computeHash sha256 ≠ b.hash then
      ⟨false, chainLength, i + 1, some i⟩
    else verifyFrom sha256 chainLength (i + 1) b.hash blocks

def verifyChain (sha256 : Bytes → Digest) (blocks : List (Block F)) : VerifyResult :=
  verifyFrom sha256 blocks.length 0 zeroHash blocks

def Chain.verify (sha256 : Bytes → Digest) (c : Chain F) : VerifyResult :=
  verifyChain sha256 c.blocks

def Block.Sealed (sha256 : Bytes → Digest) (b : Block F) : Prop :=
  b.hash = b.computeHash sha256

abbrev BlocksLinked (blocks : List (Block F)) : Prop :=
  HashChain.Linked Block.prevHash Block.hash zeroHash blocks

private theorem verifyFrom_valid_iff (sha256 : Bytes → Digest) (n i : ℕ) (expectedPrev : Bytes)
    (blocks : List (Block F)) :
    (verifyFrom sha256 n i expectedPrev blocks).valid = true ↔
      HashChain.Linked Block.prevHash Block.hash expectedPrev blocks ∧
        ∀ b ∈ blocks, b.Sealed sha256 := by
  induction blocks generalizing i expectedPrev with
  | nil => simp [verifyFrom, HashChain.Linked]
  | cons b blocks ih =>
    rw [verifyFrom, HashChain.Linked, List.forall_mem_cons]
    split_ifs with h
    · refine iff_of_false (by simp) ?_
      rintro ⟨⟨hp, -⟩, hs, -⟩
      exact h.elim (fun h => h hp) (fun h => h hs.symm)
    · rw [not_or, not_not, not_not] at h
      rw [ih]
      constructor
      · rintro ⟨hl, hs⟩
        exact ⟨⟨h.1, hl⟩, h.2.symm, hs⟩
      · rintro ⟨⟨-, hl⟩, -, hs⟩
        exact ⟨hl, hs⟩

/-- `verify_chain` accepts the chains whose blocks are linked and sealed. -/
theorem verifyChain_valid_iff (sha256 : Bytes → Digest) (blocks : List (Block F)) :
    (verifyChain sha256 blocks).valid = true ↔
      BlocksLinked blocks ∧ ∀ b ∈ blocks, b.Sealed sha256 :=
  verifyFrom_valid_iff ..

/-- `b` belongs behind `before`: it names the last hash there and carries its own. -/
def Block.Attached (sha256 : Bytes → Digest) (before : List (Block F)) (b : Block F) : Prop :=
  b.prevHash = HashChain.lastHash Block.hash zeroHash before ∧ b.Sealed sha256

private theorem verifyFrom_append (sha256 : Bytes → Digest) (n i : ℕ) (expectedPrev : Bytes)
    {before : List (Block F)}
    (hl : HashChain.Linked Block.prevHash Block.hash expectedPrev before)
    (hs : ∀ b ∈ before, b.Sealed sha256) (rest : List (Block F)) :
    verifyFrom sha256 n i expectedPrev (before ++ rest) =
      verifyFrom sha256 n (i + before.length)
        (HashChain.lastHash Block.hash expectedPrev before) rest := by
  induction before generalizing i expectedPrev with
  | nil => rfl
  | cons b before ih =>
    obtain ⟨hp, hl⟩ := hl
    obtain ⟨hb, hs⟩ := List.forall_mem_cons.mp hs
    have hok : ¬(b.prevHash ≠ expectedPrev ∨ b.computeHash sha256 ≠ b.hash) := by
      rw [not_or, not_not, not_not]
      exact ⟨hp, hb.symm⟩
    rw [List.cons_append, verifyFrom, if_neg hok, ih _ _ hl hs, HashChain.lastHash_cons,
      List.length_cons, Nat.add_right_comm, Nat.add_assoc]

theorem verifyChain_stops {sha256 : Bytes → Digest} {before : List (Block F)}
    (hl : BlocksLinked before) (hs : ∀ b ∈ before, b.Sealed sha256) {b : Block F}
    (hb : ¬b.Attached sha256 before) (rest : List (Block F)) :
    verifyChain sha256 (before ++ b :: rest) =
      ⟨false, (before ++ b :: rest).length, before.length + 1, some before.length⟩ := by
  have hbad : b.prevHash ≠ HashChain.lastHash Block.hash zeroHash before ∨
      b.computeHash sha256 ≠ b.hash := by
    by_contra h
    rw [not_or, not_not, not_not] at h
    exact hb ⟨h.1, h.2.symm⟩
  rw [verifyChain, verifyFrom_append sha256 _ _ _ hl hs, verifyFrom, if_pos hbad, Nat.zero_add]

theorem verifyChain_of_valid {sha256 : Bytes → Digest} {blocks : List (Block F)}
    (hl : BlocksLinked blocks) (hs : ∀ b ∈ blocks, b.Sealed sha256) :
    verifyChain sha256 blocks = ⟨true, blocks.length, blocks.length, none⟩ := by
  have h := verifyFrom_append sha256 blocks.length 0 zeroHash hl hs []
  rw [List.append_nil, Nat.zero_add] at h
  exact h

theorem makeBlock_sealed (sha256 : Bytes → Digest) (now : Tm) (index : UInt64)
    (event : EventPayload F) (prevHash : Bytes) :
    (makeBlock sha256 now index event prevHash).Sealed sha256 := rfl

theorem Chain.lastHash_blocks (c : Chain F) :
    HashChain.lastHash Block.hash zeroHash c.blocks = c.latest.hash := by
  rw [HashChain.lastHash, List.getLast?_eq_getLast_of_ne_nil c.ne_nil]
  rfl

/-- A block made from the end of a valid chain keeps it valid. -/
theorem Chain.verify_pushPersisted {sha256 : Bytes → Digest} {c : Chain F}
    (h : (c.verify sha256).valid = true) {b : Block F} (hp : b.prevHash = c.latest.hash)
    (hs : b.Sealed sha256) : ((c.pushPersisted b).verify sha256).valid = true := by
  obtain ⟨hl, hall⟩ := (verifyChain_valid_iff sha256 c.blocks).mp h
  refine (verifyChain_valid_iff sha256 _).mpr ⟨?_, ?_⟩
  · exact HashChain.linked_append_singleton.mpr ⟨hl, hp.trans c.lastHash_blocks.symm⟩
  · intro d hd
    rcases List.mem_append.mp hd with hd | hd
    · exact hall d hd
    · exact List.mem_singleton.mp hd ▸ hs

end Ledger

import Ledger.Core.Commitment

/-! What `verify_chain` makes of a valid chain after an alteration: where it stops, and the one
alteration it cannot see. -/
namespace Ledger
open Text Json
variable {F : Type} [NumberFloat F] {sha256 : Bytes → Digest}

/-- SHA-256 tells the preimages of the blocks apart and digests none of them to zeros. -/
structure Distinguishes (sha256 : Bytes → Digest) (blocks : List (Block F)) : Prop where
  injective : Set.InjOn sha256 {p | ∃ b ∈ blocks, p = b.preimage}
  nonzero : ∀ b ∈ blocks, (sha256 b.preimage).1 ≠ List.replicate 32 0

def invalidAt (chainLength i : ℕ) : VerifyResult :=
  ⟨false, chainLength, i + 1, some i⟩

/-- The altered list departs from the blocks at position `i`, and not before. -/
structure ChangedAt (i : ℕ) (blocks altered : List (Block F)) : Prop where
  before : altered.take i = blocks.take i
  changed : altered[i]? ≠ blocks[i]?

theorem changedAt_append {before rest rest' : List (Block F)} {b c : Block F} (h : c ≠ b) :
    ChangedAt before.length (before ++ b :: rest) (before ++ c :: rest') where
  before := by rw [List.take_left' rfl, List.take_left' rfl]
  changed := by simpa using h

theorem Block.Sealed.hash_ne_zeroHash {b : Block F} (h : b.Sealed sha256)
    (hz : (sha256 b.preimage).1 ≠ List.replicate 32 0) : b.hash ≠ zeroHash := by
  intro hb
  apply hz
  apply hexText_injective
  rw [← zeroHash_eq_hexText, ← hb, h]
  rfl

section Lawful
variable [LawfulNumberFloat F]

theorem nodup_hash {blocks : List (Block F)} (hl : BlocksLinked blocks)
    (hs : ∀ b ∈ blocks, b.Sealed sha256) (hd : Distinguishes sha256 blocks) :
    (blocks.map Block.hash).Nodup := by
  apply hl.nodup_hash
  · intro b hb c hc h
    have hlen : b.prevHash.length = c.prevHash.length := by
      rw [length_prevHash hl hs hb, length_prevHash hl hs hc]
    have heq : b = c := (hs b hb).eq_of_hash_eq (hs c hc)
      (fun h => hd.injective ⟨b, hb, rfl⟩ ⟨c, hc, rfl⟩ h) hlen h
    rw [heq]
  · exact fun b hb => (hs b hb).hash_ne_zeroHash (hd.nonzero b hb)

theorem not_attached_of_gap {before gap after : List (Block F)} {b : Block F} (hgap : gap ≠ [])
    (hl : BlocksLinked (before ++ gap ++ b :: after))
    (hs : ∀ c ∈ before ++ gap ++ b :: after, c.Sealed sha256)
    (hd : Distinguishes sha256 (before ++ gap ++ b :: after)) : ¬b.Attached sha256 before := by
  intro hb
  have hnodup := nodup_hash hl hs hd
  have hprev : b.prevHash = HashChain.lastHash Block.hash zeroHash (before ++ gap) :=
    (HashChain.linked_append_cons.mp hl).2.1
  rw [hb.1, HashChain.lastHash_append] at hprev
  obtain ⟨c, hc, hlast⟩ : ∃ c ∈ gap, HashChain.lastHash Block.hash
      (HashChain.lastHash Block.hash zeroHash before) gap = c.hash :=
    HashChain.exists_lastHash_eq _ hgap
  rw [hlast] at hprev
  have hmem : c ∈ before ++ gap ++ b :: after := by simp [hc]
  rcases List.eq_nil_or_concat' before with rfl | ⟨before, d, rfl⟩
  · exact (hs c hmem).hash_ne_zeroHash (hd.nonzero c hmem) hprev.symm
  · rw [HashChain.lastHash_append_singleton] at hprev
    rw [List.append_assoc, List.map_append, List.nodup_append] at hnodup
    exact hnodup.2.2 d.hash (by simp) c.hash (List.mem_map_of_mem (by simp [hc])) hprev

/-- A block with a gap before it is not the first block of the gap, and the answer names it. -/
theorem verifyChain_gap {before gap after : List (Block F)} {b d : Block F}
    (hl : BlocksLinked (before ++ b :: gap ++ d :: after))
    (hs : ∀ c ∈ before ++ b :: gap ++ d :: after, c.Sealed sha256)
    (hd : Distinguishes sha256 (before ++ b :: gap ++ d :: after)) (rest : List (Block F)) :
    d ≠ b ∧ verifyChain sha256 (before ++ d :: rest) =
      invalidAt (before ++ d :: rest).length before.length := by
  have hnot : ¬d.Attached sha256 before := not_attached_of_gap (List.cons_ne_nil b gap) hl hs hd
  rw [List.append_assoc, List.cons_append] at hl
  obtain ⟨hbefore, hp, -⟩ := HashChain.linked_append_cons.mp hl
  constructor
  · rintro rfl
    exact hnot ⟨hp, hs d (by simp)⟩
  · exact verifyChain_stops hbefore (fun c hc => hs c (by simp [hc])) hnot rest

omit [LawfulNumberFloat F] in
theorem Block.Attached.append {before : List (Block F)} {c : Block F}
    (hc : c.Attached sha256 before) (hl : BlocksLinked before)
    (hs : ∀ b ∈ before, b.Sealed sha256) :
    BlocksLinked (before ++ [c]) ∧ ∀ b ∈ before ++ [c], b.Sealed sha256 := by
  refine ⟨HashChain.linked_append_singleton.mpr ⟨hl, hc.1⟩, fun b hb => ?_⟩
  rcases List.mem_append.mp hb with hb | hb
  · exact hs b hb
  · exact List.mem_singleton.mp hb ▸ hc.2

/-- The alterations of a valid chain: `c` in the place of a block, a block left out, two blocks
exchanged. -/
structure TamperingDetected (sha256 : Bytes → Digest) (blocks : List (Block F)) (c : Block F) :
    Prop where
  replaced : ∀ before b after, blocks = before ++ b :: after → c ≠ b →
    ¬c.Attached sha256 before →
      verifyChain sha256 (before ++ c :: after) = invalidAt blocks.length before.length
  /-- The block behind the replacement still names the hash of the block that was there. -/
  rehashed : ∀ before b after, blocks = before ++ b :: after → c ≠ b →
    c.Attached sha256 before → after ≠ [] →
      verifyChain sha256 (before ++ c :: after) = invalidAt blocks.length (before.length + 1)
  undetected : ∀ before b, blocks = before ++ [b] → c ≠ b → c.Attached sha256 before →
    (verifyChain sha256 (before ++ [c])).valid = true
  deleted : ∀ before b after, blocks = before ++ b :: after → after ≠ [] →
    ChangedAt before.length blocks (before ++ after) ∧
      verifyChain sha256 (before ++ after) = invalidAt (blocks.length - 1) before.length
  exchanged : ∀ before b between d after,
    blocks = before ++ b :: (between ++ d :: after) →
      ChangedAt before.length blocks (before ++ d :: (between ++ b :: after)) ∧
        verifyChain sha256 (before ++ d :: (between ++ b :: after)) =
          invalidAt blocks.length before.length

/-- Every alteration of a valid chain is found where it was made, or right behind it when the
block was rehashed; only a rehashed last block goes unseen. -/
theorem tampering_detected {blocks : List (Block F)} {c : Block F}
    (hvalid : (verifyChain sha256 blocks).valid = true)
    (hd : Distinguishes sha256 (c :: blocks)) : TamperingDetected sha256 blocks c := by
  obtain ⟨hl, hs⟩ := (verifyChain_valid_iff sha256 blocks).mp hvalid
  have hd' : Distinguishes sha256 blocks := by
    refine ⟨hd.injective.mono ?_, fun b hb => hd.nonzero b (by simp [hb])⟩
    rintro p ⟨b, hb, rfl⟩
    exact ⟨b, by simp [hb], rfl⟩
  constructor
  case replaced =>
    rintro before b after rfl - hc
    have hl' := (HashChain.linked_append_cons.mp hl).1
    rw [verifyChain_stops hl' (fun d hd => hs d (by simp [hd])) hc, invalidAt]
    simp
  case rehashed =>
    rintro before b after rfl hne hc hafter
    obtain ⟨hl', hp, hrest⟩ := HashChain.linked_append_cons.mp hl
    obtain ⟨d, after, rfl⟩ := List.exists_cons_of_ne_nil hafter
    have hb : b ∈ before ++ b :: d :: after := by simp
    have hlen : c.prevHash.length = b.prevHash.length := by rw [hc.1, hp]
    have hhash : c.hash ≠ b.hash := fun h => hne (hc.2.eq_of_hash_eq (hs b hb)
      (fun h => hd.injective ⟨c, by simp, rfl⟩ ⟨b, by simp, rfl⟩ h) hlen h)
    obtain ⟨hlinked, hsealed⟩ := hc.append hl' fun e he => hs e (by simp [he])
    have hnot : ¬d.Attached sha256 (before ++ [c]) := by
      intro h
      apply hhash
      have hlast : HashChain.lastHash Block.hash zeroHash (before ++ [c]) = c.hash :=
        HashChain.lastHash_append_singleton ..
      rw [← hlast, ← h.1]
      exact hrest.1
    have hstop := verifyChain_stops hlinked hsealed hnot after
    rw [List.append_assoc, List.singleton_append] at hstop
    rw [hstop, invalidAt]
    simp
  case undetected =>
    rintro before b rfl - hc
    have hl' := (HashChain.linked_append_cons.mp hl).1
    have happend := hc.append hl' fun e he => hs e (by simp [he])
    exact (verifyChain_valid_iff sha256 _).mpr happend
  case deleted =>
    rintro before b after rfl hafter
    obtain ⟨d, after, rfl⟩ := List.exists_cons_of_ne_nil hafter
    have hsplit : before ++ b :: d :: after = before ++ [b] ++ d :: after := by simp
    rw [hsplit] at hl hs hd'
    obtain ⟨hne, hstop⟩ := verifyChain_gap hl hs hd' after
    refine ⟨changedAt_append hne, ?_⟩
    rw [hstop]
    simp
  case exchanged =>
    rintro before b between d after rfl
    have hsplit : before ++ b :: (between ++ d :: after) =
        before ++ b :: between ++ d :: after := by simp
    have hlen : (before ++ b :: (between ++ d :: after)).length =
        (before ++ d :: (between ++ b :: after)).length := by simp
    rw [hlen]
    rw [hsplit] at hl hs hd'
    obtain ⟨hne, hstop⟩ := verifyChain_gap hl hs hd' (between ++ b :: after)
    exact ⟨changedAt_append hne, hstop⟩

end Lawful

def twoBlocks : List (Block Numeral) :=
  [genesis sampleSha256 sampleClock, makeBlock sampleSha256 sampleClock 1 sampleEvent
    (genesis (F := Numeral) sampleSha256 sampleClock).hash]

theorem twoBlocks_distinguished :
    Distinguishes sampleSha256 (genesis sampleSha256 sampleClock :: twoBlocks) := by
  have hg : sampleSha256 (genesis (F := Numeral) sampleSha256 sampleClock).preimage =
      genesisDigest := rfl
  have hb : sampleSha256 (makeBlock (F := Numeral) sampleSha256 sampleClock 1 sampleEvent
      (genesis (F := Numeral) sampleSha256 sampleClock).hash).preimage = sampleDigest := rfl
  have hne : genesisDigest ≠ sampleDigest := by decide
  constructor
  · rintro _ ⟨b, hb', rfl⟩ _ ⟨c, hc', rfl⟩ h
    simp only [twoBlocks, List.mem_cons, List.not_mem_nil, or_false] at hb' hc'
    rcases hb' with rfl | rfl | rfl <;> rcases hc' with rfl | rfl | rfl <;>
      first | rfl | exact absurd (hg.symm.trans (h.trans hb)) hne |
        exact absurd (hg.symm.trans (h.symm.trans hb)) hne
  · simp only [twoBlocks, List.forall_mem_cons, hg, hb]
    decide

theorem tampering_detected_sample :
    verifyChain sampleSha256 twoBlocks.tail = invalidAt 1 0 := by
  have hvalid : (verifyChain sampleSha256 twoBlocks).valid = true := by
    refine (verifyChain_valid_iff _ _).mpr ⟨⟨rfl, rfl, trivial⟩, ?_⟩
    simp [twoBlocks, genesis, makeBlock_sealed]
  have hdetected := tampering_detected hvalid twoBlocks_distinguished
  exact (hdetected.deleted [] _ _ rfl (by simp)).2

end Ledger

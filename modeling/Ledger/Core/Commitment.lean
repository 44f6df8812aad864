import Ledger.Core.Chain

/-! The hash preimage can be taken apart again, and so the last hash of a verified chain
commits to every block in it. -/
namespace Ledger
open Text Json
variable {F : Type} [NumberFloat F]

theorem EventPayload.dump_head (e : EventPayload F) :
    ∃ t, e.dump = 0x7B :: 0x22 :: 0x61 :: t := by
  have hkey : escape (ascii "actor") = 0x61 :: ascii "ctor" := by decide
  have hbrace : ascii "\x7b" = [0x7B] := by decide
  have hquote : ascii "\"" = [0x22] := by decide
  rw [dump, toJson_eq, text, members, textMembers, hkey, hbrace, hquote]
  simp only [List.append_assoc, List.cons_append, List.nil_append]
  exact ⟨_, rfl⟩

theorem zeroHash_eq_hexText : zeroHash = hexText (List.replicate 32 0) := by
  decide

theorem Block.Sealed.length_hash {sha256 : Bytes → Digest} {b : Block F} (h : b.Sealed sha256) :
    b.hash.length = 64 := by
  rw [h]
  exact length_computeHash ..

theorem length_prevHash {sha256 : Bytes → Digest} {xs : List (Block F)} (hl : BlocksLinked xs)
    (hs : ∀ b ∈ xs, b.Sealed sha256) {b : Block F} (hb : b ∈ xs) : b.prevHash.length = 64 := by
  rcases hl.prev_mem hb with h | ⟨c, hc, h⟩
  · rw [h]; rfl
  · rw [h]; exact (hs c hc).length_hash

section Lawful
variable [LawfulNumberFloat F]

theorem EventPayload.dump_injective : Function.Injective (dump : EventPayload F → Bytes) := by
  intro e e' h
  have hj : e.toJson = e'.toJson := text_injOn e.toJson_valid e'.toJson_valid h
  have hd := e.fromJson_toJson
  simp only [hj] at hd
  exact Except.ok.inj (hd.symm.trans e'.fromJson_toJson)

theorem EventPayload.dump_suffix {e e' : EventPayload F} {u : Bytes}
    (h : e.dump = u ++ e'.dump) : u = [] := by
  obtain ⟨t, ht⟩ := e'.dump_head
  have hv := e.toJson_valid
  have hv' := e'.toJson_valid
  rw [dump, dump, toJson_eq, toJson_eq] at h
  rw [toJson_eq] at hv hv'
  rw [dump, toJson_eq] at ht
  exact object_text_suffix hv hv' (by unfold Nest.Closer; decide) ht h

/-- The encoding under the hash is unambiguous although nothing separates its parts. -/
theorem preimage_injective {i i' : UInt64} {ts ts' : Bytes} {e e' : EventPayload F}
    {prev prev' : Bytes} (hlen : prev.length = prev'.length)
    (h : preimage i ts e prev = preimage i' ts' e' prev') :
    i = i' ∧ ts = ts' ∧ e = e' ∧ prev = prev' := by
  unfold preimage at h
  obtain ⟨hpre, rfl⟩ := List.append_inj' h hlen
  rw [List.append_assoc, List.append_assoc] at hpre
  obtain ⟨hi, hrest⟩ := List.append_inj hpre (by simp)
  have key {ts ts' : Bytes} {e e' : EventPayload F} (h : ts ++ e.dump = ts' ++ e'.dump)
      (hle : ts.length ≤ ts'.length) : ts = ts' ∧ e = e' := by
    obtain ⟨u, rfl⟩ := List.prefix_of_prefix_length_le (List.prefix_append ts e.dump)
      (h ▸ List.prefix_append ts' e'.dump) hle
    rw [List.append_assoc] at h
    have hu := List.append_cancel_left h
    obtain rfl := EventPayload.dump_suffix hu
    exact ⟨(List.append_nil _).symm, EventPayload.dump_injective hu⟩
  refine ⟨littleEndian_injective hi, ?_⟩
  rcases le_total ts.length ts'.length with hle | hle
  · obtain ⟨rfl, rfl⟩ := key hrest hle
    exact ⟨rfl, rfl, rfl⟩
  · obtain ⟨rfl, rfl⟩ := key hrest.symm hle
    exact ⟨rfl, rfl, rfl⟩

/-- The index, the timestamp, the event and the previous hash can be read off what is hashed. -/
theorem preimage_uniquely_decodable {i i' : UInt64} {ts ts' : Bytes} {e e' : EventPayload F}
    {prev prev' : Bytes} (hprev : prev.length = 64) (hprev' : prev'.length = 64)
    (h : preimage i ts e prev = preimage i' ts' e' prev') :
    i = i' ∧ ts = ts' ∧ e = e' ∧ prev = prev' := by
  have hlen : prev.length = prev'.length := by rw [hprev, hprev']
  exact preimage_injective hlen h

variable {sha256 : Bytes → Digest}

theorem Block.Sealed.eq_of_hash_eq {b c : Block F} (hb : b.Sealed sha256) (hc : c.Sealed sha256)
    (hinj : sha256 b.preimage = sha256 c.preimage → b.preimage = c.preimage)
    (hlen : b.prevHash.length = c.prevHash.length) (h : b.hash = c.hash) : b = c := by
  have hsha : sha256 b.preimage = sha256 c.preimage := by
    refine Subtype.ext (hexText_injective ?_)
    exact hb.symm.trans (h.trans hc)
  obtain ⟨hi, ht, he, hp⟩ := preimage_injective hlen (hinj hsha)
  obtain ⟨i, ts, e, p, hash⟩ := b
  obtain ⟨i', ts', e', p', hash'⟩ := c
  simp only at hi ht he hp h
  subst hi ht he hp h
  rfl

/-- Two verified chains that end in the same hash are the same chain. -/
theorem verified_last_hash_commits {xs ys : List (Block F)}
    (hinj : Set.InjOn sha256 {p | ∃ b ∈ xs ++ ys, p = b.preimage})
    (hzero : ∀ b ∈ xs ++ ys, (sha256 b.preimage).1 ≠ List.replicate 32 0)
    (hx : xs ≠ []) (hy : ys ≠ []) (hvx : (verifyChain sha256 xs).valid = true)
    (hvy : (verifyChain sha256 ys).valid = true)
    (hlast : (xs.getLast hx).hash = (ys.getLast hy).hash) : xs = ys := by
  obtain ⟨hlx, hsx⟩ := (verifyChain_valid_iff sha256 xs).mp hvx
  obtain ⟨hly, hsy⟩ := (verifyChain_valid_iff sha256 ys).mp hvy
  have hnz {b : Block F} (hb : b ∈ xs ++ ys) (hs : b.Sealed sha256) : b.hash ≠ zeroHash := by
    intro h
    refine hzero b hb (hexText_injective ?_)
    rw [← zeroHash_eq_hexText, ← h, hs]
    rfl
  refine hlx.eq_of_lastHash_eq hly (fun b hb c hc h => ?_)
    (fun b hb => hnz (List.mem_append_left _ hb) (hsx b hb))
    (fun c hc => hnz (List.mem_append_right _ hc) (hsy c hc)) ?_
  · refine (hsx b hb).eq_of_hash_eq (hsy c hc) (fun h => ?_) ?_ h
    · exact hinj ⟨b, List.mem_append_left _ hb, rfl⟩ ⟨c, List.mem_append_right _ hc, rfl⟩ h
    · rw [length_prevHash hlx hsx hb, length_prevHash hly hsy hc]
  · rw [HashChain.lastHash, HashChain.lastHash, List.getLast?_eq_getLast_of_ne_nil hx,
      List.getLast?_eq_getLast_of_ne_nil hy]
    exact hlast

end Lawful

def writtenGenesis : Block Numeral where
  index := 0
  timestamp := ascii "2026-09-01T00:00:00Z"
  event := genesisEvent
  prevHash := zeroHash
  hash := ascii "ad87254549112bcfe59e4032fffa302406e4b24fc77835d03059f6778c2ced73"

theorem writtenGenesis_preimage :
    writtenGenesis.preimage = (genesis (F := Numeral) sampleSha256 sampleClock).preimage := by
  have hts : ascii "2026-09-01T00:00:00Z" = nowRfc3339 sampleClock := by decide
  exact congrArg (preimage (F := Numeral) 0 · genesisEvent zeroHash) hts

theorem preimage_uniquely_decodable_genesis :
    writtenGenesis.index = 0 ∧ writtenGenesis.timestamp = nowRfc3339 sampleClock ∧
      writtenGenesis.event = genesisEvent ∧ writtenGenesis.prevHash = zeroHash :=
  preimage_uniquely_decodable rfl rfl writtenGenesis_preimage

def writtenBlock : Block Numeral where
  index := 1
  timestamp := ascii "2026-09-01T00:00:00Z"
  event := sampleEvent
  prevHash := ascii "ad87254549112bcfe59e4032fffa302406e4b24fc77835d03059f6778c2ced73"
  hash := ascii "d81495d487ffc28988fc98d797c4f6914b5db56d12afaaf29815929e32b0c1eb"

def madeBlock : Block Numeral :=
  makeBlock sampleSha256 sampleClock 1 sampleEvent
    (genesis (F := Numeral) sampleSha256 sampleClock).hash

theorem writtenBlock_preimage : writtenBlock.preimage = madeBlock.preimage := by
  have hts : writtenBlock.timestamp = madeBlock.timestamp := by decide
  have hprev : writtenBlock.prevHash = madeBlock.prevHash := by decide
  unfold Block.preimage
  rw [hts, hprev]
  rfl

theorem verified_last_hash_commits_sample :
    [writtenGenesis, writtenBlock] = [genesis sampleSha256 sampleClock, madeBlock] := by
  have hpreimage : ∀ b ∈ [writtenGenesis, writtenBlock] ++
      [genesis sampleSha256 sampleClock, madeBlock],
      b.preimage = writtenGenesis.preimage ∨ b.preimage = writtenBlock.preimage := by
    simp [writtenGenesis_preimage, writtenBlock_preimage]
  have hgenesis : sampleSha256 writtenGenesis.preimage = genesisDigest := rfl
  have hblock : sampleSha256 writtenBlock.preimage = sampleDigest := rfl
  have hne : genesisDigest ≠ sampleDigest := by decide
  refine @verified_last_hash_commits _ _ _ sampleSha256 _ _ ?_ ?_ (by simp) (by simp) ?_ ?_ ?_
  · rintro _ ⟨b, hb, rfl⟩ _ ⟨c, hc, rfl⟩ h
    rcases hpreimage b hb with hb | hb
    · rcases hpreimage c hc with hc | hc
      · rw [hb, hc]
      · rw [hb, hc, hgenesis, hblock] at h
        exact absurd h hne
    · rcases hpreimage c hc with hc | hc
      · rw [hb, hc, hgenesis, hblock] at h
        exact absurd h.symm hne
      · rw [hb, hc]
  · intro b hb
    rcases hpreimage b hb with hb | hb
    · rw [hb, hgenesis]
      decide
    · rw [hb, hblock]
      decide
  · decide
  · decide
  · decide

end Ledger

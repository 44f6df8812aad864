import Ledger.Core.Integrity
import Ledger.Core.Server

/-! Indices and positions: `append` counts on from the last index, the writer and the range query
count blocks, and `verify_chain` looks at neither. -/
namespace Ledger
open Text Json
variable {F : Type} [NumberFloat F] {sha256 : Bytes → Digest}

theorem Chain.append_eq_pushPersisted (now : Tm) (c : Chain F) (event : EventPayload F) :
    c.append sha256 now event = c.pushPersisted
      (makeBlock sha256 now (c.latest.index + 1) event c.latest.hash) := rfl

/-- Where the last index is the last position, `append` makes the writer's block. -/
theorem Chain.append_eq_buildNext (now : Tm) {c : Chain F} (event : EventPayload F)
    (h : c.latest.index + 1 = UInt64.ofNat c.size) :
    c.append sha256 now event = c.pushPersisted (buildNext sha256 now c event) := by
  rw [append_eq_pushPersisted, h]
  rfl

theorem Chain.latest_append (now : Tm) (c : Chain F) (event : EventPayload F) :
    (c.append sha256 now event).latest =
      makeBlock sha256 now (c.latest.index + 1) event c.latest.hash := by
  simp [append, latest]

theorem IndexedFrom.next {c : Chain F} (h : IndexedFrom 0 c) (hroom : c.size < 2 ^ 64) :
    c.latest.index + 1 = UInt64.ofNat c.size := by
  have hpos : 0 < c.size := List.length_pos_of_ne_nil c.ne_nil
  have hlast : c.blocks[c.size - 1]? = some c.latest := by
    rw [Chain.size, ← List.getLast?_eq_getElem?, List.getLast?_eq_getLast_of_ne_nil c.ne_nil]
    rfl
  have hindex : c.latest.index.toNat = c.size - 1 := h _ _ (Nat.zero_le _) hlast
  apply UInt64.toNat.inj
  rw [UInt64.toNat_add, hindex, UInt64.toNat_ofNat_of_lt' hroom, UInt64.toNat_one]
  have hsum : c.size - 1 + 1 = c.size := by omega
  rw [hsum]
  exact Nat.mod_eq_of_lt hroom

theorem filter_range_eq {α : Type} {f : α → ℕ} {l : List α} {n : ℕ}
    (h : ∀ i x, l[i]? = some x → f x = n + i) (a b : ℕ) :
    l.filter (fun x => decide (a ≤ f x ∧ f x ≤ b)) = (l.drop (a - n)).take (b + 1 - max a n) := by
  induction l generalizing n with
  | nil => simp
  | cons x l ih =>
    have hx : f x = n := h 0 x rfl
    have hl : ∀ i y, l[i]? = some y → f y = n + 1 + i := by
      intro i y hy
      rw [h (i + 1) y (by simpa using hy)]
      omega
    have ih := ih hl
    rw [List.filter_cons, ih, hx]
    by_cases ha : a ≤ n
    · by_cases hb : n ≤ b
      · have hcount : b + 1 - max a n = (b + 1 - max a (n + 1)) + 1 := by omega
        have hn : a - n = 0 := by omega
        have hn' : a - (n + 1) = 0 := by omega
        rw [if_pos (by simp [ha, hb]), hn, hn', hcount, List.drop_zero, List.drop_zero,
          List.take_succ_cons]
      · have hcount : b + 1 - max a n = 0 := by omega
        have hcount' : b + 1 - max a (n + 1) = 0 := by omega
        rw [if_neg (by simp [hb]), hcount, hcount', List.take_zero, List.take_zero]
    · have hdrop : a - n = (a - (n + 1)) + 1 := by omega
      have hmax : max a n = max a (n + 1) := by omega
      rw [if_neg (by simp [ha]), hdrop, hmax, List.drop_succ_cons]

/-- The position range is the index range. -/
theorem IndexedFrom.installBlocks {c : Chain F} (h : IndexedFrom 0 c) (hroom : c.size < 2 ^ 64)
    {a b : ℕ} (hab : a ≤ b) (ha : a < c.size) (hb : b < 2 ^ 64) :
    installBlocks c (some (decimal a)) (some (decimal b)) =
      .ok ⟨c.blocks.filter fun x => decide (a ≤ x.index.toNat ∧ x.index.toNat ≤ b), c.size⟩ := by
  have hle : ¬min b (c.size - 1) < a := by omega
  have hfilter := filter_range_eq (f := fun x : Block F => x.index.toNat) (l := c.blocks) (n := 0)
    (fun i x hx => by rw [h i x (Nat.zero_le i) hx, Nat.zero_add]) a b
  have htake : (c.blocks.drop a).take (min b (c.size - 1) + 1 - a) =
      (c.blocks.drop a).take (b + 1 - a) := by
    rcases Nat.le_total b (c.size - 1) with hbc | hbc
    · rw [Nat.min_eq_left hbc]
    · have hlen : (c.blocks.drop a).length = c.size - a := List.length_drop
      rw [Nat.min_eq_right hbc, List.take_of_length_le (by omega),
        List.take_of_length_le (by omega)]
  rw [Ledger.installBlocks, parseIndex_decimal "from" (by omega), parseIndex_decimal "to" hb]
  change (if min b (c.size - 1) < a then _ else _ : Except _ _) = _
  rw [if_neg hle, htake, hfilter, Nat.sub_zero, Nat.max_zero]
  rfl

/-- The chains that grow from `boot` by `append` and by the writer's two steps. -/
inductive Built (sha256 : Bytes → Digest) (boot : Chain F) : Chain F → Prop
  | boot : Built sha256 boot boot
  | append (c : Chain F) (now : Tm) (event : EventPayload F) (h : Built sha256 boot c)
      (hroom : c.size + 1 < 2 ^ 64) : Built sha256 boot (c.append sha256 now event)
  | written (c : Chain F) (now : Tm) (event : EventPayload F) (h : Built sha256 boot c)
      (hroom : c.size + 1 < 2 ^ 64) :
    Built sha256 boot (c.pushPersisted (buildNext sha256 now c event))

/-- What indices that are positions give. -/
structure PositionallyIndexed (sha256 : Bytes → Digest) (c : Chain F) : Prop where
  verified : (c.verify sha256).valid = true
  indexed : IndexedFrom 0 c
  next : ∀ now event, c.append sha256 now event = c.pushPersisted (buildNext sha256 now c event)
  range : ∀ a b, a ≤ b → a < c.size → b < 2 ^ 64 →
    installBlocks c (some (decimal a)) (some (decimal b)) =
      .ok ⟨c.blocks.filter fun x => decide (a ≤ x.index.toNat ∧ x.index.toNat ≤ b), c.size⟩

theorem Built.indexed {boot c : Chain F} (hvalid : (boot.verify sha256).valid = true)
    (hindexed : IndexedFrom 0 boot) (hroom : boot.size < 2 ^ 64) (h : Built sha256 boot c) :
    (c.verify sha256).valid = true ∧ IndexedFrom 0 c ∧ c.size < 2 ^ 64 := by
  have written (c : Chain F) (now : Tm) (event : EventPayload F) (hc : c.size + 1 < 2 ^ 64)
      (hv : (c.verify sha256).valid = true) (hi : IndexedFrom 0 c) :
      ((c.pushPersisted (buildNext sha256 now c event)).verify sha256).valid = true ∧
        IndexedFrom 0 (c.pushPersisted (buildNext sha256 now c event)) ∧
        (c.pushPersisted (buildNext sha256 now c event)).size < 2 ^ 64 := by
    refine ⟨verify_grows sha256 c now event hc hv, indexedFrom_grows sha256 0 c now event hc hi, ?_⟩
    rw [Chain.size_pushPersisted]
    exact hc
  induction h with
  | boot => exact ⟨hvalid, hindexed, hroom⟩
  | written c now event h hc ih => exact written c now event hc ih.1 ih.2.1
  | append c now event h hc ih =>
    rw [Chain.append_eq_buildNext now event (ih.2.1.next ih.2.2)]
    exact written c now event hc ih.1 ih.2.1

theorem Reachable.built {capacity : ℕ} {Log : Type}
    {append : Log → Block F → Except WriteError Unit → Log → Prop} {log : Log} {boot : Chain F}
    {s : State F Log} (h : Reachable sha256 capacity append log boot s) :
    Built sha256 boot s.chain :=
  h.chain (P := Built sha256 boot) (fun c now event hc h => .written c now event h hc) .boot

/-- On any chain `append` and the writer link their block to the same hash, and number it alike
just when the last index is the last position. On the chains that grow from one indexed by
position all four readings of an index agree. -/
theorem indices_are_positions {boot c : Chain F} (hvalid : (boot.verify sha256).valid = true)
    (hindexed : IndexedFrom 0 boot) (hroom : boot.size < 2 ^ 64) (h : Built sha256 boot c) :
    PositionallyIndexed sha256 c ∧ ∀ (d : Chain F) (now : Tm) (event : EventPayload F),
      (d.append sha256 now event).latest.prevHash = (buildNext sha256 now d event).prevHash ∧
        ((d.append sha256 now event).latest.index = (buildNext sha256 now d event).index ↔
          d.latest.index + 1 = UInt64.ofNat d.size) := by
  obtain ⟨hv, hi, hsize⟩ := h.indexed hvalid hindexed hroom
  constructor
  · exact {
      verified := hv
      indexed := hi
      next := fun now event => Chain.append_eq_buildNext now event (hi.next hsize)
      range := fun a b hab ha hb => hi.installBlocks hsize hab ha hb }
  · intro d now event
    rw [Chain.latest_append]
    exact ⟨rfl, Iff.rfl⟩

theorem freshChain_indexed (sha256 : Bytes → Digest) (now : Tm) :
    ((Chain.fresh (F := F) sha256 now).verify sha256).valid = true ∧
      IndexedFrom 0 (Chain.fresh (F := F) sha256 now) := by
  constructor
  · refine (verifyChain_valid_iff _ _).mpr ⟨⟨rfl, trivial⟩, ?_⟩
    simp [Chain.fresh, genesis, makeBlock_sealed]
  · intro i b _ hb
    obtain ⟨hi, rfl⟩ := List.getElem?_eq_some_iff.mp hb
    obtain rfl : i = 0 := by simpa [Chain.fresh] using hi
    rfl

theorem indices_are_positions_sample :
    PositionallyIndexed sampleSha256
      ((Chain.fresh (F := Numeral) sampleSha256 sampleClock).append sampleSha256 sampleClock
        sampleEvent) := by
  obtain ⟨hvalid, hindexed⟩ := freshChain_indexed (F := Numeral) sampleSha256 sampleClock
  have hroom : (Chain.fresh (F := Numeral) sampleSha256 sampleClock).size + 1 < 2 ^ 64 := by
    decide
  exact (indices_are_positions hvalid hindexed (by omega)
    (.append _ sampleClock sampleEvent .boot hroom)).1

/-- A block that numbers itself seven, alone in its ledger, verifies. -/
theorem verified_chain_misnumbered :
    ¬ ∀ (blocks : List (Block Numeral)), (verifyChain sampleSha256 blocks).valid = true →
      ∀ (i : ℕ) (b : Block Numeral), blocks[i]? = some b → b.index.toNat = i := by
  intro h
  have hvalid : (verifyChain sampleSha256
      [makeBlock (F := Numeral) sampleSha256 sampleClock 7 sampleEvent zeroHash]).valid = true := by
    refine (verifyChain_valid_iff _ _).mpr ⟨⟨rfl, trivial⟩, ?_⟩
    simp [makeBlock_sealed]
  have hindex := h _ hvalid 0 _ rfl
  cases hindex

end Ledger

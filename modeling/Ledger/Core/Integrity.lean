import Ledger.Core.Recovery
import Ledger.Core.Replies

/-! Integrity of the ledger over whole runs: disk, chain, feed and replies agree, each a little
behind the one before it. -/
namespace Ledger
open Text Json
variable {F : Type} [NumberFloat F] {sha256 : Bytes → Digest} {capacity : ℕ}

/-- The writes of `append_block` with the outcomes `Allowed` leaves to the system. -/
def Appends (Allowed : OFStream → Block F → WriteOutcome → Prop) (os : OFStream) (b : Block F)
    (result : Except WriteError Unit) (os' : OFStream) : Prop :=
  ∃ io, Allowed os b io ∧ appendBlock os b io = (result, os')

theorem Appends.of_appendBlock {Allowed : OFStream → Block F → WriteOutcome → Prop}
    {os os' : OFStream} {b : Block F} {io : WriteOutcome} {result : Except WriteError Unit}
    (hio : Allowed os b io) (h : appendBlock os b io = (result, os')) :
    Appends Allowed os b result os' :=
  ⟨io, hio, h⟩

/-- A write may be cut anywhere in its JSON text. -/
abbrev AnyOutcome (_ : OFStream) (_ : Block F) (_ : WriteOutcome) : Prop := True

theorem Encodes.exists_line {lines : List Bytes} {blocks : List (Block F)}
    (h : Encodes lines blocks) {b : Block F} (hb : b ∈ blocks) :
    ∃ line ∈ lines, Block.decode line = .ok b := by
  induction h with
  | nil => cases hb
  | @cons line c lines blocks hc _ ih =>
    rcases List.mem_cons.mp hb with rfl | hb
    · exact ⟨line, by simp, hc⟩
    · obtain ⟨line', hl, hd⟩ := ih hb
      exact ⟨line', by simp [hl], hd⟩

theorem verify_grows (sha256 : Bytes → Digest) :
    Grows (F := F) sha256 fun c => (c.verify sha256).valid = true :=
  fun _ _ _ _ h => Chain.verify_pushPersisted h rfl (makeBlock_sealed ..)

/-- The finished lines are the blocks of the chain and the one persisted ahead of it. -/
structure OnDisk (boot : Chain F) (s : State F OFStream) : Prop where
  lines : Encodes (finished 0x0A s.log.file) (boot.blocks ++ s.persisted.map Prod.snd)
  unfinished : s.log.failed = false → unfinished 0x0A s.log.file = []

section Lawful
variable [LawfulNumberFloat F] {Allowed : OFStream → Block F → WriteOutcome → Prop}

theorem OnDisk.step {boot : Chain F} {s t : State F OFStream} (hs : OnDisk boot s)
    (h : Step sha256 capacity (Appends Allowed) s t) : OnDisk boot t := by
  obtain ⟨lines, hun⟩ := hs
  cases h with
  | persist id b os h ha =>
    obtain ⟨io, -, happ⟩ := ha
    obtain ⟨hb, hf, rfl⟩ := appendBlock_ok happ
    have hnl := newline_not_mem hb
    refine ⟨?_, fun _ => unfinished_append_line _ hnl⟩
    rw [Block.line, finished_append_line _ hnl, hun hf, List.map_append, ← List.append_assoc]
    exact lines.append (.cons (Block.decode_text hb) .nil)
  | persistFailed id b e os h ha =>
    obtain ⟨io, -, happ⟩ := ha
    rcases appendBlock_error happ with rfl | ⟨hb, -, n, -, rfl⟩
    · exact ⟨lines, hun⟩
    · have hnl : (0x0A : UInt8) ∉ (text b.toJson).take n := fun hm =>
        newline_not_mem hb (List.mem_of_mem_take hm)
      refine ⟨?_, fun hf => by cases hf⟩
      rw [finished_append_of_not_mem _ hnl]
      exact lines
  | arrive | accept | refuse | close | pop | drained | build | push | publish | reply | satisfied
  | receive | read => exact ⟨lines, hun⟩

theorem Reachable.onDisk {os : OFStream} {boot : Chain F} {s : State F OFStream}
    (h : Reachable sha256 capacity (Appends Allowed) os boot s)
    (hfile : Encodes (finished 0x0A os.file) boot.blocks) (hun : unfinished 0x0A os.file = []) :
    OnDisk boot s := by
  induction h with
  | refl => exact ⟨by simpa [State.boot] using hfile, fun _ => hun⟩
  | tail _ hstep ih => exact ih.step hstep

omit [LawfulNumberFloat F] in
theorem Reachable.published_wellFormed {os : OFStream} {boot : Chain F} {s : State F OFStream}
    (h : Reachable sha256 capacity (Appends Allowed) os boot s) :
    ∀ b ∈ s.published, b.WellFormed := by
  have hpersisted : ∀ p ∈ s.persisted, p.2.WellFormed := by
    induction h with
    | refl =>
      intro p hp
      cases hp
    | tail _ hstep ih =>
      cases hstep with
      | persist id b os h ha =>
        obtain ⟨io, -, happ⟩ := ha
        intro p hp
        rcases List.mem_append.mp hp with hp | hp
        · exact ih p hp
        · rw [List.mem_singleton.mp hp]
          exact (appendBlock_ok happ).1
      | arrive | accept | refuse | close | pop | drained | build | persistFailed | push | publish
      | reply | satisfied | receive | read => exact ih
  intro b hb
  obtain ⟨p, hp, rfl⟩ := List.mem_map.mp (h.copies.published_prefix.subset hb)
  apply hpersisted p
  rw [h.copies.persisted]
  exact List.mem_append_left _ hp

/-- What every reachable state keeps of the ledger. -/
structure LedgerIntegrity (sha256 : Bytes → Digest) (boot : Chain F) (s : State F OFStream) :
    Prop where
  verified : (s.chain.verify sha256).valid = true
  indexed : ∀ (i : ℕ) (b : Block F), s.chain.blocks[i]? = some b → b.index.toNat = i
  on_disk : Encodes (finished 0x0A s.log.file)
    (s.chain.blocks ++ s.writer.unpushed.map Prod.snd)
  ahead : s.writer.unpushed.length ≤ 1
  grown : s.chain.blocks = boot.blocks ++ s.appended.map Prod.snd
  published : s.published <+: s.appended.map Prod.snd
  replied : (successes s.replies).map Prod.snd <+: s.published
  readers : ∀ blocks ∈ s.snapshots, blocks <+: s.chain.blocks
  seen : ∀ b, b ∈ s.published ∨ (∃ blocks ∈ s.snapshots, b ∈ blocks) →
    b ∈ s.chain.blocks ∧ ∃ line ∈ finished 0x0A s.log.file, Block.decode line = .ok b

/-- The ledger stays whole in every run, whatever order the threads step in and wherever the
writes fail. -/
theorem ledger_integrity {os : OFStream} {boot : Chain F} {s : State F OFStream}
    (hvalid : (boot.verify sha256).valid = true)
    (hindex : ∀ (i : ℕ) (b : Block F), boot.blocks[i]? = some b → b.index.toNat = i)
    (hfile : Encodes (finished 0x0A os.file) boot.blocks) (hun : unfinished 0x0A os.file = [])
    (h : Reachable sha256 capacity (Appends AnyOutcome) os boot s) :
    LedgerIntegrity sha256 boot s := by
  have hc := h.copies
  have hlines : Encodes (finished 0x0A s.log.file)
      (s.chain.blocks ++ s.writer.unpushed.map Prod.snd) := by
    rw [hc.chain, List.append_assoc, ← List.map_append, ← hc.persisted]
    exact (h.onDisk hfile hun).lines
  have hpublished : s.published <+: s.appended.map Prod.snd := hc.published_prefix
  have hseen : ∀ b, b ∈ s.published ∨ (∃ blocks ∈ s.snapshots, b ∈ blocks) →
      b ∈ s.chain.blocks := by
    rintro b (hb | ⟨blocks, hblocks, hb⟩)
    · rw [hc.chain]
      exact List.mem_append_right _ (hpublished.subset hb)
    · exact (hc.snapshots blocks hblocks).subset hb
  refine ⟨h.chain (verify_grows sha256) hvalid, fun i b => ?_, hlines, ?_, hc.chain, hpublished,
    ?_, hc.snapshots, fun b hb => ⟨hseen b hb, ?_⟩⟩
  · exact h.chain (indexedFrom_grows sha256 0) (fun i b _ => hindex i b) i b (Nat.zero_le i)
  · cases s.writer <;> simp [Writer.unpushed]
  · exact ⟨s.writer.unreplied.map Prod.snd, by rw [hc.published, List.map_append]⟩
  · exact hlines.exists_line (List.mem_append_left _ (hseen b hb))

end Lawful

theorem verify_sampleGenesis :
    (sampleChain.verify sampleSha256).valid = true :=
  (verifyChain_valid_iff _ _).mpr ⟨⟨rfl, trivial⟩, by
    simp [sampleChain, sampleGenesis, genesis, makeBlock_sealed]⟩

theorem exists_answered_sample {append : OFStream → Block Numeral → Except WriteError Unit →
      OFStream → Prop} {os os' : OFStream} {result : Except WriteError Unit}
    (happ : append os sampleBlock result os') :
    ∃ s, Reachable sampleSha256 1 append os sampleChain s ∧ Ready s 8 ∧ s.log = os' ∧
      s.created = [(7, sampleBlock)] ∧ s.replies = [(7, result.map fun _ => sampleBlock)] ∧
      s.chain = result.toOption.elim sampleChain fun _ => sampleChain.pushPersisted sampleBlock := by
  have hb : buildNext sampleSha256 sampleClock sampleChain sampleEvent = sampleBlock := by
    unfold buildNext sampleBlock
    congr 1
  rw [← hb] at happ ⊢
  obtain ⟨s, hrun, hs, hlog, hcreated, hreplies, hchain, -⟩ :=
    (ready_boot os sampleChain 7).answer sampleEvent sampleClock zero_lt_one
      (show sampleChain.size + 1 < 2 ^ 64 by decide) happ
  exact ⟨s, hrun, hs, hlog, hcreated, hreplies, hchain⟩

theorem ledger_integrity_sample :
    ∃ s : State Numeral OFStream, s.replies = [(7, .ok sampleBlock)] ∧
      LedgerIntegrity sampleSha256 sampleChain s := by
  obtain ⟨hfile, hun⟩ := finished_sampleGenesis
  have happ : Appends AnyOutcome ⟨sampleGenesis.line, none⟩ sampleBlock (.ok ())
      ⟨sampleGenesis.line ++ sampleBlock.line, none⟩ :=
    .of_appendBlock trivial (appendBlock_complete sampleBlock_wellFormed rfl)
  obtain ⟨s, hrun, -, -, -, hreplies, -⟩ := exists_answered_sample happ
  refine ⟨s, hreplies, ledger_integrity verify_sampleGenesis (fun i b hb => ?_) ?_ ?_ hrun⟩
  · obtain ⟨hi, rfl⟩ := List.getElem?_eq_some_iff.mp hb
    obtain rfl : i = 0 := by simpa [sampleChain] using hi
    rfl
  · exact hfile
  · exact hun

theorem exists_published_sample (n : ℕ) (hn : n + 1 < 2 ^ 64) : ∃ w : State Numeral OFStream,
    Reachable sampleSha256 1 (Appends AnyOutcome) ⟨sampleGenesis.line, none⟩ sampleChain w ∧
      w.published.length = n := by
  suffices h : ∃ w : State Numeral OFStream,
      Reachable sampleSha256 1 (Appends AnyOutcome) ⟨sampleGenesis.line, none⟩ sampleChain w ∧
        w.published.length = n ∧ Ready w n ∧ w.log.failed = false ∧ w.chain.size = n + 1 ∧
          Utf8.WellFormed w.chain.latest.hash by
    obtain ⟨w, hw, hlen, -⟩ := h
    exact ⟨w, hw, hlen⟩
  induction n with
  | zero =>
    exact ⟨_, .refl, rfl, ready_boot _ _ 0, rfl, rfl, sampleGenesis_wellFormed.hash⟩
  | succ n ih =>
    obtain ⟨w, hw, hlen, hready, hfailed, hsize, hhash⟩ := ih (by omega)
    have hwf : (buildNext sampleSha256 sampleClock w.chain sampleEvent).WellFormed :=
      makeBlock_wellFormed _ _ _ _ hhash
    have happ : Appends AnyOutcome w.log
        (buildNext sampleSha256 sampleClock w.chain sampleEvent) (.ok ()) _ :=
      .of_appendBlock trivial (appendBlock_complete hwf hfailed)
    obtain ⟨t, hrun, ht, hlog, -, -, hchain, hpublished⟩ :=
      hready.answer sampleEvent sampleClock zero_lt_one (by omega) happ
    change t.chain = w.chain.pushPersisted _ at hchain
    change t.published = w.published ++ [_] at hpublished
    refine ⟨t, hw.trans hrun, ?_, ht, ?_, ?_, ?_⟩
    · rw [hpublished, List.length_append, hlen, List.length_singleton]
    · rw [hlog]
      rfl
    · rw [hchain, Chain.size_pushPersisted, hsize]
    · rw [hchain]
      simpa [Chain.latest] using hwf.hash

end Ledger

import Ledger.Core.Storage

/-! What a restart reads back: appending to a file that loads, and the file a crash leaves. -/
namespace Ledger
open Text Json
variable {F : Type} [NumberFloat F] [LawfulNumberFloat F]

section Load
variable (sha256 : Bytes → Digest) (now now' : Tm)

/-- Behind a finished last line the appended blocks load in order. -/
theorem loadChain_append_finished {content : Bytes} (hne : content ≠ [])
    (hun : unfinished 0x0A content = []) {c : Chain F}
    (hload : loadChain sha256 now (some content) = .ok c) {bs : List (Block F)}
    (hbs : ∀ b ∈ bs, b.WellFormed) :
    (loadChain sha256 now' (some (content ++ bs.flatMap Block.line))).map Chain.blocks =
      .ok (c.blocks ++ bs) := by
  have hc := (loadChain_ok_iff sha256 now hne).mp hload
  obtain ⟨hfin, hun'⟩ := finished_append_lines hun hbs
  have hlines : Encodes (getlines 0x0A (content ++ bs.flatMap Block.line)) (c.blocks ++ bs) := by
    rw [getlines_of_unfinished_nil hun', hfin, ← getlines_of_unfinished_nil hun]
    exact hc.append (encodes_lines hbs)
  rw [loadChain_of_encodes sha256 now' (by simp [c.ne_nil]) hlines]
  rfl

/-- Behind an unfinished line the first appended block has no line of its own. -/
theorem length_getlines_append_unfinished {content : Bytes} (hun : unfinished 0x0A content ≠ [])
    {bs : List (Block F)} (hbs : ∀ b ∈ bs, b.WellFormed) (hne : bs ≠ []) :
    (getlines 0x0A (content ++ bs.flatMap Block.line)).length + 1 =
      (getlines 0x0A content).length + bs.length := by
  obtain ⟨b, bs, rfl⟩ := List.exists_cons_of_ne_nil hne
  have hnl := newline_not_mem (hbs b (by simp))
  have hline : unfinished 0x0A (content ++ b.line) = [] := unfinished_append_line content hnl
  obtain ⟨hfin, hun'⟩ := finished_append_lines hline
    (show ∀ d ∈ bs, d.WellFormed from fun d hd => hbs d (by simp [hd]))
  rw [List.flatMap_cons, ← List.append_assoc, getlines_of_unfinished_nil hun', hfin, Block.line,
    finished_append_line content hnl, getlines_of_unfinished hun]
  simp
  omega

theorem loadChain_append_iff {content : Bytes} (hne : content ≠ []) {c : Chain F}
    (hload : loadChain sha256 now (some content) = .ok c) {bs : List (Block F)}
    (hbs : ∀ b ∈ bs, b.WellFormed) (hbne : bs ≠ []) :
    (loadChain sha256 now' (some (content ++ bs.flatMap Block.line))).map Chain.blocks =
      .ok (c.blocks ++ bs) ↔ content.getLast? = some 0x0A := by
  have hiff : unfinished 0x0A content = [] ↔ content.getLast? = some 0x0A := by
    rw [unfinished_eq_nil_iff]
    exact or_iff_right hne
  rw [← hiff]
  refine ⟨fun h => ?_, fun hun => loadChain_append_finished sha256 now now' hne hun hload hbs⟩
  by_contra hun
  cases hl : loadChain (F := F) sha256 now' (some (content ++ bs.flatMap Block.line)) with
  | error e => rw [hl] at h; cases h
  | ok d =>
    rw [hl] at h
    have hd : d.blocks = c.blocks ++ bs := Except.ok.inj h
    have hcount := length_getlines_append_unfinished hun hbs hbne
    rw [((loadChain_ok_iff sha256 now' (by simp [hne])).mp hl).length_eq, hd,
      ((loadChain_ok_iff sha256 now hne).mp hload).length_eq, List.length_append] at hcount
    omega

/-- Behind finished lines the file holds a beginning of one more. -/
theorem loadChain_cut {acked : List (Block F)} (hacked : ∀ b ∈ acked, b.WellFormed) {b : Block F}
    (hb : b.WellFormed) {p u : Bytes} (hp : p ≠ []) (hu : u ≠ []) (hpu : text b.toJson = p ++ u) :
    ∃ t, loadChain (F := F) sha256 now (some (acked.flatMap Block.line ++ p)) =
      .error ⟨ascii "malformed ledger line " ++ decimal (acked.length + 1) ++ ascii ": " ++ t⟩ := by
  have hnl : (0x0A : UInt8) ∉ p := fun h => newline_not_mem hb (hpu ▸ List.mem_append_left _ h)
  obtain ⟨hfin, hun⟩ := finished_append_lines (s := []) rfl hacked
  rw [List.nil_append] at hfin hun
  have hlines : getlines 0x0A (acked.flatMap Block.line ++ p) =
      acked.map (fun b => text b.toJson) ++ [p] := by
    have hp' : unfinished 0x0A (acked.flatMap Block.line ++ p) = p := by
      rw [unfinished_append_of_not_mem _ hnl, hun, List.nil_append]
    rw [getlines_of_unfinished (by rw [hp']; exact hp), hp', finished_append_of_not_mem _ hnl, hfin]
    rfl
  have hparse : ∃ e, Block.decode (F := F) p = .error e := by
    cases hd : Block.decode (F := F) p with
    | error e => exact ⟨e, rfl⟩
    | ok d =>
      exfalso
      rw [Block.decode] at hd
      cases hj : parseDocument (F := F) p with
      | error e => rw [hj] at hd; cases hd
      | ok j =>
        have hv := hb.toJson_valid
        rw [Block.toJson_eq] at hv hpu
        exact parse_cut_object hv hp hu hpu j.1 (parse_of_parseDocument hj)
  obtain ⟨e, he⟩ := hparse
  refine ⟨e.what, ?_⟩
  have herr := loadLines_error (encodes_lines hacked) he [] 0
  rw [loadChain, hlines, herr, List.length_map, Nat.zero_add]
  rfl

/-- The whole text of a block is read without the newline that belongs behind it. -/
theorem loadChain_unterminated {acked : List (Block F)} (hacked : ∀ b ∈ acked, b.WellFormed)
    {b : Block F} (hb : b.WellFormed) :
    loadChain sha256 now (some (acked.flatMap Block.line ++ text b.toJson)) =
      .ok ⟨acked ++ [b], by simp⟩ := by
  obtain ⟨hfin, hun⟩ := finished_append_lines (s := []) rfl hacked
  rw [List.nil_append] at hfin hun
  have hnl := newline_not_mem hb
  have htext : text b.toJson ≠ [] := by
    rw [Block.toJson_eq, text]
    simp [ascii]
  have hp : unfinished 0x0A (acked.flatMap Block.line ++ text b.toJson) = text b.toJson := by
    rw [unfinished_append_of_not_mem _ hnl, hun, List.nil_append]
  refine loadChain_of_encodes sha256 now _ ?_
  rw [getlines_of_unfinished (by rw [hp]; exact htext), hp, finished_append_of_not_mem _ hnl, hfin]
  exact (encodes_lines hacked).append (.cons (Block.decode_text hb) .nil)

/-- A file with the lines of `acked` and a beginning of the next line. The whole text without
its newline loads as a block; any other beginning that is not empty stops the boot. -/
theorem torn_tail_outcome {acked : List (Block F)} {os : OFStream}
    (happ : appendAll (openAppend none) acked = .ok os) {b : Block F} (hb : b.WellFormed)
    {p : Bytes} (hp : p <+: b.line) (hne : p ≠ b.line) :
    (p = [] → acked ≠ [] →
        (loadChain sha256 now (some (os.file ++ p))).map Chain.blocks = .ok acked) ∧
      (p = [] → acked = [] →
        loadChain (F := F) sha256 now (some (os.file ++ p)) = .ok (.fresh sha256 now)) ∧
      (p = text b.toJson →
        (loadChain sha256 now (some (os.file ++ p))).map Chain.blocks = .ok (acked ++ [b])) ∧
      (p ≠ [] → p ≠ text b.toJson → ∃ t, loadChain (F := F) sha256 now (some (os.file ++ p)) =
        .error ⟨ascii "malformed ledger line " ++ decimal (acked.length + 1) ++ ascii ": " ++
          t⟩) := by
  obtain ⟨hacked, rfl⟩ := appendAll_ok happ rfl
  obtain ⟨hfin, hun⟩ := finished_append_lines (s := []) rfl hacked
  have hopen : (openAppend none).file = [] := rfl
  simp only [hopen, List.nil_append] at hfin hun ⊢
  refine ⟨?_, ?_, ?_, ?_⟩
  · rintro rfl hane
    have hl : Encodes (getlines 0x0A (acked.flatMap Block.line ++ [])) acked := by
      rw [List.append_nil, getlines_of_unfinished_nil hun, hfin]
      exact encodes_lines hacked
    rw [loadChain_of_encodes sha256 now hane hl]
    rfl
  · rintro rfl rfl
    rfl
  · rintro rfl
    rw [loadChain_unterminated sha256 now hacked hb]
    rfl
  · intro hpne hpt
    obtain ⟨u, hu⟩ := hp
    have hune : u ≠ [] := by
      rintro rfl
      exact hne (by simpa using hu)
    obtain ⟨u, c, rfl⟩ : ∃ w c, u = w ++ [c] := ⟨_, _, (List.dropLast_append_getLast hune).symm⟩
    rw [← List.append_assoc, Block.line] at hu
    obtain ⟨hpu, -⟩ := List.append_inj' hu rfl
    refine loadChain_cut sha256 now hacked hb hpne (fun h => hpt ?_) hpu.symm
    rw [← hpu, h, List.append_nil]

/-- What writing blocks to an empty log and reading it back keeps. -/
structure LosslessLog (sha256 : Bytes → Digest) (now : Tm) (blocks : List (Block F))
    (file : Bytes) : Prop where
  lines : getlines 0x0A file = blocks.map fun b => text b.toJson
  terminated : unfinished 0x0A file = []
  loaded : (loadChain sha256 now (some file)).map Chain.blocks = .ok blocks
  /-- Each event gives `compute_hash` the bytes it gave before. -/
  events : ∀ c, loadChain (F := F) sha256 now (some file) = .ok c →
    c.blocks.map (fun b => Json.dump b.event.toJson) = blocks.map fun b => Json.dump b.event.toJson
  verified : ∀ c, loadChain (F := F) sha256 now (some file) = .ok c →
    c.verify sha256 = verifyChain sha256 blocks

/-- The log codec loses nothing: blocks written in order to an empty log are read back one a
line, and verify as before. -/
theorem log_codec_lossless {bs : List (Block F)} (hne : bs ≠ []) (hbs : ∀ b ∈ bs, b.WellFormed) :
    ∃ os, appendAll (openAppend (some [])) bs = .ok os ∧ LosslessLog sha256 now bs os.file := by
  obtain ⟨hfin, hun⟩ := finished_append_lines (s := []) rfl hbs
  rw [List.nil_append] at hfin hun
  have hlines : getlines 0x0A (bs.flatMap Block.line) = bs.map fun b => text b.toJson := by
    rw [getlines_of_unfinished_nil hun, hfin]
    rfl
  have hload : loadChain sha256 now (some (bs.flatMap Block.line)) = .ok ⟨bs, hne⟩ := by
    apply loadChain_of_encodes
    rw [hlines]
    exact encodes_lines hbs
  refine ⟨⟨bs.flatMap Block.line, none⟩, appendAll_complete rfl hbs, hlines, hun, ?_, ?_, ?_⟩
  · rw [hload]
    rfl
  · intro c hc
    obtain rfl := Except.ok.inj (hload.symm.trans hc)
    rfl
  · intro c hc
    obtain rfl := Except.ok.inj (hload.symm.trans hc)
    rfl

/-- Blocks appended to a file that loads load behind it exactly when the file ends in a
newline. -/
theorem appended_ledger_loads_iff {content : Bytes} (hne : content ≠ []) {c : Chain F}
    (hload : loadChain sha256 now (some content) = .ok c) {bs : List (Block F)} (hbs : bs ≠ [])
    {os : OFStream} (happ : appendAll (openAppend (some content)) bs = .ok os) :
    (loadChain sha256 now' (some os.file)).map Chain.blocks = .ok (c.blocks ++ bs) ↔
      content.getLast? = some 0x0A := by
  obtain ⟨hwf, rfl⟩ := appendAll_ok happ rfl
  exact loadChain_append_iff sha256 now now' hne hload hwf hbs

end Load

def sampleGenesis : Block Numeral :=
  genesis sampleSha256 sampleClock

def sampleChain : Chain Numeral :=
  ⟨[sampleGenesis], by simp⟩

def sampleBlock : Block Numeral :=
  makeBlock sampleSha256 sampleClock 1 sampleEvent sampleGenesis.hash

theorem sampleGenesis_wellFormed : sampleGenesis.WellFormed :=
  makeBlock_wellFormed _ _ _ _ (by decide)

theorem sampleBlock_wellFormed : sampleBlock.WellFormed :=
  makeBlock_wellFormed _ _ _ _ sampleGenesis_wellFormed.hash

theorem finished_sampleGenesis :
    Encodes (finished 0x0A sampleGenesis.line) [sampleGenesis] ∧
      unfinished 0x0A sampleGenesis.line = [] := by
  have hwf : ∀ b ∈ [sampleGenesis], b.WellFormed := by simpa using sampleGenesis_wellFormed
  obtain ⟨hfin, hun⟩ := finished_append_lines (s := []) rfl hwf
  have hline : [] ++ [sampleGenesis].flatMap Block.line = sampleGenesis.line := by simp
  rw [hline] at hfin hun
  exact ⟨hfin ▸ encodes_lines hwf, hun⟩

theorem loadChain_sampleGenesis (now : Tm) :
    loadChain sampleSha256 now (some sampleGenesis.line) = .ok sampleChain := by
  obtain ⟨hlines, hun⟩ := finished_sampleGenesis
  exact loadChain_of_encodes _ _ _ (getlines_of_unfinished_nil hun ▸ hlines)

theorem appendAll_sample (file : Bytes) :
    appendAll (openAppend (some file)) [sampleBlock] = .ok ⟨file ++ sampleBlock.line, none⟩ := by
  rw [appendAll, appendBlock_complete sampleBlock_wellFormed rfl]
  rfl

theorem log_codec_lossless_sample : ∃ os,
    appendAll (openAppend (some [])) [sampleGenesis, sampleBlock] = .ok os ∧
      LosslessLog sampleSha256 sampleClock [sampleGenesis, sampleBlock] os.file := by
  apply log_codec_lossless sampleSha256 sampleClock (by simp)
  simp only [List.forall_mem_cons]
  exact ⟨sampleGenesis_wellFormed, sampleBlock_wellFormed, by simp⟩

theorem appended_ledger_loads_iff_sample :
    (loadChain sampleSha256 sampleClock (some (sampleGenesis.line ++ sampleBlock.line))).map
        Chain.blocks = .ok ([sampleGenesis] ++ [sampleBlock]) ↔
      sampleGenesis.line.getLast? = some 0x0A := by
  have hne : sampleGenesis.line ≠ [] := List.append_ne_nil_of_right_ne_nil _ (by simp)
  have h := appended_ledger_loads_iff sampleSha256 sampleClock sampleClock hne
    (loadChain_sampleGenesis sampleClock) (by simp) (appendAll_sample sampleGenesis.line)
  exact h

def unterminatedLedger : Bytes :=
  text sampleGenesis.toJson

theorem unterminatedLedger_getLast : unterminatedLedger.getLast? = some 0x7D := by
  rw [unterminatedLedger, Block.toJson_eq, text]
  exact List.getLast?_concat

theorem loadChain_unterminatedLedger :
    loadChain sampleSha256 sampleClock (some unterminatedLedger) = .ok sampleChain := by
  have h := loadChain_unterminated sampleSha256 sampleClock
    (show ∀ b ∈ ([] : List (Block Numeral)), b.WellFormed by simp) sampleGenesis_wellFormed
  rw [List.flatMap_nil, List.nil_append] at h
  exact h

/-- A file whose only line lacks its newline loads, and an append to it is not read back. -/
theorem unterminated_ledger_loses_append :
    ¬ ∀ (content : Bytes) (c : Chain Numeral) (bs : List (Block Numeral)) (os : OFStream),
      content ≠ [] → bs ≠ [] →
      loadChain sampleSha256 sampleClock (some content) = .ok c →
      appendAll (openAppend (some content)) bs = .ok os →
      (loadChain sampleSha256 sampleClock (some os.file)).map Chain.blocks =
        .ok (c.blocks ++ bs) := by
  intro h
  have hne : unterminatedLedger ≠ [] := by
    intro h
    have hlast := unterminatedLedger_getLast
    rw [h] at hlast
    cases hlast
  have happ := appendAll_sample unterminatedLedger
  have hbad := h unterminatedLedger _ [sampleBlock] _ hne (by simp)
    loadChain_unterminatedLedger happ
  obtain ⟨hwf, -⟩ := appendAll_ok happ rfl
  have hlines : [sampleBlock].flatMap Block.line = sampleBlock.line := by simp
  have hiff := loadChain_append_iff sampleSha256 sampleClock sampleClock hne
    loadChain_unterminatedLedger hwf
    (by simp)
  rw [hlines] at hiff
  have hlast := hiff.mp hbad
  rw [unterminatedLedger_getLast] at hlast
  cases hlast

theorem appendAll_sampleGenesis :
    appendAll (openAppend none) [sampleGenesis] = .ok ⟨sampleGenesis.line, none⟩ := by
  rw [appendAll, appendBlock_complete sampleGenesis_wellFormed rfl]
  rfl

theorem sampleBlock_line_cut : [0x7B] <+: sampleBlock.line ∧ [0x7B] ≠ sampleBlock.line ∧
    [0x7B] ≠ text sampleBlock.toJson := by
  have htext : text sampleBlock.toJson =
      0x7B :: (textMembers sampleBlock.members ++ [0x7D]) := by
    rw [Block.toJson_eq, text]
    rfl
  refine ⟨?_, ?_, ?_⟩
  · rw [Block.line, htext]
    exact ⟨_, rfl⟩
  · rw [Block.line, htext]
    simp
  · rw [htext]
    simp

theorem torn_tail_outcome_sample :
    ∃ t, loadChain (F := Numeral) sampleSha256 sampleClock (some (sampleGenesis.line ++ [0x7B])) =
      .error ⟨ascii "malformed ledger line " ++ decimal 2 ++ ascii ": " ++ t⟩ :=
  (torn_tail_outcome sampleSha256 sampleClock appendAll_sampleGenesis sampleBlock_wellFormed
    sampleBlock_line_cut.1 sampleBlock_line_cut.2.1).2.2.2 (by simp) sampleBlock_line_cut.2.2

/-- One byte of the next line is enough to keep the ledger from loading. -/
theorem torn_tail_stops_boot :
    ¬ ∀ (acked : List (Block Numeral)) (os : OFStream) (b : Block Numeral) (p : Bytes),
      appendAll (openAppend none) acked = .ok os → acked ≠ [] → b.WellFormed → p <+: b.line →
      p ≠ b.line → ∃ c, loadChain sampleSha256 sampleClock (some (os.file ++ p)) = .ok c ∧
        (c.blocks = acked ∨ c.blocks = acked ++ [b]) := by
  intro h
  obtain ⟨hpre, hline, -⟩ := sampleBlock_line_cut
  obtain ⟨c, hc, -⟩ := h [sampleGenesis] _ sampleBlock [0x7B] appendAll_sampleGenesis (by simp)
    sampleBlock_wellFormed hpre hline
  have hcut : text sampleBlock.toJson = [0x7B] ++ (textMembers sampleBlock.members ++ [0x7D]) := by
    rw [Block.toJson_eq, text]
    rfl
  obtain ⟨t, ht⟩ := loadChain_cut sampleSha256 sampleClock
    (show ∀ b ∈ [sampleGenesis], b.WellFormed by simpa using sampleGenesis_wellFormed)
    sampleBlock_wellFormed (by simp) (by simp) hcut
  have hlines : [sampleGenesis].flatMap Block.line = sampleGenesis.line := by simp
  rw [hlines] at ht
  cases hc.symm.trans ht

end Ledger

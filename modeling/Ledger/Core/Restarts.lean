import Ledger.Core.Boot
import Ledger.Core.Positions

/-! The ledger over all lives of the process: it is booted, serves, and ends at any point, in the
middle of a write too. The next life finds the file as the last one left it. -/
namespace Ledger
open Text Json
variable {F : Type} [NumberFloat F]

section Lives
variable (sha256 : Bytes → Digest) (capacity : ℕ)

/-- One life, from the file it finds to the blocks it acknowledges and the file it leaves. A process
killed in `append_block` leaves what a write that fails there leaves. The stream of a write that
failed is destroyed when `run` or `writer_loop` is left. -/
inductive Life : Option Bytes → List (Block F) → Option Bytes → Prop
  /-- It ends before it writes: killed, or by what `load_chain` throws. -/
  | ended (file : Option Bytes) : Life file [] file
  /-- The genesis of a fresh ledger does not reach the file whole. -/
  | stillborn (file : Option Bytes) (now : Tm) (chain : Chain F) (io : WriteOutcome)
      (e : WriteError) (log : OFStream) (hload : loadChain sha256 now file = .ok chain)
      (hfresh : file.getD [] = [])
      (hwrite : appendBlock (openAppend file) chain.latest io = (.error e, log)) (m : ℕ) :
    Life file [] (some (log.close m))
  /-- As for `push`, the vector has room for one block more. -/
  | served (file : Option Bytes) (now : Tm) (io : WriteOutcome) (boot : Chain F) (os : OFStream)
      (s : State F OFStream) (hboot : runBoot sha256 now file io = .ok (boot, os))
      (hroom : boot.size + 1 < 2 ^ 64)
      (hrun : Reachable sha256 capacity (Appends AnyOutcome) os boot s) (content : Bytes)
      (hleft : LeftBehind (fun _ _ => True) s content) :
    Life file ((successes s.replies).map Prod.snd) (some content)

/-- What has been acknowledged since the ledger was installed, and the file. -/
inductive History : List (Block F) → Option Bytes → Prop
  | installed : History [] none
  | life {acked new : List (Block F)} {file file' : Option Bytes} (h : History acked file)
      (hlife : Life sha256 capacity file new file') : History (acked ++ new) file'

end Lives

/-- A chain that has every acknowledged block in its place. -/
structure Keeps (sha256 : Bytes → Digest) (acked : List (Block F)) (c : Chain F) : Prop where
  verified : (c.verify sha256).valid = true
  indexed : IndexedFrom 0 c
  ordered : acked.Sublist c.blocks
  placed : ∀ b ∈ acked, c.blocks[b.index.toNat]? = some b

/-- No boot gets past the file. -/
def Damaged (sha256 : Bytes → Digest) (file : Option Bytes) : Prop :=
  ∀ now, ∃ e, loadChain (F := F) sha256 now file = .error e

/-- The end of the file is that of a line, or the whole text of a block without its newline. -/
def WholeTail (F : Type) [NumberFloat F] (content : Bytes) : Prop :=
  unfinished 0x0A content = [] ∨
    ∃ b : Block F, b.WellFormed ∧ unfinished 0x0A content = text b.toJson

/-- What any number of lives leaves. -/
inductive Left (sha256 : Bytes → Digest) (acked : List (Block F)) : Option Bytes → Prop
  | fresh (file : Option Bytes) (h : file.getD [] = []) (hacked : acked = []) :
    Left sha256 acked file
  | damaged (file : Option Bytes) (h : Damaged (F := F) sha256 file) : Left sha256 acked file
  | whole (content : Bytes) (c : Chain F) (h : Encodes (getlines 0x0A content) c.blocks)
      (htail : WholeTail F content) (hkeeps : Keeps sha256 acked c) :
    Left sha256 acked (some content)

section Lawful
variable [LawfulNumberFloat F] {sha256 : Bytes → Digest} {capacity : ℕ}

omit [LawfulNumberFloat F] in
theorem damaged_of_loadChain {now : Tm} {file : Option Bytes} {e : StorageError}
    (he : loadChain (F := F) sha256 now file = .error e) : Damaged (F := F) sha256 file := by
  intro now'
  cases file with
  | none => cases he
  | some content =>
    rw [loadChain] at he ⊢
    cases hl : loadLines (F := F) 0 (getlines 0x0A content) with
    | error e' => exact ⟨e', rfl⟩
    | ok blocks => rw [hl] at he; cases he

omit [LawfulNumberFloat F] in
theorem Encodes.exists_block {lines : List Bytes} {blocks : List (Block F)}
    (h : Encodes lines blocks) {line : Bytes} (hmem : line ∈ lines) :
    ∃ b : Block F, Block.decode line = .ok b := by
  induction h with
  | nil => cases hmem
  | @cons line' b lines blocks hb _ ih =>
    rcases List.mem_cons.mp hmem with rfl | hmem
    · exact ⟨b, hb⟩
    · exact ih hmem

omit [LawfulNumberFloat F] in
theorem damaged_of_line {content line : Bytes} (hmem : line ∈ getlines 0x0A content)
    (hline : ∀ b : Block F, Block.decode line ≠ .ok b) :
    Damaged (F := F) sha256 (some content) := by
  intro now
  cases hl : loadChain (F := F) sha256 now (some content) with
  | error e => exact ⟨e, rfl⟩
  | ok c =>
    have hne : content ≠ [] := by
      rintro rfl
      cases hmem
    have hc := (loadChain_ok_iff sha256 now hne).mp hl
    obtain ⟨b, hb⟩ := hc.exists_block hmem
    exact absurd hb (hline b)

/-- The persisted lines as they stand in the file. -/
def State.lines (s : State F OFStream) : Bytes :=
  (s.persisted.map Prod.snd).flatMap Block.line

/-- The file is what was there, the persisted lines and, after a write that failed, a piece of a
block built on the chain as it still is. -/
structure Grew (sha256 : Bytes → Digest) (before : Bytes) (s : State F OFStream) : Prop where
  wellFormed : ∀ b ∈ s.persisted.map Prod.snd, b.WellFormed
  room : s.chain.size < 2 ^ 64
  open_file : s.log.failed = false → s.log.file = before ++ s.lines
  cut_file : s.log.failed = true → s.writer.unpushed = [] ∧
    ∃ now event n, (buildNext sha256 now s.chain event).WellFormed ∧ ∀ m, s.log.close m =
      before ++ s.lines ++ remains (text (buildNext sha256 now s.chain event).toJson) n m

omit [LawfulNumberFloat F] in
theorem Grew.step {before : Bytes} {s t : State F OFStream} (hs : Grew sha256 before s)
    (hheld : ∀ b ∈ s.writer.held, ∃ now event, b = buildNext sha256 now s.chain event)
    (h : Step sha256 capacity (Appends AnyOutcome) s t) : Grew sha256 before t := by
  obtain ⟨wellFormed, room, open_file, cut_file⟩ := hs
  cases h with
  | persist id b os h ha =>
    obtain ⟨io, -, happ⟩ := ha
    obtain ⟨hb, hf, rfl⟩ := appendBlock_ok happ
    refine ⟨fun c hc => ?_, room, fun _ => ?_, fun hfailed => by cases hfailed⟩
    · rw [List.map_append, List.mem_append] at hc
      rcases hc with hc | hc
      · exact wellFormed c hc
      · exact List.mem_singleton.mp hc ▸ hb
    · rw [open_file hf]
      simp [State.lines]
  | persistFailed id b e os h ha =>
    obtain ⟨io, -, happ⟩ := ha
    rcases appendBlock_error happ with rfl | ⟨hb, hf, n, -, rfl⟩
    · exact ⟨wellFormed, room, open_file, fun hf => ⟨rfl, (cut_file hf).2⟩⟩
    · obtain ⟨now, event, rfl⟩ := hheld b (by rw [h]; rfl)
      refine ⟨wellFormed, room, fun hfailed => (by cases hfailed),
        fun _ => ⟨rfl, now, event, n, hb, fun m => ?_⟩⟩
      rw [remains, ← List.append_assoc, OFStream.close, open_file hf]
      rfl
  | push id b h hmem =>
    refine ⟨wellFormed, by simpa using hmem, open_file, fun hf => ?_⟩
    have hnone := (cut_file hf).1
    rw [h] at hnone
    cases hnone
  | pop r rest h hq => exact ⟨wellFormed, room, open_file, fun hf => ⟨rfl, (cut_file hf).2⟩⟩
  | drained h hq hc => exact ⟨wellFormed, room, open_file, fun hf => ⟨rfl, (cut_file hf).2⟩⟩
  | build r now h => exact ⟨wellFormed, room, open_file, fun hf => ⟨rfl, (cut_file hf).2⟩⟩
  | publish id b h => exact ⟨wellFormed, room, open_file, fun hf => ⟨rfl, (cut_file hf).2⟩⟩
  | reply id x h hp => exact ⟨wellFormed, room, open_file, fun hf => ⟨rfl, (cut_file hf).2⟩⟩
  | satisfied id x h hp => exact ⟨wellFormed, room, open_file, fun hf => ⟨rfl, (cut_file hf).2⟩⟩
  | arrive | accept | refuse | close | receive | read =>
    exact ⟨wellFormed, room, open_file, cut_file⟩

omit [LawfulNumberFloat F] in
theorem Reachable.grew {os : OFStream} {boot : Chain F} {s : State F OFStream}
    (hrun : Reachable sha256 capacity (Appends AnyOutcome) os boot s) (hf : os.failed = false)
    (hroom : boot.size < 2 ^ 64) : Grew sha256 os.file s := by
  induction hrun with
  | refl =>
    refine ⟨by simp [State.boot], hroom, fun _ => by simp [State.boot, State.lines],
      fun hfailed => ?_⟩
    cases hf.symm.trans hfailed
  | tail hrun hstep ih => exact ih.step (fun _ hb => Reachable.held hrun hb) hstep

omit [LawfulNumberFloat F] in
theorem Keeps.of_sublist {acked : List (Block F)} {c : Chain F}
    (hv : (c.verify sha256).valid = true) (hi : IndexedFrom 0 c) (h : acked.Sublist c.blocks) :
    Keeps sha256 acked c where
  verified := hv
  indexed := hi
  ordered := h
  placed b hb := by
    obtain ⟨i, hget⟩ := List.mem_iff_getElem?.mp (h.subset hb)
    rw [hi i b (Nat.zero_le i) hget]
    exact hget

omit [LawfulNumberFloat F] in
theorem Keeps.pushPersisted {acked : List (Block F)} {c : Chain F} (h : Keeps sha256 acked c)
    (now : Tm) (event : EventPayload F) (hroom : c.size < 2 ^ 64) :
    Keeps sha256 acked (c.pushPersisted (buildNext sha256 now c event)) :=
  .of_sublist (Chain.verify_pushPersisted h.verified rfl (makeBlock_sealed ..))
    (h.indexed.pushPersisted now event hroom)
    (h.ordered.trans (List.sublist_append_left _ _))

omit [LawfulNumberFloat F] in
theorem Keeps.served {acked : List (Block F)} {boot : Chain F} (h : Keeps sha256 acked boot)
    {os : OFStream} {s : State F OFStream}
    (hrun : Reachable sha256 capacity (Appends AnyOutcome) os boot s) :
    Keeps sha256 (acked ++ (successes s.replies).map Prod.snd) s.chain := by
  refine .of_sublist (hrun.chain (verify_grows sha256) h.verified)
    (hrun.chain (indexedFrom_grows sha256 0) h.indexed) ?_
  rw [hrun.copies.chain]
  exact h.ordered.append (hrun.copies.successes_prefix.sublist.map _)

omit [LawfulNumberFloat F] in
theorem Writer.unpushed_cases (w : Writer F) :
    w.unpushed = [] ∨ ∃ id b, w = .pushing id b ∧ w.unpushed = [(id, b)] := by
  cases w with
  | pushing id b => exact Or.inr ⟨id, b, rfl, rfl⟩
  | popping | building | appending | publishing | replying | stopped => exact Or.inl rfl

/-- What is left of one block more behind finished lines is no line at all, the whole block, or a
line that is no block. -/
theorem left_of_cut {acked : List (Block F)} {content : Bytes} (hun : unfinished 0x0A content = [])
    {blocks : List (Block F)} (hcontent : Encodes (getlines 0x0A content) blocks) {b : Block F}
    (hb : b.WellFormed) {c : Chain F} (hc : c.blocks = blocks ++ [b])
    (hkeeps : Keeps sha256 acked c) (hnone : Left sha256 acked (some content)) (n m : ℕ) :
    Left sha256 acked (some (content ++ remains (text b.toJson) n m)) := by
  obtain hnil | ⟨x, rest, hx, hhead, hnl, hrest, hline⟩ :
    remains (text b.toJson) n m = [] ∨ _ := remains_cases hb n m
  · rwa [hnil, List.append_nil]
  have hne : x ≠ [] := by
    rintro rfl
    cases hhead
  have hlines := getlines_append content hne hnl hrest
  rw [hun, List.nil_append] at hlines
  rw [hx]
  obtain hdead | ⟨rfl, -⟩ := hline
  · exact .damaged _ (damaged_of_line (by rw [hlines]; simp) hdead)
  · refine .whole _ c ?_ ?_ hkeeps
    · rw [hlines, ← getlines_of_unfinished_nil hun, hc]
      exact hcontent.append (.cons (Block.decode_text hb) .nil)
    · rcases hrest with rfl | rfl
      · exact Or.inr ⟨b, hb, by rw [List.append_nil, unfinished_append_of_not_mem _ hnl, hun]; rfl⟩
      · exact Or.inl (unfinished_append_line _ hnl)

theorem Grew.left_of_finished {acked : List (Block F)} {os : OFStream} {boot : Chain F}
    {s : State F OFStream} (hgrew : Grew sha256 os.file s)
    (hrun : Reachable sha256 capacity (Appends AnyOutcome) os boot s)
    (hfile : Encodes (getlines 0x0A os.file) boot.blocks) (hun : unfinished 0x0A os.file = [])
    (hkeeps : Keeps sha256 acked s.chain) (m : ℕ) : Left sha256 acked (some (s.log.close m)) := by
  obtain ⟨hfin, hun'⟩ := finished_append_lines hun hgrew.wellFormed
  rw [show (s.persisted.map Prod.snd).flatMap Block.line = s.lines from rfl] at hfin hun'
  have hbase : Encodes (getlines 0x0A (os.file ++ s.lines))
      (s.chain.blocks ++ s.writer.unpushed.map Prod.snd) := by
    rw [hrun.copies.chain, List.append_assoc, ← List.map_append, ← hrun.copies.persisted,
      getlines_of_unfinished_nil hun', hfin, ← getlines_of_unfinished_nil hun]
    exact hfile.append (encodes_lines hgrew.wellFormed)
  cases hf : s.log.failed with
  | false =>
    rw [OFStream.close_of_open hf, hgrew.open_file hf]
    rcases s.writer.unpushed_cases with hnone | ⟨id, b, hw, hone⟩
    · rw [hnone, List.map_nil, List.append_nil] at hbase
      exact .whole _ s.chain hbase (Or.inl hun') hkeeps
    · obtain ⟨now, event, rfl⟩ := hrun.held (b := b) (by rw [hw]; rfl)
      rw [hone] at hbase
      exact .whole _ (s.chain.pushPersisted (buildNext sha256 now s.chain event)) hbase
        (Or.inl hun') (hkeeps.pushPersisted now event hgrew.room)
  | true =>
    obtain ⟨hnone, now, event, n, hb, hcut⟩ := hgrew.cut_file hf
    rw [hnone, List.map_nil, List.append_nil] at hbase
    rw [hcut]
    exact left_of_cut hun' hbase hb (Chain.pushPersisted_blocks ..)
      (hkeeps.pushPersisted now event hgrew.room) (.whole _ s.chain hbase (Or.inl hun') hkeeps) n m

/-- What a life adds begins with an object, or it adds nothing. -/
theorem Grew.added {before : Bytes} {s : State F OFStream} (hgrew : Grew sha256 before s) (m : ℕ) :
    s.log.close m = before ∧ s.persisted = [] ∨
      ∃ t rest, s.log.close m = before ++ ((0x7B :: t) ++ rest) ∧ (0x0A : UInt8) ∉ 0x7B :: t ∧
        (rest = [] ∨ ∃ r, rest = 0x0A :: r) := by
  obtain ⟨piece, hfile, hpiece⟩ : ∃ piece, s.log.close m = before ++ s.lines ++ piece ∧
      (piece = [] ∨ ∃ t rest, piece = (0x7B :: t) ++ rest ∧ (0x0A : UInt8) ∉ 0x7B :: t ∧
        (rest = [] ∨ rest = [0x0A])) := by
    cases hf : s.log.failed with
    | false =>
      exact ⟨[], by rw [OFStream.close_of_open hf, hgrew.open_file hf, List.append_nil], Or.inl rfl⟩
    | true =>
      obtain ⟨-, now, event, n, hb, hcut⟩ := hgrew.cut_file hf
      refine ⟨_, hcut m, (remains_cases hb n m).imp_right ?_⟩
      rintro ⟨x, rest, hx, hhead, hnl, hrest, -⟩
      obtain ⟨t, rfl⟩ := List.head?_eq_some_iff.mp hhead
      exact ⟨t, rest, hx, hnl, hrest⟩
  cases hp : s.persisted with
  | nil =>
    have hlines : s.lines = [] := by rw [State.lines, hp]; rfl
    rw [hlines, List.append_nil] at hfile
    rcases hpiece with rfl | ⟨t, rest, rfl, hnl, hrest⟩
    · exact Or.inl ⟨by rw [hfile, List.append_nil], rfl⟩
    · exact Or.inr ⟨t, rest, hfile, hnl, hrest.imp_right fun h => ⟨[], h⟩⟩
  | cons p ps =>
    have hb := hgrew.wellFormed p.2 (by simp [hp])
    obtain ⟨t, ht⟩ := p.2.text_eq_cons
    refine Or.inr ⟨_, 0x0A :: ((ps.map Prod.snd).flatMap Block.line ++ piece), ?_,
      ht ▸ newline_not_mem hb, Or.inr ⟨_, rfl⟩⟩
    rw [hfile, State.lines, hp, List.map_cons, List.flatMap_cons, Block.line, ht]
    simp

theorem Grew.left_of_unterminated {acked : List (Block F)} {os : OFStream} {boot : Chain F}
    {s : State F OFStream} (hgrew : Grew sha256 os.file s) (hcopies : Copies boot s)
    (hfile : Encodes (getlines 0x0A os.file) boot.blocks) {b : Block F} (hb : b.WellFormed)
    (htail : unfinished 0x0A os.file = text b.toJson) (hkeeps : Keeps sha256 acked s.chain) (m : ℕ) :
    Left sha256 acked (some (s.log.close m)) := by
  rcases hgrew.added m with ⟨hsame, hnone⟩ | ⟨t, rest, hmore, hnl, hrest⟩
  · have hchain : s.chain.blocks = boot.blocks := by
      have happended : s.appended = [] := by
        have hp := hcopies.persisted
        rw [hnone] at hp
        exact (List.append_eq_nil_iff.mp hp.symm).1
      rw [hcopies.chain, happended, List.map_nil, List.append_nil]
    rw [hsame]
    exact .whole _ s.chain (hchain ▸ hfile) (Or.inr ⟨b, hb, htail⟩) hkeeps
  · rw [hmore]
    have hmem := unfinished_append_mem_getlines os.file (by simp) hnl hrest
    rw [htail] at hmem
    exact .damaged _ (damaged_of_line hmem (decode_text_append_object hb t))

omit [LawfulNumberFloat F] in
theorem keeps_fresh (sha256 : Bytes → Digest) (now : Tm) :
    Keeps (F := F) sha256 [] (.fresh sha256 now) := by
  obtain ⟨hvalid, hindexed⟩ := freshChain_indexed (F := F) sha256 now
  exact .of_sublist hvalid hindexed (List.nil_sublist _)

/-- A boot that succeeds has a chain with every acknowledged block in its place. -/
theorem Left.runBoot {acked : List (Block F)} {file : Option Bytes} (h : Left sha256 acked file)
    {now : Tm} {io : WriteOutcome} {boot : Chain F} {os : OFStream}
    (hboot : runBoot sha256 now file io = .ok (boot, os)) :
    os.failed = false ∧ WholeTail F os.file ∧ Keeps sha256 acked boot := by
  rw [Ledger.runBoot] at hboot
  cases h with
  | fresh _ hempty hacked =>
    have hload : loadChain sha256 now file = .ok (Chain.fresh (F := F) sha256 now) := by
      rcases file with _ | content
      · rfl
      · obtain rfl : content = [] := hempty
        rfl
    rw [hload] at hboot
    simp only [if_pos hempty] at hboot
    rcases ha : appendBlock (F := F) (openAppend file) (Chain.fresh sha256 now).latest io with
      ⟨e | ⟨⟨⟩⟩, log⟩
    · rw [ha] at hboot; cases hboot
    · rw [ha] at hboot
      cases hboot
      obtain ⟨hb, -, rfl⟩ := appendBlock_ok ha
      exact ⟨rfl, Or.inl (unfinished_append_line _ (newline_not_mem hb)),
        hacked ▸ keeps_fresh sha256 now⟩
  | damaged _ hdamaged =>
    obtain ⟨e, he⟩ := hdamaged now
    rw [he] at hboot
    cases hboot
  | whole content c hc htail hkeeps =>
    have hload := loadChain_of_encodes sha256 now c.ne_nil hc
    have hne : ¬(some content).getD [] = [] := by
      rintro rfl
      exact c.ne_nil (List.length_eq_zero_iff.mp hc.length_eq.symm)
    rw [hload] at hboot
    simp only [if_neg hne] at hboot
    cases hboot
    exact ⟨rfl, htail, hkeeps⟩

omit [LawfulNumberFloat F] in
theorem Left.of_empty {acked : List (Block F)} {file : Option Bytes} (h : Left sha256 acked file)
    (hempty : file.getD [] = []) {now : Tm} {chain : Chain F}
    (hload : loadChain sha256 now file = .ok chain) :
    acked = [] ∧ chain = .fresh sha256 now := by
  have hchain : chain = .fresh sha256 now := by
    rcases file with _ | content
    · exact (Except.ok.inj hload).symm
    · obtain rfl : content = [] := hempty
      exact (Except.ok.inj hload).symm
  cases h with
  | fresh _ _ hacked => exact ⟨hacked, hchain⟩
  | damaged _ hdamaged =>
    obtain ⟨e, he⟩ := hdamaged now
    cases he.symm.trans hload
  | whole content c hc =>
    obtain rfl : content = [] := hempty
    exact absurd (List.length_eq_zero_iff.mp hc.length_eq.symm) c.ne_nil

theorem Left.life {acked new : List (Block F)} {file file' : Option Bytes}
    (h : Left sha256 acked file) (hlife : Life sha256 capacity file new file') :
    Left sha256 (acked ++ new) file' := by
  cases hlife with
  | ended => rwa [List.append_nil]
  | stillborn now chain io e log hload hempty hwrite m =>
    obtain ⟨rfl, hchain⟩ := h.of_empty hempty hload
    have hopen : (openAppend file).file = [] := hempty
    rcases appendBlock_error hwrite with rfl | ⟨hb, -, n, -, rfl⟩
    · exact .fresh _ (by rw [OFStream.close_of_open rfl, hopen]; rfl) rfl
    · rw [OFStream.close, hopen, hchain, List.nil_append]
      have hnone : Encodes (getlines 0x0A []) ([] : List (Block F)) := .nil
      exact left_of_cut rfl hnone (hchain ▸ hb) rfl (keeps_fresh sha256 now) (.fresh _ rfl rfl) n m
  | served now io boot os s hboot hroom hrun content hleft =>
    obtain ⟨hf, htail, hkeeps⟩ := h.runBoot hboot
    have hgrew := hrun.grew hf (by omega)
    obtain ⟨m, -, rfl⟩ := hleft.exists_close
    rcases htail with hun | ⟨b, hb, hun⟩
    · exact hgrew.left_of_finished hrun (runBoot_encodes hboot) hun (hkeeps.served hrun) m
    · exact hgrew.left_of_unterminated hrun.copies (runBoot_encodes hboot) hb hun
        (hkeeps.served hrun) m

theorem History.left {acked : List (Block F)} {file : Option Bytes}
    (h : History sha256 capacity acked file) : Left sha256 acked file := by
  induction h with
  | installed => exact .fresh none rfl rfl
  | life _ hlife ih => exact ih.life hlife

omit [LawfulNumberFloat F] in
theorem Keeps.increasing {acked : List (Block F)} {c : Chain F} (h : Keeps sha256 acked c) :
    acked.Pairwise fun a b => a.index < b.index := by
  refine List.Pairwise.sublist h.ordered (List.pairwise_iff_getElem.mpr fun i j hi hj hij => ?_)
  rw [UInt64.lt_iff_toNat_lt, h.indexed i _ (Nat.zero_le i) (List.getElem?_eq_getElem hi),
    h.indexed j _ (Nat.zero_le j) (List.getElem?_eq_getElem hj)]
  exact hij

end Lawful

theorem runBoot_installed :
    runBoot sampleSha256 sampleClock none .complete =
      .ok (sampleChain, ⟨sampleGenesis.line, none⟩) := by
  have hwrite : appendBlock (openAppend none) sampleChain.latest .complete =
      (.ok (), ⟨sampleGenesis.line, none⟩) :=
    appendBlock_complete sampleGenesis_wellFormed rfl
  have hload : loadChain sampleSha256 sampleClock none = .ok sampleChain := rfl
  rw [runBoot, hload]
  simp only [Option.getD_none, if_true, hwrite]

def laterBlock : Block Numeral :=
  makeBlock sampleSha256 sampleClock 2 sampleEvent sampleBlock.hash

theorem laterBlock_wellFormed : laterBlock.WellFormed :=
  makeBlock_wellFormed _ _ _ _ sampleBlock_wellFormed.hash

theorem exists_answered_later : ∃ t, Reachable sampleSha256 1 (Appends AnyOutcome)
    ⟨sampleLedger, none⟩ ⟨[sampleGenesis, sampleBlock], by simp⟩ t ∧ Ready t 8 ∧
      t.log = ⟨sampleLedger ++ laterBlock.line, none⟩ ∧ t.replies = [(7, .ok laterBlock)] ∧
      t.chain = ⟨[sampleGenesis, sampleBlock, laterBlock], by simp⟩ := by
  have hready := ready_boot (OFStream.mk sampleLedger none)
    (⟨[sampleGenesis, sampleBlock], by simp⟩ : Chain Numeral) 7
  generalize hboot : State.boot (OFStream.mk sampleLedger none)
    (⟨[sampleGenesis, sampleBlock], by simp⟩ : Chain Numeral) = boot at hready
  have hnext : buildNext sampleSha256 sampleClock boot.chain sampleEvent = laterBlock := by
    subst hboot
    unfold buildNext laterBlock
    congr 1
  have happ : Appends AnyOutcome boot.log laterBlock (.ok ())
      ⟨sampleLedger ++ laterBlock.line, none⟩ := by
    subst hboot
    exact .of_appendBlock trivial (appendBlock_complete laterBlock_wellFormed rfl)
  rw [← hnext] at happ
  obtain ⟨t, hrun, ht, hlog, -, hreplies, hchain, -⟩ := hready.answer sampleEvent sampleClock
    zero_lt_one (by rw [← hboot]; decide) happ
  rw [hnext] at hlog hreplies hchain
  subst hboot
  exact ⟨t, hrun, ht, hlog, hreplies, hchain⟩

/-- Two lives that are killed. The second one loads what the first has left, and its disk fails
behind the block that it acknowledges. -/
theorem history_sample : History sampleSha256 1 [sampleBlock, laterBlock]
    (some (sampleLedger ++ laterBlock.line)) := by
  have happ : Appends AnyOutcome ⟨sampleGenesis.line, none⟩ sampleBlock (.ok ())
      ⟨sampleGenesis.line ++ sampleBlock.line, none⟩ :=
    .of_appendBlock trivial (appendBlock_complete sampleBlock_wellFormed rfl)
  obtain ⟨s, hrun, -, hlog, -, hreplies, -⟩ := exists_answered_sample happ
  have hlife := Life.served none sampleClock .complete sampleChain _ s runBoot_installed
    (show sampleChain.size + 1 < 2 ^ 64 by decide) hrun _ .killed
  rw [hreplies, hlog] at hlife
  obtain ⟨t, ht, hready, hlog', hreplies', hchain⟩ := exists_answered_later
  have hlast : (buildNext sampleSha256 sampleClock t.chain sampleEvent).WellFormed := by
    refine makeBlock_wellFormed _ _ _ _ ?_
    rw [hchain]
    exact laterBlock_wellFormed.hash
  have hfail : Appends AnyOutcome t.log _ _ _ := .of_appendBlock trivial
    (appendBlock_cut hlast (by rw [hlog']; rfl) 0)
  obtain ⟨u, hu, -, hlog'', -, hreplies'', -⟩ := hready.answer sampleEvent sampleClock zero_lt_one
    (by rw [hchain]; decide) hfail
  have hboot := (boot_eq_runBoot sampleSha256 sampleClock (some sampleLedger) .complete).symm.trans
    boot_sampleLedger_readable
  have hlife' := Life.served (some sampleLedger) sampleClock .complete _ _ u hboot (by decide)
    (ht.trans hu) _ .killed
  rw [hreplies'', hreplies', hlog'', hlog', List.take_zero, List.append_nil] at hlife'
  exact (History.installed.life hlife).life hlife'

theorem getlines_laterLedger : Encodes (getlines 0x0A (sampleLedger ++ laterBlock.line))
    [sampleGenesis, sampleBlock, laterBlock] := by
  have hwf : ∀ b ∈ [sampleGenesis, sampleBlock, laterBlock], b.WellFormed := by
    simp only [List.forall_mem_cons]
    exact ⟨sampleGenesis_wellFormed, sampleBlock_wellFormed, laterBlock_wellFormed, by simp⟩
  simpa [sampleLedger] using encodes_getlines hwf

end Ledger

import Ledger.Core.WriteFailure

/-! The boot of storage-core on every state of the ledger path. Whether the ledger is new is asked
twice: a size query says when genesis is persisted, an open for reading when it is seeded. -/
namespace Ledger
open Text Json
variable {F : Type} [NumberFloat F]

/-- What the ledger path leads to. -/
inductive LedgerPath
  | missing
  | readable (content : Bytes)
  /-- A file that opens for append and not for reading. -/
  | appendOnly (content : Bytes)

namespace LedgerPath

def content : LedgerPath → Bytes
  | .missing => []
  | .readable content | .appendOnly content => content

/-- `file_size`, which needs no permission to read the file; `none` is an error code. -/
def fileSize : LedgerPath → Option ℕ
  | .missing => none
  | .readable content | .appendOnly content => some content.length

/-- `load_chain`: a stream that does not open stands for a missing file. -/
def load (sha256 : Bytes → Digest) (now : Tm) : LedgerPath → Except StorageError (Chain F)
  | .readable content => loadChain sha256 now (some content)
  | .missing | .appendOnly _ => .ok (.fresh sha256 now)

end LedgerPath

/-- `run` up to the start of the writer. `opened` is how `open_append` ends. -/
def boot (sha256 : Bytes → Digest) (now : Tm) (path : LedgerPath)
    (opened : Except StorageError Unit) (io : WriteOutcome) :
    Except WriteError (Chain F × OFStream) :=
  let fresh := path.fileSize.all (· = 0)
  match path.load sha256 now with
  | .error e => .error (.storage e)
  | .ok chain =>
    match opened with
    | .error e => .error (.storage e)
    | .ok () =>
      let log : OFStream := ⟨path.content, none⟩
      if fresh then
        match appendBlock log chain.latest io with
        | (.error e, _) => .error e
        | (.ok (), log) => .ok (chain, log)
      else .ok (chain, log)

/-- On a path that can be read and written this is the boot of the write path. -/
theorem boot_eq_runBoot (sha256 : Bytes → Digest) (now : Tm) (file : Option Bytes)
    (io : WriteOutcome) :
    boot (F := F) sha256 now (file.elim .missing .readable) (.ok ()) io =
      runBoot sha256 now file io := by
  cases file with
  | none => rfl
  | some content =>
    unfold boot runBoot
    cases hl : loadChain (F := F) sha256 now (some content) with
    | error e => simp [LedgerPath.load, hl]
    | ok chain =>
      by_cases hempty : content.length = 0
      · have hnil : content = [] := List.eq_nil_of_length_eq_zero hempty
        rw [hnil] at hl
        rcases happend : appendBlock (F := F) ⟨[], none⟩ chain.latest io with ⟨e | ⟨⟨⟩⟩, log⟩
        all_goals simp [LedgerPath.load, hl, LedgerPath.fileSize, LedgerPath.content, openAppend,
          hnil, happend]
      · have hne : content ≠ [] := fun h => hempty (congrArg List.length h)
        simp [LedgerPath.load, hl, LedgerPath.fileSize, LedgerPath.content, openAppend, hne]

/-- The chain in memory and the file behind the boot are one ledger. -/
structure OneLedger (sha256 : Bytes → Digest) (now : Tm) (path : LedgerPath) (chain : Chain F)
    (log : OFStream) : Prop where
  encodes : Encodes (getlines 0x0A log.file) chain.blocks
  genesis : path.content = [] → log.file = (Ledger.genesis (F := F) sha256 now).line
  /-- The first block appended names the hash of the last block of the file. -/
  next : ∀ (now' : Tm) (event : EventPayload F) (blocks : List (Block F)),
    Encodes (getlines 0x0A log.file) blocks →
      blocks.getLast?.map Block.hash = some (buildNext sha256 now' chain event).prevHash

theorem OneLedger.of_encodes {sha256 : Bytes → Digest} {now : Tm} {path : LedgerPath}
    {chain : Chain F} {log : OFStream} (h : Encodes (getlines 0x0A log.file) chain.blocks)
    (hg : path.content = [] → log.file = (Ledger.genesis (F := F) sha256 now).line) :
    OneLedger sha256 now path chain log where
  encodes := h
  genesis := hg
  next now' event blocks hb := by
    rw [hb.unique h, List.getLast?_eq_getLast_of_ne_nil chain.ne_nil]
    rfl

section Boot
variable {sha256 : Bytes → Digest} {now : Tm} {opened : Except StorageError Unit}
  {io : WriteOutcome} {chain : Chain F} {log : OFStream}

theorem opened_of_boot {path : LedgerPath} (h : boot sha256 now path opened io = .ok (chain, log)) :
    opened = .ok () := by
  rcases opened with e | ⟨⟨⟩⟩
  · rw [boot] at h
    cases hl : path.load (F := F) sha256 now with
    | error e' => rw [hl] at h; cases h
    | ok c => rw [hl] at h; cases h
  · rfl

theorem boot_empty {path : LedgerPath} (hempty : path.content = [])
    (h : boot sha256 now path opened io = .ok (chain, log)) :
    chain = .fresh sha256 now ∧ log.file = chain.latest.line := by
  have hfresh : path.fileSize.all (· = 0) = true := by
    cases path with
    | missing => rfl
    | readable content | appendOnly content =>
      obtain rfl : content = [] := hempty
      rfl
  have hload : path.load sha256 now = .ok (Chain.fresh (F := F) sha256 now) := by
    cases path with
    | missing | appendOnly content => rfl
    | readable content =>
      obtain rfl : content = [] := hempty
      rfl
  rw [boot, hload] at h
  rcases opened with e | ⟨⟨⟩⟩
  · cases h
  · simp only [hfresh, if_true, hempty] at h
    rcases ha : appendBlock (F := F) ⟨[], none⟩ (Chain.fresh sha256 now).latest io with
      ⟨e | ⟨⟨⟩⟩, log'⟩
    · rw [ha] at h; cases h
    · rw [ha] at h
      cases h
      rw [(appendBlock_ok ha).2.2]
      exact ⟨rfl, rfl⟩

theorem LedgerPath.not_fresh {path : LedgerPath} (hne : path.content ≠ []) :
    path.fileSize.all (· = 0) = false := by
  cases path with
  | missing => exact absurd rfl hne
  | readable content | appendOnly content =>
    have hcontent : content ≠ [] := hne
    simpa [fileSize] using hcontent

theorem boot_nonempty {path : LedgerPath} (hne : path.content ≠ []) :
    boot sha256 now path opened io = .ok (chain, log) ↔
      path.load sha256 now = .ok chain ∧ opened = .ok () ∧ log = ⟨path.content, none⟩ := by
  rw [boot]
  cases hl : path.load (F := F) sha256 now with
  | error e => simp
  | ok c =>
    rcases opened with e | ⟨⟨⟩⟩
    · simp
    · simp [LedgerPath.not_fresh hne, eq_comm]

/-- A boot that completes leaves one ledger in memory and on disk, unless the file has content it
may not read: then the seeded genesis would have to be the whole file. -/
theorem boot_one_ledger_iff [LawfulNumberFloat F] {path : LedgerPath}
    (h : boot sha256 now path opened io = .ok (chain, log)) :
    OneLedger sha256 now path chain log ↔
      ∀ content, path = .appendOnly content → content ≠ [] →
        Encodes (getlines 0x0A content) [Ledger.genesis (F := F) sha256 now] := by
  constructor
  · rintro hone content rfl hne
    have hcontent : (LedgerPath.appendOnly content).content ≠ [] := hne
    obtain ⟨hload, -, rfl⟩ := (boot_nonempty hcontent).mp h
    have hencodes := hone.encodes
    rw [← Except.ok.inj hload] at hencodes
    exact hencodes
  · intro hcond
    obtain rfl := opened_of_boot h
    refine .of_encodes ?_ fun hempty => ?_
    · cases path with
      | missing => exact runBoot_encodes ((boot_eq_runBoot sha256 now none io).symm.trans h)
      | readable content =>
        exact runBoot_encodes ((boot_eq_runBoot sha256 now (some content) io).symm.trans h)
      | appendOnly content =>
        by_cases hempty : content = []
        · subst hempty
          exact runBoot_encodes ((boot_eq_runBoot sha256 now none io).symm.trans h)
        · have hne : (LedgerPath.appendOnly content).content ≠ [] := hempty
          obtain ⟨hload, -, rfl⟩ := (boot_nonempty hne).mp h
          rw [← Except.ok.inj hload]
          exact hcond content rfl hempty
    · obtain ⟨rfl, hfile⟩ := boot_empty hempty h
      exact hfile

end Boot

theorem boot_sampleLedger_readable :
    boot sampleSha256 sampleClock (.readable sampleLedger) (.ok ()) .complete =
      .ok (⟨[sampleGenesis, sampleBlock], by simp⟩, ⟨sampleLedger, none⟩) := by
  have hload : loadChain sampleSha256 sampleClock (some sampleLedger) =
      .ok ⟨[sampleGenesis, sampleBlock], by simp⟩ :=
    loadChain_of_encodes _ _ _ getlines_sampleLedger
  have hne : (LedgerPath.readable sampleLedger).content ≠ [] := sampleLedger_ne_nil
  exact (boot_nonempty hne).mpr ⟨hload, rfl, rfl⟩

theorem boot_one_ledger_iff_sample :
    OneLedger sampleSha256 sampleClock (.readable sampleLedger)
      ⟨[sampleGenesis, sampleBlock], by simp⟩ ⟨sampleLedger, none⟩ :=
  (boot_one_ledger_iff boot_sampleLedger_readable).mpr fun _ hpath => by cases hpath

/-- Behind a file it may not read the boot seeds a second genesis. -/
theorem unreadable_ledger_forks :
    ¬ ∀ (path : LedgerPath) (opened : Except StorageError Unit) (io : WriteOutcome)
      (chain : Chain Numeral) (log : OFStream),
      boot sampleSha256 sampleClock path opened io = .ok (chain, log) →
        OneLedger sampleSha256 sampleClock path chain log := by
  intro h
  have hne : (LedgerPath.appendOnly sampleLedger).content ≠ [] := sampleLedger_ne_nil
  have hboot : boot sampleSha256 sampleClock (.appendOnly sampleLedger) (.ok ()) .complete =
      .ok (Chain.fresh (F := Numeral) sampleSha256 sampleClock, ⟨sampleLedger, none⟩) :=
    (boot_nonempty hne).mpr ⟨rfl, rfl, rfl⟩
  have hblocks := (h _ _ _ _ _ hboot).encodes.unique getlines_sampleLedger
  cases congrArg List.length hblocks

end Ledger

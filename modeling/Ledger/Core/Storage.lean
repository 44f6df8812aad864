import Ledger.Core.Chain
import Ledger.Text.Lines

/-! The ledger file: one JSON object a line, appended by the writer and read back at boot. -/
namespace Ledger
open Text Json
variable {F : Type} [NumberFloat F]

/-- `StorageError`. -/
structure StorageError where
  what : Bytes
  deriving DecidableEq

/-- What `append_block` can throw: its own error, or the one `dump()` throws. -/
inductive WriteError
  | storage (e : StorageError)
  | json (e : Json.Exception)
  deriving DecidableEq

/-- A file opened for appending. Nothing clears a failure once there is one; it comes with what the
buffer still holds. -/
structure OFStream where
  file : Bytes
  failure : Option Bytes := none
  deriving DecidableEq

namespace OFStream

def failed (os : OFStream) : Bool :=
  os.failure.isSome

def pending (os : OFStream) : Bytes :=
  os.failure.getD []

/-- `~ofstream`, which writes what is pending; `m` bytes of it arrive. -/
def close (os : OFStream) (m : ℕ) : Bytes :=
  os.file ++ os.pending.take m

end OFStream

/-- What the operating system makes of writing one line and flushing it: all of it arrives,
or an error is reported after `n` bytes of the JSON text. -/
inductive WriteOutcome
  | complete
  | cut (n : ℕ)

/-- The put area of libstdc++'s `filebuf`. -/
def putArea : ℕ := 8191

/-- What the buffer holds behind a write that failed. It gives up its bytes only when all of them
are written; a text that does not fit in is written at once, and the newline is put behind it. -/
def unflushed (line : Bytes) (n : ℕ) : Bytes :=
  if line.length < putArea then line ++ [0x0A] else if n < line.length then [] else [0x0A]

def openAppend (file : Option Bytes) : OFStream :=
  ⟨file.getD [], none⟩

def appendFailed : StorageError :=
  ⟨ascii "failed to append block to ledger log"⟩

def appendBlock (os : OFStream) (block : Block F) (io : WriteOutcome) :
    Except WriteError Unit × OFStream :=
  match Json.dump block.toJson with
  | .error e => (.error (.json e), os)
  | .ok line =>
    if os.failed then (.error (.storage appendFailed), os)
    else match io with
      | .complete => (.ok (), { os with file := os.file ++ (line ++ [0x0A]) })
      | .cut n =>
        (.error (.storage appendFailed), ⟨os.file ++ line.take n, some (unflushed line n)⟩)

/-- A sequence of `append_block` calls that all succeed, or the first error. -/
def appendAll (os : OFStream) : List (Block F) → Except WriteError OFStream
  | [] => .ok os
  | b :: blocks =>
    match appendBlock os b .complete with
    | (.error e, _) => .error e
    | (.ok (), os') => appendAll os' blocks

/-- The loop of `load_chain` behind `lineno` lines. -/
def loadLines (lineno : ℕ) : List Bytes → Except StorageError (List (Block F))
  | [] => .ok []
  | line :: lines =>
    match Block.decode line with
    | .error e =>
      .error ⟨ascii "malformed ledger line " ++ decimal (lineno + 1) ++ ascii ": " ++ e.what⟩
    | .ok b => do return b :: (← loadLines (lineno + 1) lines)

/-- A file without lines stands for a fresh chain. -/
def Chain.load (sha256 : Bytes → Digest) (now : Tm) (blocks : List (Block F)) : Chain F :=
  if h : blocks = [] then .fresh sha256 now else ⟨blocks, h⟩

/-- `none` is a file that is missing. -/
def loadChain (sha256 : Bytes → Digest) (now : Tm) (file : Option Bytes) :
    Except StorageError (Chain F) :=
  match file with
  | none => .ok (.fresh sha256 now)
  | some content => do return .load sha256 now (← loadLines 0 (getlines 0x0A content))

/-- Each line decodes to the block in its place. -/
def Encodes (lines : List Bytes) (blocks : List (Block F)) : Prop :=
  List.Forall₂ (fun line b => Block.decode line = .ok b) lines blocks

theorem loadLines_ok_iff {lineno : ℕ} {lines : List Bytes} {blocks : List (Block F)} :
    loadLines lineno lines = .ok blocks ↔ Encodes lines blocks := by
  induction lines generalizing lineno blocks with
  | nil =>
    rw [loadLines, Encodes, List.forall₂_nil_left_iff]
    exact ⟨fun h => (Except.ok.inj h).symm, fun h => congrArg _ h.symm⟩
  | cons line lines ih =>
    rw [loadLines, Encodes, List.forall₂_cons_left_iff]
    cases hd : Block.decode (F := F) line with
    | error e => simp
    | ok b =>
      cases hl : loadLines (F := F) (lineno + 1) lines with
      | error e =>
        refine iff_of_false (by rintro ⟨⟩) ?_
        rintro ⟨c, cs, -, hcs, -⟩
        cases hl.symm.trans (ih.mpr hcs)
      | ok bs =>
        constructor
        · intro h
          exact ⟨b, bs, rfl, ih.mp hl, (Except.ok.inj h).symm⟩
        · rintro ⟨c, cs, hc, hcs, rfl⟩
          cases hc
          cases hl.symm.trans (ih.mpr hcs)
          rfl

theorem loadLines_error {lines : List Bytes} {blocks : List (Block F)} (h : Encodes lines blocks)
    {line : Bytes} {e : Json.Exception} (he : Block.decode (F := F) line = .error e)
    (rest : List Bytes) (lineno : ℕ) :
    loadLines (F := F) lineno (lines ++ line :: rest) =
      .error ⟨ascii "malformed ledger line " ++ decimal (lineno + lines.length + 1) ++ ascii ": " ++
        e.what⟩ := by
  induction h generalizing lineno with
  | nil => simp only [List.nil_append, loadLines, he, List.length_nil, add_zero]
  | @cons line' b lines blocks hb _ ih =>
    rw [List.cons_append, loadLines, hb]
    dsimp only
    rw [ih (lineno + 1), List.length_cons,
      show lineno + 1 + lines.length = lineno + (lines.length + 1) by omega]
    rfl

theorem Encodes.append {lines lines' : List Bytes} {blocks blocks' : List (Block F)}
    (h : Encodes lines blocks) (h' : Encodes lines' blocks') :
    Encodes (lines ++ lines') (blocks ++ blocks') :=
  List.rel_append h h'

theorem Encodes.length_eq {lines : List Bytes} {blocks : List (Block F)}
    (h : Encodes lines blocks) : lines.length = blocks.length :=
  List.Forall₂.length_eq h

theorem Encodes.unique {lines : List Bytes} {blocks blocks' : List (Block F)}
    (h : Encodes lines blocks) (h' : Encodes lines blocks') : blocks = blocks' :=
  Except.ok.inj ((loadLines_ok_iff.mpr h : loadLines 0 lines = .ok blocks).symm.trans
    (loadLines_ok_iff.mpr h'))

section Load
variable (sha256 : Bytes → Digest) (now : Tm)

theorem getlines_ne_nil {content : Bytes} (h : content ≠ []) : getlines 0x0A content ≠ [] := by
  intro hl
  rw [getlines_eq, List.append_eq_nil_iff] at hl
  obtain ⟨hf, hu⟩ := hl
  split_ifs at hu with hun
  rcases (unfinished_eq_nil_iff content).mp hun with hc | hc
  · exact h hc
  · have hcount : finished 0x0A content ≠ [] := by
      obtain ⟨s, rfl⟩ := List.getLast?_eq_some_iff.mp hc
      rw [finished, splitFrom_append]
      simp [splitFrom]
    exact hcount hf

theorem loadChain_ok_iff {content : Bytes} (hne : content ≠ []) {c : Chain F} :
    loadChain sha256 now (some content) = .ok c ↔ Encodes (getlines 0x0A content) c.blocks := by
  rw [loadChain, ← @loadLines_ok_iff F _ 0]
  cases hl : loadLines (F := F) 0 (getlines 0x0A content) with
  | error e =>
    refine iff_of_false (by rintro ⟨⟩) (by rintro ⟨⟩)
  | ok blocks =>
    have hb : blocks ≠ [] := by
      intro h
      have := (loadLines_ok_iff.mp hl).length_eq
      rw [h] at this
      exact getlines_ne_nil hne (List.length_eq_zero_iff.mp this)
    change Except.ok (Chain.load sha256 now blocks) = .ok c ↔ _
    rw [Chain.load, dif_neg hb, Except.ok.injEq, Except.ok.injEq]
    constructor
    · rintro rfl; rfl
    · rintro rfl; rfl

theorem loadChain_of_encodes {content : Bytes} {blocks : List (Block F)} (hb : blocks ≠ [])
    (h : Encodes (getlines 0x0A content) blocks) :
    loadChain sha256 now (some content) = .ok ⟨blocks, hb⟩ := by
  refine (loadChain_ok_iff sha256 now ?_).mpr h
  rintro rfl
  exact hb (List.length_eq_zero_iff.mp h.length_eq.symm)

end Load

theorem OFStream.failed_eq_false {os : OFStream} : os.failed = false ↔ os = ⟨os.file, none⟩ := by
  obtain ⟨file, _ | pending⟩ := os
  · simp [failed]
  · simp [failed]

/-- The line `append_block` writes for a block, its newline included. -/
def Block.line (b : Block F) : Bytes :=
  text b.toJson ++ [0x0A]

theorem appendBlock_ok {os os' : OFStream} {b : Block F} {io : WriteOutcome}
    (h : appendBlock os b io = (.ok (), os')) :
    b.WellFormed ∧ os.failed = false ∧ os' = ⟨os.file ++ b.line, none⟩ := by
  unfold appendBlock at h
  cases hd : Json.dump b.toJson with
  | error e => rw [hd] at h; cases h
  | ok line =>
    have hb : b.WellFormed := Block.dump_ok_iff.mp ⟨line, hd⟩
    rw [dump_eq_text hb.toJson_valid] at hd
    cases hd
    rw [dump_eq_text hb.toJson_valid] at h
    dsimp only at h
    split_ifs at h with hf
    · cases h
    · have hf : os.failed = false := by simpa using hf
      rw [OFStream.failed_eq_false] at hf
      cases io with
      | complete => cases h; exact ⟨hb, OFStream.failed_eq_false.mpr hf, by rw [hf]; rfl⟩
      | cut n => cases h

theorem appendBlock_error {os os' : OFStream} {b : Block F} {io : WriteOutcome} {e : WriteError}
    (h : appendBlock os b io = (.error e, os')) :
    os' = os ∨ b.WellFormed ∧ os.failed = false ∧
      ∃ n, io = .cut n ∧ os' = ⟨os.file ++ (text b.toJson).take n,
        some (unflushed (text b.toJson) n)⟩ := by
  unfold appendBlock at h
  cases hd : Json.dump b.toJson with
  | error e => rw [hd] at h; cases h; exact Or.inl rfl
  | ok line =>
    have hb : b.WellFormed := Block.dump_ok_iff.mp ⟨line, hd⟩
    rw [dump_eq_text hb.toJson_valid] at hd h
    cases hd
    dsimp only at h
    split_ifs at h with hf
    · cases h; exact Or.inl rfl
    · cases io with
      | complete => cases h
      | cut n => cases h; exact Or.inr ⟨hb, by simpa using hf, n, rfl, rfl⟩

theorem appendBlock_complete {os : OFStream} {b : Block F} (hb : b.WellFormed)
    (hf : os.failed = false) :
    appendBlock os b .complete = (.ok (), ⟨os.file ++ b.line, none⟩) := by
  rw [OFStream.failed_eq_false] at hf
  rw [hf]
  simp [appendBlock, dump_eq_text hb.toJson_valid, OFStream.failed, Block.line]

theorem appendAll_ok {os os' : OFStream} {bs : List (Block F)} (h : appendAll os bs = .ok os')
    (hf : os.failed = false) :
    (∀ b ∈ bs, b.WellFormed) ∧ os' = ⟨os.file ++ bs.flatMap Block.line, none⟩ := by
  induction bs generalizing os with
  | nil =>
    obtain rfl : os = os' := Except.ok.inj h
    exact ⟨by simp, by simpa using OFStream.failed_eq_false.mp hf⟩
  | cons b bs ih =>
    rw [appendAll] at h
    rcases ha : appendBlock os b .complete with ⟨_ | ⟨⟨⟩⟩, os''⟩
    · rw [ha] at h; cases h
    · rw [ha] at h
      obtain ⟨hb, -, rfl⟩ := appendBlock_ok ha
      obtain ⟨hbs, rfl⟩ := ih h rfl
      exact ⟨List.forall_mem_cons.mpr ⟨hb, hbs⟩, by simp⟩

/-- `append_block` takes every block whose strings are well-formed. -/
theorem appendAll_complete {os : OFStream} (hf : os.failed = false) {bs : List (Block F)}
    (h : ∀ b ∈ bs, b.WellFormed) :
    appendAll os bs = .ok ⟨os.file ++ bs.flatMap Block.line, none⟩ := by
  induction bs generalizing os with
  | nil =>
    rw [appendAll, List.flatMap_nil, List.append_nil, ← OFStream.failed_eq_false.mp hf]
  | cons b bs ih =>
    obtain ⟨hb, hbs⟩ := List.forall_mem_cons.mp h
    rw [appendAll, appendBlock_complete hb hf]
    dsimp only
    rw [ih rfl hbs, List.flatMap_cons, List.append_assoc]

theorem newline_not_mem {b : Block F} [LawfulNumberFloat F] (hb : b.WellFormed) :
    (0x0A : UInt8) ∉ text b.toJson :=
  newline_not_mem_text hb.toJson_valid

section Lawful
variable [LawfulNumberFloat F]

theorem encodes_lines {bs : List (Block F)} (h : ∀ b ∈ bs, b.WellFormed) :
    Encodes (bs.map fun b => text b.toJson) bs := by
  induction bs with
  | nil => exact List.Forall₂.nil
  | cons b bs ih =>
    exact List.Forall₂.cons (Block.decode_text (h b (by simp))) (ih fun c hc => h c (by simp [hc]))

/-- Lines written behind a file with nothing unfinished are lines of their own. -/
theorem finished_append_lines {s : Bytes} (hs : unfinished 0x0A s = []) {bs : List (Block F)}
    (h : ∀ b ∈ bs, b.WellFormed) :
    finished 0x0A (s ++ bs.flatMap Block.line) =
        finished 0x0A s ++ bs.map (fun b => text b.toJson) ∧
      unfinished 0x0A (s ++ bs.flatMap Block.line) = [] := by
  induction bs generalizing s with
  | nil => simpa using hs
  | cons b bs ih =>
    have hnl := newline_not_mem (h b (by simp))
    have hun := unfinished_append_line s hnl
    obtain ⟨h1, h2⟩ := ih (s := s ++ b.line) hun fun c hc => h c (by simp [hc])
    rw [List.flatMap_cons, ← List.append_assoc]
    refine ⟨?_, h2⟩
    rw [h1, Block.line, finished_append_line s hnl, hs]
    simp

theorem encodes_getlines {bs : List (Block F)} (h : ∀ b ∈ bs, b.WellFormed) :
    Encodes (getlines 0x0A (bs.flatMap Block.line)) bs := by
  obtain ⟨hfin, hun⟩ := finished_append_lines (s := []) rfl h
  rw [List.nil_append] at hfin hun
  rw [getlines_of_unfinished_nil hun, hfin]
  exact encodes_lines h

end Lawful
end Ledger

import Ledger.Core.Integrity

/-! Failed writes: what of a block whose request got an error is left, in memory and in the file
the next boot reads. -/
namespace Ledger
open Text Json
variable {F : Type} [NumberFloat F]

/-- `run` up to the start of the writer: load, open, and persist the genesis of a fresh chain. -/
def runBoot (sha256 : Bytes → Digest) (now : Tm) (file : Option Bytes) (io : WriteOutcome) :
    Except WriteError (Chain F × OFStream) :=
  match loadChain sha256 now file with
  | .error e => .error (.storage e)
  | .ok chain =>
    if file.getD [] = [] then
      match appendBlock (openAppend file) chain.latest io with
      | (.error e, _) => .error e
      | (.ok (), log) => .ok (chain, log)
    else .ok (chain, openAppend file)

/-- `blocks` are those of the boot and some made for requests other than `id`. -/
def WithoutRequest {Log : Type} (boot : Chain F) (s : State F Log) (id : ℕ)
    (blocks : List (Block F)) : Prop :=
  ∃ contributed, List.Sublist contributed s.created ∧ id ∉ contributed.map Prod.fst ∧
    blocks = boot.blocks ++ contributed.map Prod.snd

/-- A write that fails behind a finished line leaves less than the whole JSON text there. -/
def ShortCut (os : OFStream) (b : Block F) (io : WriteOutcome) : Prop :=
  ∀ n, io = .cut n → n < (text b.toJson).length ∨ unfinished 0x0A os.file ≠ []

/-- And so does what is written when the stream is destroyed. -/
def ShortClose (os : OFStream) (m : ℕ) : Prop :=
  os.pending = [] ∨ m + 1 < os.pending.length ∨ unfinished 0x0A os.file ≠ []

/-- What the next boot may find. The process was killed, or `writer_loop` has returned, and its
stream has been destroyed. -/
inductive LeftBehind (Allowed : OFStream → ℕ → Prop) (s : State F OFStream) : Bytes → Prop
  | killed : LeftBehind Allowed s s.log.file
  | destroyed (m : ℕ) (h : s.writer = .stopped) (hm : Allowed s.log m) :
    LeftBehind Allowed s (s.log.close m)

theorem Writer.mem_inService {w : Writer F} {id : ℕ} {b : Block F}
    (h : (id, b) ∈ w.unreplied ∨ (id, b) ∈ w.unpublished ∨ (id, b) ∈ w.unpushed) :
    id ∈ w.inService := by
  cases w with
  | replying id' x => rcases x with e | c <;> simp_all [unreplied, unpublished, unpushed, inService]
  | _ => simp_all [unreplied, unpublished, unpushed, inService]

/-- A block whose request got an error was not persisted. -/
theorem Serving.not_mem_persisted {Log : Type} {s : State F Log} {boot : Chain F}
    (hq : Queueing s) (hv : Serving s) (hc : Copies boot s) {id : ℕ} {e : WriteError}
    (he : (id, .error e) ∈ s.replies) : id ∉ s.persisted.map Prod.fst := by
  have hp := (hv.promises id (.error e)).mpr he
  intro h
  obtain ⟨⟨_, b⟩, hb, rfl⟩ := List.mem_map.mp h
  rw [hc.persisted, hc.appended, List.mem_append, List.mem_append, List.mem_append, mem_successes,
    ← hv.promises, or_assoc, or_assoc] at hb
  rcases hb with hb | hb
  · cases hp.symm.trans hb
  · cases hp.symm.trans (hv.unsatisfied hq (Writer.mem_inService hb))

/-- An object behind an unfinished line is not read, or is read as if it was not there. -/
theorem decode_append_object {u : Bytes} {v : Json F} (hu : parse u = .ok v) {t : Bytes}
    {b : Block F} (h : Block.decode (u ++ 0x7B :: t) = .ok b) : Block.decode u = .ok b := by
  rw [Block.decode] at h ⊢
  rcases parse_append_object (t := t) hu with ⟨e, he⟩ | hv
  · cases hd : parseDocument (F := F) (u ++ 0x7B :: t) with
    | error e => rw [hd] at h; cases h
    | ok j => cases he.symm.trans (parse_of_parseDocument hd)
  · rw [parseDocument_ok hv] at h
    rw [parseDocument_ok hu]
    exact h

theorem Encodes.append_singleton {lines : List Bytes} {line : Bytes} {blocks : List (Block F)}
    (h : Encodes (lines ++ [line]) blocks) :
    ∃ blocks' b, blocks = blocks' ++ [b] ∧ Encodes lines blocks' ∧ Block.decode line = .ok b := by
  induction lines generalizing blocks with
  | nil =>
    obtain ⟨b, bs, hb, hbs, rfl⟩ := List.forall₂_cons_left_iff.mp h
    rw [List.forall₂_nil_left_iff] at hbs
    exact ⟨[], b, by rw [hbs]; rfl, .nil, hb⟩
  | cons line' lines ih =>
    obtain ⟨c, bs, hc, hbs, rfl⟩ := List.forall₂_cons_left_iff.mp h
    obtain ⟨blocks', b, rfl, hl, hb⟩ := ih hbs
    exact ⟨c :: blocks', b, rfl, .cons hc hl, hb⟩

theorem Encodes.of_append_object {lines : List Bytes} {u t : Bytes} {v : Json F}
    (hu : parse u = .ok v) {blocks : List (Block F)}
    (h : Encodes (lines ++ [u ++ 0x7B :: t]) blocks) : Encodes (lines ++ [u]) blocks := by
  obtain ⟨blocks', b, rfl, hl, hb⟩ := h.append_singleton
  exact hl.append (.cons (decode_append_object hu hb) .nil)

theorem Block.text_eq_cons (b : Block F) : ∃ t, text b.toJson = 0x7B :: 0x22 :: 0x65 :: t := by
  rw [Block.toJson_eq, text]
  exact ⟨_, rfl⟩

theorem take_text_ne_nil {b : Block F} {n : ℕ} (h0 : n ≠ 0) : (text b.toJson).take n ≠ [] := by
  obtain ⟨t, ht⟩ := b.text_eq_cons
  simp [ht, h0]

theorem Block.decode_ne_ok {line : Bytes} (h : ∀ v : Json F, parse line ≠ .ok v) (d : Block F) :
    Block.decode line ≠ .ok d := by
  intro hd
  rw [Block.decode] at hd
  cases hj : parseDocument (F := F) line with
  | error e => rw [hj] at hd; cases hd
  | ok j => exact h j.1 (parse_of_parseDocument hj)

theorem getlines_append (s : Bytes) {t rest : Bytes} (ht : t ≠ []) (hnl : (0x0A : UInt8) ∉ t)
    (hrest : rest = [] ∨ rest = [0x0A]) : getlines 0x0A (s ++ (t ++ rest)) =
      finished 0x0A s ++ [unfinished 0x0A s ++ t] := by
  rcases hrest with rfl | rfl
  · have hun := unfinished_append_of_not_mem s hnl
    rw [List.append_nil, getlines_of_unfinished (by rw [hun]; simp [ht]), hun,
      finished_append_of_not_mem _ hnl]
  · rw [getlines_of_unfinished_nil (unfinished_append_line _ hnl), finished_append_line _ hnl]

theorem length_unflushed_le (line : Bytes) (n : ℕ) :
    (unflushed line n).length ≤ line.length + 1 := by
  unfold unflushed
  split_ifs <;> simp

theorem take_unflushed (line : Bytes) (n m : ℕ) :
    (unflushed line n).take m = [] ∨
      0 < m ∧ m ≤ line.length ∧ (unflushed line n).take m = line.take m ∨
      line.length < m ∧ (unflushed line n).take m = line ++ [0x0A] ∨
      line.length ≤ n ∧ (unflushed line n).take m = [0x0A] := by
  rcases Nat.eq_zero_or_pos m with rfl | hm
  · exact Or.inl (List.take_zero ..)
  unfold unflushed
  split_ifs with hfits hn
  · rcases Nat.lt_or_ge line.length m with hlt | hle
    · exact Or.inr (Or.inr (Or.inl ⟨hlt, List.take_of_length_le (by simp; omega)⟩))
    · exact Or.inr (Or.inl ⟨hm, hle, List.take_append_of_le_length hle⟩)
  · exact Or.inl (List.take_nil ..)
  · exact Or.inr (Or.inr (Or.inr ⟨by omega, List.take_of_length_le hm⟩))

theorem Block.head_text (b : Block F) : (text b.toJson).head? = some 0x7B := by
  obtain ⟨t, ht⟩ := b.text_eq_cons
  rw [ht]
  rfl

theorem Block.text_length_pos (b : Block F) : 0 < (text b.toJson).length := by
  obtain ⟨t, ht⟩ := b.text_eq_cons
  rw [ht]
  exact Nat.succ_pos _

theorem Block.head_take_text (b : Block F) {n : ℕ} (hn : n ≠ 0) :
    ((text b.toJson).take n).head? = some 0x7B := by
  rw [List.head?_take, if_neg hn, b.head_text]

/-- What a write that failed after `n` bytes, and the destructor's after `m`, leave in the file. -/
def remains (line : Bytes) (n m : ℕ) : Bytes :=
  line.take n ++ (unflushed line n).take m

/-- A line that begins with an object and is no block, or the whole JSON text if it can be. -/
def LineOf (b : Block F) (whole : Prop) (t : Bytes) : Prop :=
  ∃ x rest, t = x ++ rest ∧ x.head? = some 0x7B ∧ (0x0A : UInt8) ∉ x ∧
    (rest = [] ∨ rest = [0x0A]) ∧
    ((∀ d : Block F, Block.decode x ≠ .ok d) ∨ x = text b.toJson ∧ whole)

theorem LineOf.imp {b : Block F} {whole whole' : Prop} {t : Bytes} (h : LineOf b whole t)
    (himp : whole → whole') : LineOf b whole' t := by
  obtain ⟨x, rest, ht, hhead, hnl, hrest, hline⟩ := h
  exact ⟨x, rest, ht, hhead, hnl, hrest, hline.imp_right fun hx => ⟨hx.1, himp hx.2⟩⟩

section Remains
variable [LawfulNumberFloat F] {b : Block F}

theorem newline_not_mem_take (hb : b.WellFormed) (n : ℕ) :
    (0x0A : UInt8) ∉ (text b.toJson).take n :=
  fun h => newline_not_mem hb (List.mem_of_mem_take h)

theorem decode_text_append_object (hb : b.WellFormed) (t : Bytes) (d : Block F) :
    Block.decode (text b.toJson ++ 0x7B :: t) ≠ .ok d := by
  obtain ⟨e, he⟩ := parse_text_append_object hb.toJson_valid t
  refine Block.decode_ne_ok (fun v hv => ?_) d
  cases he.symm.trans hv

theorem decode_cut (hb : b.WellFormed) {n : ℕ} (h0 : n ≠ 0) (hn : n < (text b.toJson).length)
    (d : Block F) : Block.decode ((text b.toJson).take n) ≠ .ok d := by
  have hv := hb.toJson_valid
  have htake := take_text_ne_nil (b := b) h0
  have hcut := List.take_append_drop n (text b.toJson)
  have hdrop : (text b.toJson).drop n ≠ [] := by simpa using hn
  rw [Block.toJson_eq] at hv htake hcut hdrop ⊢
  exact Block.decode_ne_ok (parse_cut_object hv htake hdrop hcut.symm) d

theorem decode_cut_append (hb : b.WellFormed) {n : ℕ} (h0 : n ≠ 0)
    (hn : n < (text b.toJson).length) {w u : Bytes} (hw : w ≠ []) (h : text b.toJson = w ++ u)
    (d : Block F) : Block.decode ((text b.toJson).take n ++ w) ≠ .ok d := by
  have hv := hb.toJson_valid
  have htake := take_text_ne_nil (b := b) h0
  have hcut := List.take_append_drop n (text b.toJson)
  have hdrop : (text b.toJson).drop n ≠ [] := by simpa using hn
  have hgap : ¬Nest.Gap 0x65 := by
    unfold Nest.Gap Nest.Closer
    decide
  obtain ⟨t, ht⟩ := b.text_eq_cons
  rw [Block.toJson_eq] at hv htake hcut hdrop h ht ⊢
  exact Block.decode_ne_ok
    (parse_cut_object_append hv hv htake hdrop hw hcut.symm h hgap ht) d

theorem remains_of_nothing (hb : b.WellFormed) (m : ℕ) :
    remains (text b.toJson) 0 m = [] ∨
      LineOf b ((text b.toJson).length ≤ m) (remains (text b.toJson) 0 m) := by
  have hpos := b.text_length_pos
  rw [remains, List.take_zero, List.nil_append]
  rcases take_unflushed (text b.toJson) 0 m with h | ⟨hm, hle, h⟩ | ⟨hlt, h⟩ | ⟨hle, -⟩
  · exact Or.inl h
  · refine Or.inr ⟨_, [], by rw [h, List.append_nil], b.head_take_text (by omega),
      newline_not_mem_take hb m, Or.inl rfl, ?_⟩
    rcases hle.lt_or_eq with hlt | heq
    · exact Or.inl (decode_cut hb (by omega) hlt)
    · exact Or.inr ⟨by rw [heq, List.take_length], heq.ge⟩
  · exact Or.inr ⟨_, _, h, b.head_text, newline_not_mem hb, Or.inr rfl, Or.inr ⟨rfl, hlt.le⟩⟩
  · omega

theorem remains_of_part (hb : b.WellFormed) {n : ℕ} (h0 : n ≠ 0)
    (hn : n < (text b.toJson).length) (m : ℕ) :
    LineOf b False (remains (text b.toJson) n m) := by
  have hhead (w : Bytes) : ((text b.toJson).take n ++ w).head? = some 0x7B := by
    rw [List.head?_append, b.head_take_text h0]
    rfl
  have hnl {w : Bytes} (hw : (0x0A : UInt8) ∉ w) : (0x0A : UInt8) ∉ (text b.toJson).take n ++ w :=
    fun hmem => (List.mem_append.mp hmem).elim (newline_not_mem_take hb n) hw
  unfold remains
  rcases take_unflushed (text b.toJson) n m with h | ⟨hm, -, h⟩ | ⟨-, h⟩ | ⟨hle, -⟩
  · exact ⟨_, [], by rw [h], b.head_take_text h0, newline_not_mem_take hb n, Or.inl rfl,
      Or.inl (decode_cut hb h0 hn)⟩
  · exact ⟨_, [], by rw [h, List.append_nil], hhead _, hnl (newline_not_mem_take hb m), Or.inl rfl,
      Or.inl (decode_cut_append hb h0 hn (take_text_ne_nil (by omega))
        (List.take_append_drop m _).symm)⟩
  · exact ⟨_, [0x0A], by rw [h, List.append_assoc], hhead _, hnl (newline_not_mem hb), Or.inr rfl,
      Or.inl (decode_cut_append hb h0 hn (List.ne_nil_of_length_pos b.text_length_pos)
        (List.append_nil _).symm)⟩
  · omega

theorem remains_of_whole (hb : b.WellFormed) {n : ℕ} (hn : (text b.toJson).length ≤ n) (m : ℕ) :
    LineOf b True (remains (text b.toJson) n m) := by
  have hnl := newline_not_mem hb
  have hhead (w : Bytes) : (text b.toJson ++ w).head? = some 0x7B := by
    rw [List.head?_append, b.head_text]
    rfl
  have hobject (w : Bytes) (hw : w.head? = some 0x7B) (d : Block F) :
      Block.decode (text b.toJson ++ w) ≠ .ok d := by
    obtain ⟨w', rfl⟩ := List.head?_eq_some_iff.mp hw
    exact decode_text_append_object hb w' d
  rw [remains, List.take_of_length_le hn]
  rcases take_unflushed (text b.toJson) n m with h | ⟨hm, -, h⟩ | ⟨-, h⟩ | ⟨-, h⟩
  · exact ⟨_, [], by rw [h], b.head_text, hnl, Or.inl rfl, Or.inr ⟨rfl, trivial⟩⟩
  · exact ⟨_, [], by rw [h, List.append_nil], hhead _,
      by simpa [hnl] using newline_not_mem_take hb m, Or.inl rfl,
      Or.inl (hobject _ (b.head_take_text (by omega)))⟩
  · exact ⟨_, [0x0A], by rw [h, List.append_assoc], hhead _, by simpa using hnl, Or.inr rfl,
      Or.inl (hobject _ b.head_text)⟩
  · exact ⟨_, [0x0A], by rw [h], b.head_text, hnl, Or.inr rfl, Or.inr ⟨rfl, trivial⟩⟩

/-- What is left of a block is nothing or one line, and the whole JSON text only where it was
written before the write failed, or by the destructor and nothing was written before. -/
theorem remains_cases (hb : b.WellFormed) (n m : ℕ) :
    remains (text b.toJson) n m = [] ∨
      LineOf b ((text b.toJson).length ≤ n ∨ n = 0 ∧ (text b.toJson).length ≤ m)
        (remains (text b.toJson) n m) := by
  by_cases h0 : n = 0
  · subst h0
    exact (remains_of_nothing hb m).imp_right fun h => h.imp fun hle => Or.inr ⟨rfl, hle⟩
  right
  by_cases hn : n < (text b.toJson).length
  · exact (remains_of_part hb h0 hn m).imp False.elim
  · have hwhole := Nat.le_of_not_lt hn
    exact (remains_of_whole hb hwhole m).imp fun _ => Or.inl hwhole

end Remains

/-- Every reading of what is left behind is the chain of the boot and blocks that were persisted. -/
structure Durable (boot : Chain F) (s : State F OFStream) : Prop where
  content : s.log.file ≠ []
  unfinished : s.log.failed = false → unfinished 0x0A s.log.file ≠ [] →
    ∃ v, parse (F := F) (unfinished 0x0A s.log.file) = .ok v
  lines : ∃ contributed, List.Sublist contributed s.persisted ∧
    ∀ m, m = 0 ∨ ShortClose s.log m → ∀ blocks, Encodes (getlines 0x0A (s.log.close m)) blocks →
      blocks = boot.blocks ++ contributed.map Prod.snd

theorem OFStream.close_zero (os : OFStream) : os.close 0 = os.file := by
  simp [close]

theorem OFStream.close_of_open {os : OFStream} (h : os.failed = false) (m : ℕ) :
    os.close m = os.file := by
  rw [failed_eq_false.mp h]
  simp [close, pending]

theorem LeftBehind.exists_close {Allowed : OFStream → ℕ → Prop} {s : State F OFStream}
    {content : Bytes} (h : LeftBehind Allowed s content) :
    ∃ m, (m = 0 ∨ Allowed s.log m) ∧ content = s.log.close m := by
  cases h with
  | killed => exact ⟨0, Or.inl rfl, s.log.close_zero.symm⟩
  | destroyed m _ hm => exact ⟨m, Or.inr hm, rfl⟩

theorem Durable.boot {c : Chain F} {os : OFStream} (h : Encodes (getlines 0x0A os.file) c.blocks)
    (hopen : os.failed = false) : Durable c (State.boot os c) where
  content hnil := by
    rw [State.boot] at hnil
    rw [hnil] at h
    exact c.ne_nil (List.length_eq_zero_iff.mp h.length_eq.symm)
  unfinished _ hun := by
    rw [State.boot, getlines_of_unfinished hun] at *
    obtain ⟨-, b, -, -, hb⟩ := h.append_singleton
    cases hd : parseDocument (F := F) (Text.unfinished 0x0A os.file) with
    | error e => rw [Block.decode, hd] at hb; cases hb
    | ok j => exact ⟨j.1, parse_of_parseDocument hd⟩
  lines := by
    refine ⟨[], .slnil, fun m _ blocks hb => ?_⟩
    rw [State.boot, OFStream.close_of_open hopen] at hb
    simpa using hb.unique h

section Lawful
variable [LawfulNumberFloat F] {sha256 : Bytes → Digest} {capacity : ℕ}

theorem Durable.persist {boot : Chain F} {s : State F OFStream} (hs : Durable boot s)
    (hf : s.log.failed = false) {b : Block F} (hb : b.WellFormed) (id : ℕ) :
    ∃ contributed, List.Sublist contributed (s.persisted ++ [(id, b)]) ∧
      ∀ blocks, Encodes (getlines 0x0A (s.log.file ++ b.line)) blocks →
        blocks = boot.blocks ++ contributed.map Prod.snd := by
  obtain ⟨contributed, hsub, hread⟩ := hs.lines
  have hread := hread 0 (Or.inl rfl)
  rw [OFStream.close_zero] at hread
  obtain ⟨t, ht⟩ := b.text_eq_cons
  rw [Block.line, getlines_append _ (by rw [ht]; simp) (newline_not_mem hb) (Or.inr rfl)]
  by_cases hun : Text.unfinished 0x0A s.log.file = []
  · refine ⟨contributed ++ [(id, b)], hsub.append_right _, fun blocks h => ?_⟩
    rw [hun, List.nil_append, ← getlines_of_unfinished_nil hun] at h
    obtain ⟨blocks', c, rfl, hl, hc⟩ := h.append_singleton
    cases hc.symm.trans (Block.decode_text hb)
    rw [hread blocks' hl, List.map_append, List.append_assoc]
    rfl
  · obtain ⟨v, hv⟩ := hs.unfinished hf hun
    refine ⟨contributed, hsub.trans (List.sublist_append_left _ _), fun blocks h => hread _ ?_⟩
    rw [getlines_of_unfinished hun]
    exact Encodes.of_append_object hv (ht ▸ h)

/-- What is left of a refused block does not add it to the blocks that are read. -/
theorem Durable.cut {boot : Chain F} {s : State F OFStream} (hs : Durable boot s)
    (hf : s.log.failed = false) {b : Block F} (hb : b.WellFormed) {n m : ℕ}
    (hn : ShortCut s.log b (.cut n))
    (hm : m = 0 ∨ ShortClose ⟨s.log.file ++ (text b.toJson).take n,
      some (unflushed (text b.toJson) n)⟩ m) {blocks : List (Block F)}
    (h : Encodes (getlines 0x0A (s.log.file ++ remains (text b.toJson) n m)) blocks) :
    Encodes (getlines 0x0A s.log.file) blocks := by
  obtain hnone | ⟨x, rest, hx, hhead, hnl, hrest, hline⟩ :
    remains (text b.toJson) n m = [] ∨ _ := remains_cases hb n m
  · rwa [hnone, List.append_nil] at h
  obtain ⟨t, ht⟩ := List.head?_eq_some_iff.mp hhead
  rw [hx, getlines_append _ (by rw [ht]; simp) hnl hrest] at h
  by_cases hun : Text.unfinished 0x0A s.log.file = []
  · exfalso
    obtain hdead | ⟨-, hlong | ⟨rfl, hlong⟩⟩ := hline
    · obtain ⟨-, c, -, -, hc⟩ := h.append_singleton
      rw [hun, List.nil_append] at hc
      exact hdead c hc
    · have hlt := (hn n rfl).resolve_right fun hne => hne hun
      omega
    · -- nothing was written before, so the destructor would bring the whole text
      have hpos := b.text_length_pos
      have hlength := length_unflushed_le (text b.toJson) 0
      rcases hm with rfl | hempty | hlt | hne
      · omega
      · change unflushed (text b.toJson) 0 = [] at hempty
        rw [remains, hempty, List.take_zero, List.take_nil, ht] at hx
        cases hx
      · change m + 1 < (unflushed (text b.toJson) 0).length at hlt
        omega
      · rw [List.take_zero, List.append_nil] at hne
        exact hne hun
  · obtain ⟨v, hv⟩ := hs.unfinished hf hun
    rw [getlines_of_unfinished hun]
    exact Encodes.of_append_object hv (ht ▸ h)

theorem Durable.step {boot : Chain F} {s t : State F OFStream} (hs : Durable boot s)
    (h : Step sha256 capacity (Appends ShortCut) s t) : Durable boot t := by
  cases h with
  | persist id b os h ha =>
    obtain ⟨io, -, happ⟩ := ha
    obtain ⟨hb, hf, rfl⟩ := appendBlock_ok happ
    obtain ⟨contributed, hsub, hread⟩ := hs.persist hf hb id
    refine ⟨by simp [hs.content],
      fun _ hun => absurd (unfinished_append_line _ (newline_not_mem hb)) hun, contributed, hsub,
      fun m _ blocks hl => ?_⟩
    rw [OFStream.close_of_open rfl] at hl
    exact hread blocks hl
  | persistFailed id b e os h ha =>
    obtain ⟨io, hio, happ⟩ := ha
    rcases appendBlock_error happ with rfl | ⟨hb, hf, n, rfl, rfl⟩
    · exact ⟨hs.content, hs.unfinished, hs.lines⟩
    · obtain ⟨contributed, hsub, hread⟩ := hs.lines
      have hread := hread 0 (Or.inl rfl)
      rw [OFStream.close_zero] at hread
      refine ⟨by simp [hs.content], fun hfailed => (by cases hfailed), contributed, hsub,
        fun m hm blocks hl => hread blocks (hs.cut hf hb hio hm ?_)⟩
      rwa [remains, ← List.append_assoc]
  | arrive | accept | refuse | close | pop | drained | build | push | publish | reply | satisfied
  | receive | read => exact ⟨hs.content, hs.unfinished, hs.lines⟩

/-- A boot that succeeds leaves a file that reads as its chain. -/
theorem runBoot_encodes {now : Tm} {file : Option Bytes} {io : WriteOutcome} {c : Chain F}
    {os : OFStream} (h : runBoot sha256 now file io = .ok (c, os)) :
    Encodes (getlines 0x0A os.file) c.blocks := by
  rw [runBoot] at h
  cases hl : loadChain (F := F) sha256 now file with
  | error e => rw [hl] at h; cases h
  | ok chain =>
    rw [hl] at h
    dsimp only at h
    split_ifs at h with hfresh
    · obtain rfl : chain = .fresh sha256 now := by
        rcases file with _ | content
        · exact (Except.ok.inj hl).symm
        · obtain rfl : content = [] := hfresh
          exact (Except.ok.inj hl).symm
      rcases ha : appendBlock (F := F) (openAppend file) (Chain.fresh sha256 now).latest io with
        ⟨e | ⟨⟨⟩⟩, log⟩
      · rw [ha] at h; cases h
      · rw [ha] at h
        cases h
        obtain ⟨hb, -, rfl⟩ := appendBlock_ok ha
        have hnl := newline_not_mem hb
        have hopen : (openAppend file).file = [] := hfresh
        rw [hopen, Block.line, getlines_of_unfinished_nil (unfinished_append_line _ hnl),
          finished_append_line _ hnl]
        exact .cons (Block.decode_text hb) .nil
    · cases h
      rcases file with _ | content
      · exact absurd rfl hfresh
      · exact (loadChain_ok_iff sha256 now hfresh).mp hl

omit [LawfulNumberFloat F] in
theorem runBoot_open {now : Tm} {file : Option Bytes} {io : WriteOutcome} {boot : Chain F}
    {os : OFStream} (h : runBoot sha256 now file io = .ok (boot, os)) : os.failed = false := by
  rw [runBoot] at h
  cases hl : loadChain (F := F) sha256 now file with
  | error e => rw [hl] at h; cases h
  | ok c =>
    rw [hl] at h
    dsimp only at h
    split_ifs at h
    · rcases ha : appendBlock (F := F) (openAppend file) c.latest io with ⟨e | ⟨⟨⟩⟩, os'⟩
      · rw [ha] at h; cases h
      · rw [ha] at h
        cases h
        rw [(appendBlock_ok ha).2.2]
        rfl
    · cases h
      rfl

theorem Reachable.durable {os : OFStream} {boot : Chain F} {s : State F OFStream}
    (h : Reachable sha256 capacity (Appends ShortCut) os boot s)
    (hfile : Encodes (getlines 0x0A os.file) boot.blocks) (hopen : os.failed = false) :
    Durable boot s := by
  induction h with
  | refl => exact .boot hfile hopen
  | tail _ hstep ih => exact ih.step hstep

theorem OFStream.close_ne_nil {os : OFStream} (h : os.file ≠ []) (m : ℕ) : os.close m ≠ [] := by
  simp [close, h]

/-- In a run whose failing writes all fall short, the destructor's included, a request that got an
error has its block in no copy of the ledger: not in memory, not in the feed and not in what the
next boot reads. -/
theorem failed_write_contributes_nothing {now : Tm} {file : Option Bytes} {io : WriteOutcome}
    {boot : Chain F} {os : OFStream} {s : State F OFStream}
    (hboot : runBoot sha256 now file io = .ok (boot, os))
    (h : Reachable sha256 capacity (Appends ShortCut) os boot s) {id : ℕ} {e : WriteError}
    (he : (id, .error e) ∈ s.replies) :
    WithoutRequest boot s id s.chain.blocks ∧
      WithoutRequest boot s id (boot.blocks ++ s.published) ∧
      ∀ content, LeftBehind ShortClose s content →
        ∀ now' c, loadChain sha256 now' (some content) = .ok c →
          WithoutRequest boot s id c.blocks := by
  have hc := h.copies
  have hpersisted : List.Sublist s.persisted s.created :=
    (List.sublist_append_left _ _).trans hc.persisted_sublist
  have hid := Serving.not_mem_persisted h.queueing h.serving hc he
  have happended : List.Sublist s.appended s.persisted :=
    hc.persisted ▸ List.sublist_append_left _ _
  have without {contributed : List (ℕ × Block F)} (hsub : List.Sublist contributed s.persisted) :
      WithoutRequest boot s id (boot.blocks ++ contributed.map Prod.snd) :=
    ⟨contributed, hsub.trans hpersisted, fun hmem => hid ((hsub.map _).subset hmem), rfl⟩
  refine ⟨hc.chain ▸ without happended, ?_, fun content hleft now' c hload => ?_⟩
  · rw [hc.published]
    refine without (.trans ?_ happended)
    rw [hc.appended]
    exact List.sublist_append_left _ _
  · have hd := h.durable (runBoot_encodes hboot) (runBoot_open hboot)
    obtain ⟨contributed, hsub, hread⟩ := hd.lines
    obtain ⟨m, hm, rfl⟩ := hleft.exists_close
    have hne := OFStream.close_ne_nil hd.content m
    rw [hread m hm c.blocks ((loadChain_ok_iff sha256 now' hne).mp hload)]
    exact without hsub

end Lawful

theorem runBoot_sampleGenesis :
    runBoot sampleSha256 sampleClock (some sampleGenesis.line) .complete =
      .ok (sampleChain, ⟨sampleGenesis.line, none⟩) := by
  have hne : ¬(some sampleGenesis.line).getD [] = [] :=
    List.append_ne_nil_of_right_ne_nil _ (by simp)
  rw [runBoot, loadChain_sampleGenesis]
  simp only [if_neg hne]
  rfl

theorem appendBlock_cut {os : OFStream} {b : Block F} (hb : b.WellFormed) (hf : os.failed = false)
    (n : ℕ) : appendBlock os b (.cut n) = (.error (.storage appendFailed),
      ⟨os.file ++ (text b.toJson).take n, some (unflushed (text b.toJson) n)⟩) := by
  simp [appendBlock, dump_eq_text hb.toJson_valid, hf]

theorem shortClose_zero (file : Bytes) (b : Block F) :
    ShortClose ⟨file, some (unflushed (text b.toJson) 0)⟩ 0 := by
  obtain ⟨t, ht⟩ := b.text_eq_cons
  rw [ht, ShortClose, OFStream.pending, Option.getD_some, unflushed]
  split_ifs with _ hempty
  · exact Or.inr (Or.inl (by simp))
  · exact Or.inl rfl
  · exact absurd (Nat.succ_pos _) hempty

def sampleLedger : Bytes :=
  sampleGenesis.line ++ sampleBlock.line

theorem getlines_sampleLedger :
    Encodes (getlines 0x0A sampleLedger) [sampleGenesis, sampleBlock] := by
  have hwf : ∀ b ∈ [sampleGenesis, sampleBlock], b.WellFormed := by
    simp only [List.forall_mem_cons]
    exact ⟨sampleGenesis_wellFormed, sampleBlock_wellFormed, by simp⟩
  simpa [sampleLedger] using encodes_getlines hwf

theorem sampleLedger_ne_nil : sampleLedger ≠ [] :=
  List.append_ne_nil_of_right_ne_nil _ (List.append_ne_nil_of_right_ne_nil _ (by simp))

theorem failed_write_contributes_nothing_sample :
    ∃ s : State Numeral OFStream, s.writer = .stopped ∧
      (8, .error (.storage appendFailed)) ∈ s.replies ∧
      WithoutRequest sampleChain s 8 s.chain.blocks ∧
      WithoutRequest sampleChain s 8 (sampleChain.blocks ++ s.published) ∧
      ∃ content c, LeftBehind ShortClose s content ∧
        loadChain sampleSha256 sampleClock (some content) = .ok c ∧
        c.blocks = [sampleGenesis, sampleBlock] ∧ WithoutRequest sampleChain s 8 c.blocks := by
  have hwrite : Appends ShortCut ⟨sampleGenesis.line, none⟩ sampleBlock (.ok ()) _ :=
    .of_appendBlock (by rintro _ ⟨⟩) (appendBlock_complete sampleBlock_wellFormed rfl)
  obtain ⟨s, hs, hready, hlog, -, -, hchain⟩ := exists_answered_sample hwrite
  change s.chain = sampleChain.pushPersisted sampleBlock at hchain
  have hnext : (buildNext sampleSha256 sampleClock s.chain sampleEvent).WellFormed := by
    refine makeBlock_wellFormed _ _ _ _ ?_
    rw [hchain]
    simpa [Chain.latest] using sampleBlock_wellFormed.hash
  have hshort : ShortCut s.log (buildNext sampleSha256 sampleClock s.chain sampleEvent)
      (.cut 0) := by
    rintro _ ⟨⟩
    obtain ⟨t, ht⟩ := (buildNext sampleSha256 sampleClock s.chain sampleEvent).text_eq_cons
    exact Or.inl (by rw [ht]; exact Nat.succ_pos _)
  obtain ⟨t, ht, hwaiting, hlog', -, hreplies, -, -⟩ :=
    hready.answer sampleEvent sampleClock zero_lt_one (by rw [hchain]; decide)
      (Appends.of_appendBlock hshort (appendBlock_cut hnext (by rw [hlog]; rfl) 0))
  have hrun := ((hs.trans ht).tail (.close t)).tail
    (.drained _ hwaiting.writer hwaiting.queue rfl)
  have he : (8, .error (.storage appendFailed)) ∈ t.replies := by
    rw [hreplies]
    exact List.mem_append_right _ (List.mem_singleton.mpr rfl)
  obtain ⟨hmemory, hfeed, hdisk⟩ :=
    failed_write_contributes_nothing runBoot_sampleGenesis hrun he
  have hfile : t.log.close 0 = sampleLedger := by
    rw [OFStream.close, List.take_zero, List.append_nil, hlog', hlog]
    exact List.append_nil _
  have hload := loadChain_of_encodes sampleSha256 sampleClock (by simp) getlines_sampleLedger
  rw [← hfile] at hload
  have hleft : LeftBehind ShortClose { t with closed := true, writer := .stopped } (t.log.close 0) :=
    .destroyed 0 rfl (by rw [hlog']; exact shortClose_zero _ _)
  exact ⟨{ t with closed := true, writer := .stopped }, rfl, he, hmemory, hfeed, _, _, hleft, hload,
    rfl, hdisk _ hleft _ _ hload⟩

/-- Behind finished lines the whole text of a refused block is a block of the next boot: its newline
is missing, or nothing of it was written and the destructor writes it. -/
theorem refused_block_survives [LawfulNumberFloat F] {content : Bytes}
    (hun : unfinished 0x0A content = []) {blocks : List (Block F)}
    (hcontent : Encodes (getlines 0x0A content) blocks) {b : Block F} (hb : b.WellFormed) {n m : ℕ}
    (h : (text b.toJson).length ≤ n ∧ m = 0 ∨
      n = 0 ∧ (text b.toJson).length ≤ m ∧ (text b.toJson).length < putArea) :
    Encodes (getlines 0x0A (content ++ remains (text b.toJson) n m)) (blocks ++ [b]) := by
  obtain ⟨rest, hremains, hrest⟩ : ∃ rest, remains (text b.toJson) n m = text b.toJson ++ rest ∧
      (rest = [] ∨ rest = [0x0A]) := by
    unfold remains
    rcases h with ⟨hn, rfl⟩ | ⟨rfl, hm, hfits⟩
    · exact ⟨[], by rw [List.take_of_length_le hn, List.take_zero], Or.inl rfl⟩
    · rw [List.take_zero, List.nil_append, unflushed, if_pos hfits]
      rcases hm.lt_or_eq with hlt | heq
      · exact ⟨[0x0A], List.take_of_length_le (by simp; omega), Or.inr rfl⟩
      · exact ⟨[], by rw [← heq, List.take_left, List.append_nil], Or.inl rfl⟩
  obtain ⟨t, ht⟩ := b.text_eq_cons
  rw [hremains, getlines_append _ (by rw [ht]; simp) (newline_not_mem hb) hrest, hun,
    List.nil_append, ← getlines_of_unfinished_nil hun]
  exact hcontent.append (.cons (Block.decode_text hb) .nil)

/-- The whole JSON text without its newline comes back as a block the client was refused. -/
theorem cut_before_newline_survives :
    ¬ ∀ (s : State Numeral OFStream) (boot : Chain Numeral) (os : OFStream) (id : ℕ)
      (e : WriteError), runBoot sampleSha256 sampleClock (some sampleGenesis.line) .complete =
        .ok (boot, os) → Reachable sampleSha256 1 (Appends AnyOutcome) os boot s →
      (id, .error e) ∈ s.replies → ∀ content, LeftBehind (fun _ _ => True) s content →
        ∀ c, loadChain sampleSha256 sampleClock (some content) = .ok c →
          WithoutRequest boot s id c.blocks := by
  intro h
  have happ : appendBlock ⟨sampleGenesis.line, none⟩ sampleBlock
      (.cut (text sampleBlock.toJson).length) = _ := appendBlock_cut sampleBlock_wellFormed rfl _
  obtain ⟨s, hrun, -, hlog, hcreated, hreplies, -⟩ := exists_answered_sample
    (Appends.of_appendBlock (show AnyOutcome _ sampleBlock _ from trivial) happ)
  obtain ⟨hfin, hun⟩ := finished_sampleGenesis
  rw [← getlines_of_unfinished_nil hun] at hfin
  have hsurvives := refused_block_survives hun hfin sampleBlock_wellFormed (m := 0)
    (Or.inl ⟨le_rfl, rfl⟩)
  have hload := loadChain_of_encodes sampleSha256 sampleClock (by simp) hsurvives
  have hfile : sampleGenesis.line ++ remains (text sampleBlock.toJson)
      (text sampleBlock.toJson).length 0 = s.log.file := by
    rw [hlog, remains, List.take_zero, List.append_nil]
  rw [hfile] at hload
  have he : (7, .error (.storage appendFailed)) ∈ s.replies := by
    rw [hreplies]
    exact List.mem_singleton.mpr rfl
  obtain ⟨contributed, hsub, hid, hblocks⟩ :=
    h s sampleChain _ 7 _ runBoot_sampleGenesis hrun he _ .killed _ hload
  rw [hcreated] at hsub
  -- the only block created is that of request 7
  rcases List.sublist_singleton.mp hsub with rfl | rfl
  · simp [sampleChain] at hblocks
  · simp at hid

end Ledger

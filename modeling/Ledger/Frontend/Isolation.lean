import Ledger.Frontend.Panel

/-! What the traffic of other sensors does to the readings of one sensor in the stream buffer. -/
namespace Ledger.Frontend
open Text Json Backend
variable {F : Type}

def IsOf (key : Key) (r : Bytes × PanelReading F) : Prop :=
  r.1 = key.1 ∧ r.2.sensorId = key.2

instance (key : Key) : DecidablePred (IsOf (F := F) key) :=
  fun _ => inferInstanceAs (Decidable (_ ∧ _))

variable [NumberFloat F]

def heldReadings (key : Key) (state : StreamState F) : List (Bytes × PanelReading F) :=
  state.readings.filter (IsOf key ·)

def carriedReadings (key : Key) (frames : List (BlockFrame F)) : List (Bytes × PanelReading F) :=
  (frames.filterMap streamed).filter (IsOf key ·)

/-- The buffer keeps the last readings of the sensor, up to the cap. -/
def KeepsOwn (key : Key) (frames : List (BlockFrame F)) : Prop :=
  heldReadings key (frames.foldl applyFrame emptyStream) =
    (carriedReadings key frames).rtake maxStreamReadings

/-- The buffer has dropped no reading of the sensor, or only for readings of the sensor. -/
def Undisturbed (key : Key) (frames : List (BlockFrame F)) : Prop :=
  (∀ r ∈ (frames.filterMap streamed).rdrop maxStreamReadings, ¬IsOf key r) ∨
    ∀ r ∈ (frames.filterMap streamed).rtake maxStreamReadings, IsOf key r

theorem keepsOwn_iff (key : Key) (frames : List (BlockFrame F)) :
    KeepsOwn key frames ↔ Undisturbed key frames := by
  unfold KeepsOwn Undisturbed heldReadings carriedReadings
  rw [foldl_applyFrame_readings, filter_rtake_iff]
  simp

/-- The buffer keeps the readings of a sensor exactly if it has dropped none for the readings of
other sensors, and then frames that agree on the sensor leave the same readings of it. -/
theorem sensor_undisturbed_iff : (∀ (key : Key) (frames : List (BlockFrame F)),
    KeepsOwn key frames ↔ Undisturbed key frames) ∧
    ∀ (key : Key) (frames frames' : List (BlockFrame F)), Undisturbed key frames →
      Undisturbed key frames' → carriedReadings key frames = carriedReadings key frames' →
        heldReadings key (frames.foldl applyFrame emptyStream) =
          heldReadings key (frames'.foldl applyFrame emptyStream) := by
  constructor
  · exact keepsOwn_iff
  · intro key frames frames' h h' hcarried
    have hkept : KeepsOwn key frames := (keepsOwn_iff key frames).mpr h
    have hkept' : KeepsOwn key frames' := (keepsOwn_iff key frames').mpr h'
    unfold KeepsOwn at hkept hkept'
    rw [hkept, hkept', hcarried]

def sampleFrame (actor : ValidString) : BlockFrame Numeral :=
  .block (makeBlock sampleSha256 sampleClock 1 { sampleReadingEvent with actor := actor } zeroHash)

def sampleStreamed : PanelReading Numeral :=
  ⟨ascii "t1", .null, .null, .null, .null, nowRfc3339 sampleClock⟩

theorem streamed_sampleFrame {actor : ValidString} (h : actor.1 ≠ []) :
    streamed (sampleFrame actor) = some (actor.1, sampleStreamed) := by
  have hactor : ({ sampleReadingEvent with actor := actor } : EventPayload Numeral).actor.1 ≠ [] :=
    h
  exact (if_neg hactor).trans rfl

def quietFrame : BlockFrame Numeral :=
  sampleFrame ⟨ascii "quiet-1", by decide⟩

def loudFrame : BlockFrame Numeral :=
  sampleFrame ⟨ascii "loud-1", by decide⟩

def loudFrames : List (BlockFrame Numeral) :=
  quietFrame :: List.replicate maxStreamReadings loudFrame

theorem loudFrames_streamed : loudFrames.filterMap streamed =
    (ascii "quiet-1", sampleStreamed) ::
      List.replicate maxStreamReadings (ascii "loud-1", sampleStreamed) := by
  rw [loudFrames, quietFrame, loudFrame,
    List.filterMap_cons_some (streamed_sampleFrame (by decide)),
    List.filterMap_replicate_of_some (streamed_sampleFrame (by decide))]

theorem quietFrame_streamed :
    [quietFrame].filterMap streamed = [(ascii "quiet-1", sampleStreamed)] := by
  rw [quietFrame, List.filterMap_cons_some (streamed_sampleFrame (by decide)), List.filterMap_nil]

theorem other_sensor : ¬IsOf (ascii "quiet-1", ascii "t1") (ascii "loud-1", sampleStreamed) := by
  unfold IsOf
  decide

theorem carried_loudFrames : carriedReadings (ascii "quiet-1", ascii "t1") loudFrames =
    [(ascii "quiet-1", sampleStreamed)] := by
  have hown : IsOf (ascii "quiet-1", ascii "t1") (ascii "quiet-1", sampleStreamed) := ⟨rfl, rfl⟩
  rw [carriedReadings, loudFrames_streamed, List.filter_cons_of_pos (by simpa using hown),
    List.filter_replicate_of_neg (by simpa using other_sensor)]

theorem held_loudFrames : heldReadings (ascii "quiet-1", ascii "t1")
    (loudFrames.foldl applyFrame emptyStream) = [] := by
  rw [heldReadings, foldl_applyFrame_readings, loudFrames_streamed,
    rtake_of_suffix (List.suffix_cons _ _) (List.length_replicate ..).ge,
    rtake_eq_self (List.length_replicate ..).le,
    List.filter_replicate_of_neg (by simpa using other_sensor)]

theorem held_quietFrame : heldReadings (ascii "quiet-1", ascii "t1")
    ([quietFrame].foldl applyFrame emptyStream) = [(ascii "quiet-1", sampleStreamed)] := by
  rw [heldReadings, foldl_applyFrame_readings, quietFrame_streamed, rtake_eq_self (by decide)]
  rfl

def mixedFrames : List (BlockFrame Numeral) :=
  [quietFrame, loudFrame, .lagged 3, loudFrame, quietFrame]

theorem mixedFrames_streamed : mixedFrames.filterMap streamed =
    [(ascii "quiet-1", sampleStreamed), (ascii "loud-1", sampleStreamed),
      (ascii "loud-1", sampleStreamed), (ascii "quiet-1", sampleStreamed)] := rfl

theorem sensor_undisturbed_iff_sample :
    heldReadings (ascii "quiet-1", ascii "t1") (mixedFrames.foldl applyFrame emptyStream) =
      heldReadings (ascii "quiet-1", ascii "t1")
        ([quietFrame, quietFrame].foldl applyFrame emptyStream) ∧
      (heldReadings (ascii "quiet-1", ascii "t1")
        (mixedFrames.foldl applyFrame emptyStream)).length = 2 := by
  have hquiet : [quietFrame, quietFrame].filterMap streamed =
      [(ascii "quiet-1", sampleStreamed), (ascii "quiet-1", sampleStreamed)] := rfl
  refine ⟨sensor_undisturbed_iff.2 _ _ _ (Or.inl ?_) (Or.inl ?_) ?_, ?_⟩
  · rw [mixedFrames_streamed]
    exact fun r hr => absurd hr List.not_mem_nil
  · rw [hquiet]
    exact fun r hr => absurd hr List.not_mem_nil
  · rw [carriedReadings, carriedReadings, mixedFrames_streamed, hquiet]
    rfl
  · rw [heldReadings, foldl_applyFrame_readings, mixedFrames_streamed]
    rfl

/-- The readings of one device push out the only reading of another one. -/
theorem loud_neighbour_evicts :
    (¬ ∀ (key : Key) (frames : List (BlockFrame Numeral)), KeepsOwn key frames) ∧
      ¬ ∀ (key : Key) (frames frames' : List (BlockFrame Numeral)),
        carriedReadings key frames = carriedReadings key frames' →
          heldReadings key (frames.foldl applyFrame emptyStream) =
            heldReadings key (frames'.foldl applyFrame emptyStream) := by
  constructor
  · intro h
    have hkept := h (ascii "quiet-1", ascii "t1") loudFrames
    rw [KeepsOwn, held_loudFrames, carried_loudFrames] at hkept
    cases congrArg List.length hkept
  · intro h
    have hcarried : carriedReadings (ascii "quiet-1", ascii "t1") loudFrames =
        carriedReadings (ascii "quiet-1", ascii "t1") [quietFrame] := by
      rw [carried_loudFrames, carriedReadings, quietFrame_streamed]
      rfl
    have hheld := h _ _ _ hcarried
    rw [held_loudFrames, held_quietFrame] at hheld
    cases hheld

end Ledger.Frontend

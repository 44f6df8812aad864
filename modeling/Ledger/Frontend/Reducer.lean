import Ledger.Frontend.Messages
import Ledger.Frontend.Panel

/-! The two embeddings of the reducer: on the values that come over the socket, and on the blocks
they are sent for. -/
namespace Ledger.Frontend
open Text Json Backend Messages
variable {F N : Type} (ofInt : ℤ → N) (ofFloat : F → N)

def jsValue (v : Json F) : JsValue N :=
  JsValue.ofPy ofInt ofFloat (.ofJson v)

theorem get_ofMembers_js (members : PyDict F) (k : Bytes) :
    Dict.get (JsValue.ofMembers ofInt ofFloat members) k =
      (Dict.get members k).map (JsValue.ofPy ofInt ofFloat) := by
  induction members with
  | nil => rfl
  | cons m members ih =>
    rw [JsValue.ofMembers, Dict.get, Dict.get]
    split_ifs
    · rfl
    · exact ih

theorem property_jsValue (members : Members F) (name : String) :
    (jsValue ofInt ofFloat (.object members)).property name =
      (members.lookup (ascii name)).map (jsValue ofInt ofFloat) := by
  rw [jsValue, PyValue.ofJson, JsValue.ofPy, JsValue.property, get_ofMembers_js, get_ofMembers,
    Option.map_map]
  rfl

theorem getD_property_jsValue (members : Members F) (name : String) :
    ((jsValue ofInt ofFloat (.object members)).property name).getD .null =
      jsValue ofInt ofFloat (getMember members name) := by
  rw [property_jsValue, getMember]
  cases members.lookup (ascii name) <;> rfl

theorem nonEmptyString_property (members : Members F) (name : String) :
    JsValue.nonEmptyString ((jsValue ofInt ofFloat (.object members)).property name) =
      nonEmptyString (getMember members name) := by
  rw [property_jsValue, getMember]
  cases members.lookup (ascii name) with
  | none => rfl
  | some v => cases v <;> rfl

variable [NumberFloat F]

/-- A frame as `JSON.parse` gives it, with what the backend has added to it. -/
def jsFrame (device : Option Device) : BlockFrame F → JsValue N
  | .block b => ofFrame ofInt ofFloat (.block (PyValue.ofMembers b.members) device)
  | .lagged dropped => ofFrame ofInt ofFloat (.lagged (.int dropped))

def ofReading (r : PanelReading F) : Messages.Reading N :=
  ⟨r.sensorId, jsValue ofInt ofFloat r.sensorType, jsValue ofInt ofFloat r.value,
    jsValue ofInt ofFloat r.unit, jsValue ofInt ofFloat r.seq, some (.string r.time)⟩

def ofState (connected : Bool) (dropped : N) (s : StreamState F) : Messages.StreamState N :=
  ⟨connected, s.lastSeen, s.readings.map fun r => (r.1, ofReading ofInt ofFloat r.2),
    .number dropped⟩

section Block
variable {ofInt ofFloat} (b : Block F) (device : Option Device)

theorem property_block : (jsFrame ofInt ofFloat device (.block b)).property "block" =
    some (jsValue ofInt ofFloat b.toJson) := by
  rw [Block.toJson_eq]
  rfl

theorem chain_event : JsValue.chain ((jsFrame ofInt ofFloat device (.block b)).property "block")
    "event" = some (jsValue ofInt ofFloat b.event.toJson) := by
  rw [property_block, Block.toJson_eq]
  exact property_jsValue ofInt ofFloat b.members "event"

theorem chain_timestamp : JsValue.chain
    ((jsFrame ofInt ofFloat device (.block b)).property "block") "timestamp" =
      some (.string b.timestamp) := by
  rw [property_block, Block.toJson_eq]
  exact property_jsValue ofInt ofFloat b.members "timestamp"

theorem chain_member (name : String) : JsValue.chain (JsValue.chain
    ((jsFrame ofInt ofFloat device (.block b)).property "block") "event") name =
      (b.event.members.lookup (ascii name)).map (jsValue ofInt ofFloat) := by
  rw [chain_event, EventPayload.toJson_eq]
  exact property_jsValue ofInt ofFloat b.event.members name

theorem readingFrom_jsFrame : Messages.readingFrom (jsFrame ofInt ofFloat device (.block b)) =
    (readingFrom b).map (ofReading ofInt ofFloat) := by
  unfold Messages.readingFrom readingFrom sensorOf
  dsimp only
  rw [chain_member, chain_member, chain_timestamp]
  have htype : b.event.members.lookup (ascii "event_type") = some (.string b.event.eventType.1) :=
    rfl
  have hmetadata : b.event.members.lookup (ascii "metadata") = some b.event.metadata.1 := rfl
  rw [htype, hmetadata]
  by_cases h : b.event.eventType.1 = ascii "SENSOR_READING"
  · have htext : JsValue.isText (some (jsValue ofInt ofFloat (.string b.event.eventType.1)))
        "SENSOR_READING" = true := decide_eq_true h
    rw [if_pos h, Option.map_some, if_pos htext]
    cases b.event.metadata.1 with
    | object metadata =>
      simp only [Option.map_some, JsValue.chain, Option.bind_some, nonEmptyString_property,
        getD_property_jsValue]
      cases nonEmptyString (getMember metadata "sensor_id") <;> rfl
    | _ => rfl
  · have htext : JsValue.isText (some (jsValue ofInt ofFloat (.string b.event.eventType.1)))
        "SENSOR_READING" = false := decide_eq_false h
    rw [if_neg h, Option.map_some, htext, if_neg Bool.false_ne_true]
    rfl

theorem sighting_jsFrame : Messages.sighting (jsFrame ofInt ofFloat device (.block b)) =
    if b.event.actor.1 = [] then none else some (b.event.actor.1, b.timestamp) := by
  unfold Messages.sighting
  dsimp only
  rw [chain_member, chain_timestamp]
  have hactor : b.event.members.lookup (ascii "actor") = some (.string b.event.actor.1) := rfl
  have htext : JsValue.nonEmptyString (some (jsValue ofInt ofFloat (.string b.event.actor.1))) =
      if b.event.actor.1 = [] then none else some b.event.actor.1 := rfl
  rw [hactor, Option.map_some, htext]
  split_ifs <;> rfl

end Block

/-- The browser on the blocks of a stream: it compares their times as texts, and no actor has the
name of a property of `Object.prototype`. -/
structure Plain (rt : Runtime N) (blocks : List (Block F)) : Prop where
  above : ∀ b ∈ blocks, ∀ c ∈ blocks, rt.above b.timestamp c.timestamp =
    decide (keyOrder c.timestamp < keyOrder b.timestamp)
  inherited : ∀ b ∈ blocks, rt.inherited b.event.actor.1 = none

def addDropped (rt : Runtime N) (dropped : N) : BlockFrame F → N
  | .block _ => dropped
  | .lagged n => rt.add dropped (ofInt n)

def SeenIn (blocks : List (Block F)) (s : StreamState F) : Prop :=
  ∀ actor time, s.lastSeen.get actor = some time → ∃ b ∈ blocks, b.timestamp = time

def FrameIn (blocks : List (Block F)) : BlockFrame F → Prop
  | .block b => b ∈ blocks
  | .lagged _ => True

section Step
variable {ofInt ofFloat} {rt : Runtime N} {blocks : List (Block F)} {s : StreamState F}
  {frame : BlockFrame F}

theorem SeenIn.applyFrame (hs : SeenIn blocks s) (hframe : FrameIn blocks frame) :
    SeenIn blocks (applyFrame s frame) := by
  cases frame with
  | lagged n => exact hs
  | block b =>
    intro actor time hget
    unfold Frontend.applyFrame at hget
    dsimp only at hget
    split_ifs at hget with hactor hnewer
    · exact hs actor time hget
    · dsimp only at hget
      by_cases hsame : actor = b.event.actor.1
      · subst hsame
        rw [Dict.get_set_self] at hget
        exact ⟨b, hframe, Option.some.inj hget⟩
      · rw [Dict.get_set_of_ne hsame] at hget
        exact hs actor time hget
    · exact hs actor time hget

/-- On a frame the two reducers do the same. -/
theorem applyFrame_jsFrame (hplain : Plain rt blocks) (hs : SeenIn blocks s)
    (hframe : FrameIn blocks frame) (device : Option Device) (connected : Bool) (dropped : N) :
    Messages.applyFrame rt (ofState ofInt ofFloat connected dropped s)
        (jsFrame ofInt ofFloat device frame) =
      some (ofState ofInt ofFloat connected (addDropped ofInt rt dropped frame)
        (applyFrame s frame)) := by
  cases frame with
  | lagged n => rfl
  | block b =>
    have hne : jsFrame ofInt ofFloat device (.block b) ≠ .null := fun h => by cases h
    have hkind : JsValue.isText ((jsFrame ofInt ofFloat device (.block b)).property "type")
        "lagged" = false := by
      have htype : ascii "block" ≠ ascii "lagged" := by decide
      exact decide_eq_false htype
    rw [applyFrame_of_ne_null hne, hkind, if_neg Bool.false_ne_true, sighting_jsFrame, applyFrame]
    dsimp only
    by_cases hactor : b.event.actor.1 = []
    · rw [if_pos hactor, if_pos hactor]
      rfl
    · rw [if_neg hactor, if_neg hactor]
      have habove : ((s.lastSeen.get b.event.actor.1).or (rt.inherited b.event.actor.1)).all
          (rt.above b.timestamp) = (s.lastSeen.get b.event.actor.1).all
            fun previous => keyOrder previous < keyOrder b.timestamp := by
        rw [hplain.inherited b hframe, Option.or_none]
        cases hget : s.lastSeen.get b.event.actor.1 with
        | none => rfl
        | some time =>
          obtain ⟨c, hc, rfl⟩ := hs _ _ hget
          exact hplain.above b hframe c hc
      simp only [applyBlock, ofState, addDropped, habove, readingFrom_jsFrame]
      cases readingFrom b with
      | none => rfl
      | some reading =>
        simp only [Option.map_some, map_rtake, List.map_append, List.map_cons, List.map_nil]
        rfl

end Step

section Run
variable {ofInt ofFloat} {rt : Runtime N} {blocks : List (Block F)}

/-- A text message that `JSON.parse` reads as a frame. -/
def Carries (ofInt : ℤ → N) (ofFloat : F → N) (rt : Runtime N) (data : Bytes)
    (frame : BlockFrame F) : Prop :=
  ∃ device, rt.parse data = some (jsFrame ofInt ofFloat device frame)

theorem Carries.harmless {data : Bytes} {frame : BlockFrame F}
    (h : Carries ofInt ofFloat rt data frame) (state : Messages.StreamState N) :
    Harmless rt state data := by
  obtain ⟨device, hparse⟩ := h
  cases frame with
  | block b =>
    have hdata : rt.parse data = some (ofFrame ofInt ofFloat
        (.block (PyValue.ofMembers b.members) device)) := hparse
    exact harmless_ofFrame ofInt ofFloat hdata fun dropped h => by cases h
  | lagged n =>
    have hdata : rt.parse data = some (ofFrame ofInt ofFloat (.lagged (.int n))) := hparse
    exact harmless_ofFrame ofInt ofFloat hdata
      fun dropped h => ⟨n, (BrowserFrame.lagged.inj h).symm⟩

theorem Carries.ideal {data : Bytes} {frame : BlockFrame F} {s : StreamState F}
    (h : Carries ofInt ofFloat rt data frame) (hplain : Plain rt blocks) (hs : SeenIn blocks s)
    (hframe : FrameIn blocks frame) (connected : Bool) (dropped : N) :
    ideal rt (ofState ofInt ofFloat connected dropped s) (.message data) =
      ofState ofInt ofFloat connected (addDropped ofInt rt dropped frame)
        (applyFrame s frame) := by
  have hn : (ofState ofInt ofFloat connected dropped s).dropped = .number dropped := rfl
  have hsome := (update_eq_ideal_iff hn).mpr (h.harmless _)
  obtain ⟨device, hparse⟩ := h
  rw [update_of_parse hparse, applyFrame_jsFrame hplain hs hframe device connected dropped] at hsome
  exact (Option.some.inj hsome).symm

theorem foldl_ideal_carried {s : StreamState F} {messages : List (Bytes × BlockFrame F)}
    (hplain : Plain rt blocks) (hs : SeenIn blocks s)
    (h : ∀ m ∈ messages, Carries ofInt ofFloat rt m.1 m.2 ∧ FrameIn blocks m.2) (dropped : N) :
    (messages.map fun m => Update.message m.1).foldl (ideal rt)
        (ofState ofInt ofFloat false dropped s) =
      ofState ofInt ofFloat false ((messages.map Prod.snd).foldl (addDropped ofInt rt) dropped)
        ((messages.map Prod.snd).foldl applyFrame s) := by
  induction messages generalizing s dropped with
  | nil => rfl
  | cons m messages ih =>
    obtain ⟨⟨hcarries, hframe⟩, hmessages⟩ := List.forall_mem_cons.mp h
    simp only [List.map_cons, List.foldl_cons]
    rw [hcarries.ideal hplain hs hframe]
    exact ih (hs.applyFrame hframe) hmessages _

/-- However its updates are scheduled, the page shows the stream up to some frame, and the messages
behind it are waiting. -/
theorem page_shows_stream {chain : Chain F} {sent : List Sent}
    {messages : List (Bytes × BlockFrame F)} {events : List (Deferred.Event Update)}
    (hplain : Plain rt chain.blocks)
    (hsent : messages.map Prod.snd = sent.filterMap (Sent.frame chain))
    (hcarries : ∀ m ∈ messages, Carries ofInt ofFloat rt m.1 m.2)
    (hevents : Deferred.updates events = messages.map fun m => Update.message m.1) :
    (Page.run rt events).escaped = false ∧ ∃ shown later first rest, sent = shown ++ later ∧
      messages = first ++ rest ∧ first.map Prod.snd = shown.filterMap (Sent.frame chain) ∧
      (Page.run rt events).pending = rest.map (fun m => Update.message m.1) ∧
      (Page.run rt events).state = ofState ofInt ofFloat false
        ((shown.filterMap (Sent.frame chain)).foldl (addDropped ofInt rt) rt.zero)
        (streamState chain shown) := by
  have hframe : ∀ m ∈ messages, FrameIn chain.blocks m.2 := by
    intro m hm
    have hmem : m.2 ∈ sent.filterMap (Sent.frame chain) := hsent ▸ List.mem_map_of_mem hm
    obtain ⟨frame, -, hsome⟩ := List.mem_filterMap.mp hmem
    cases frame with
    | block position =>
      obtain ⟨b, hb, hblock⟩ := Option.map_eq_some_iff.mp hsome
      rw [← hblock]
      exact List.mem_of_getElem? hb
    | lagged n =>
      rw [← Option.some.inj hsome]
      trivial
  have hsucceeds : Deferred.Succeeds (update rt) (ideal rt) (Messages.emptyStream rt)
      (Deferred.updates events) := by
    intro before u after hus
    obtain ⟨n, hn⟩ := foldl_ideal_number rt before
    have hu : u ∈ messages.map fun m => Update.message m.1 := by simp [← hevents, hus]
    obtain ⟨m, hm, rfl⟩ := List.mem_map.mp hu
    exact (update_eq_ideal_iff hn).mpr ((hcarries m hm).harmless _)
  obtain ⟨hescaped, ran, hran, hstate⟩ := Deferred.sound_run hsucceeds
  obtain ⟨first, rest, hmessages, rfl, hrest⟩ := List.map_eq_append_iff.mp (hevents ▸ hran)
  rw [hmessages, List.map_append] at hsent
  obtain ⟨shown, later, hshown, hfirst, -⟩ := List.filterMap_eq_append_iff.mp hsent.symm
  refine ⟨hescaped, shown, later, first, rest, hshown, hmessages, hfirst.symm, hrest.symm,
    hstate.trans ?_⟩
  have hunseen : SeenIn chain.blocks (emptyStream : StreamState F) := fun actor time h => by cases h
  rw [streamState, hfirst]
  refine foldl_ideal_carried hplain hunseen (fun m hm => ?_) rt.zero
  have hmem : m ∈ messages := hmessages ▸ List.mem_append_left rest hm
  exact ⟨hcarries m hmem, hframe m hmem⟩

end Run

def firstBlock : Block Numeral :=
  buildNext sampleSha256 sampleClock sampleChain sampleReadingEvent

def secondBlock : Block Numeral :=
  buildNext sampleSha256 sampleClock sampleReadingChain sampleReadingEvent

def carriedFrames : List (Bytes × BlockFrame Numeral) :=
  [(ascii "first", .block firstBlock), (ascii "lagged", .lagged 2),
    (ascii "second", .block secondBlock)]

def streamRuntime : Runtime ℤ where
  parse data := (Dict.get carriedFrames data).map (jsFrame id (fun _ => 0) none)
  zero := 0
  add m n := m + n
  ofBool b := b.toNat
  text _ := []
  above t u := decide (keyOrder u < keyOrder t)
  inherited _ := none

/-- The first message is applied at once, the second when the page is rendered, and the third one
waits. -/
theorem page_shows_stream_sample :
    let page := Page.run streamRuntime [.now (.message (ascii "first")),
      .later (.message (ascii "lagged")), .render, .later (.message (ascii "second"))]
    page.escaped = false ∧ ∃ shown later, [Sent.block 1, .lagged 2, .block 2] = shown ++ later ∧
      shown.filterMap (Sent.frame streamedChain) = [.block firstBlock, .lagged 2] ∧
      page.state = ofState id (fun _ => 0) false 2 (streamState streamedChain shown) := by
  intro page
  have hplain : Plain streamRuntime streamedChain.blocks := ⟨fun _ _ _ _ => rfl, fun _ _ => rfl⟩
  have hsent : carriedFrames.map Prod.snd =
      [Sent.block 1, .lagged 2, .block 2].filterMap (Sent.frame streamedChain) := rfl
  have hcarries : ∀ m ∈ carriedFrames, Carries id (fun _ => 0) streamRuntime m.1 m.2 := by
    simp only [carriedFrames, List.forall_mem_cons]
    exact ⟨⟨none, rfl⟩, ⟨none, rfl⟩, ⟨none, rfl⟩, by simp⟩
  have hevents : Deferred.updates [.now (.message (ascii "first")),
      .later (.message (ascii "lagged")), .render, .later (.message (ascii "second"))] =
        carriedFrames.map fun m => Update.message m.1 := rfl
  obtain ⟨hescaped, shown, later, first, rest, hall, hmessages, hfirst, hpending, hstate⟩ :=
    page_shows_stream hplain hsent hcarries hevents
  have hwaiting : rest.map (fun m => Update.message m.1) = [.message (ascii "second")] :=
    hpending.symm
  obtain ⟨m, rfl⟩ := List.length_eq_one_iff.mp (by simpa using congrArg List.length hwaiting)
  obtain ⟨rfl, -⟩ := List.append_inj' (show [_, _] ++ [_] = first ++ [m] from hmessages) rfl
  refine ⟨hescaped, shown, later, hall, hfirst.symm, ?_⟩
  rw [← hfirst] at hstate
  exact hstate

end Ledger.Frontend

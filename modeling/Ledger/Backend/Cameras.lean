import Ledger.Backend.History

/-! The state of a camera over a chain whose clock may step back: its event is the most recent one,
its address the one announced last by what was not behind. -/
namespace Ledger.Backend
open Text Json
variable {F : Type}

theorem ascendingFrom_streamUrl (e : CameraState F) (url : Option Bytes)
    (es : List (CameraState F)) :
    ascendingFrom CameraState.timestamp (some { e with streamUrl := url }) es =
      ascendingFrom CameraState.timestamp (some e) es :=
  ascendingFrom_congr (show CameraState.timestamp { e with streamUrl := url } = e.timestamp from rfl)
    es

theorem foldl_announce (previous : Option (CameraState F)) (es : List (CameraState F)) :
    es.foldl announce previous =
      ((ascendingFrom CameraState.timestamp previous es).getLast?.map fun e => { e with
        streamUrl := ((ascendingFrom CameraState.timestamp previous es).filterMap
          CameraState.streamUrl).getLast?.or (previous.bind CameraState.streamUrl) }).or
        previous := by
  induction es generalizing previous with
  | nil => rfl
  | cons e es ih =>
    rw [List.foldl_cons, ih, announce, ascendingFrom, if_congr isAfter_map_iff rfl rfl]
    by_cases hafter : ∃ y ∈ previous, e.timestamp < y.timestamp
    · rw [if_pos hafter, if_pos hafter]
    · rw [if_neg hafter, if_neg hafter]
      rw [ascendingFrom_streamUrl, List.getLast?_cons, Option.map_some, Option.some_or,
        getLast?_filterMap_cons, Option.or_assoc, Option.bind_some]
      cases hlast : (ascendingFrom CameraState.timestamp (some e) es).getLast? with
      | none =>
        rw [List.getLast?_eq_none_iff.mp hlast]
        rfl
      | some a => rfl

def announcements (events : List (ℕ × CameraState F)) : List (ℕ × CameraState F) :=
  events.filter (·.2.streamUrl.isSome)

def announcedUrl (announcements : List (ℕ × CameraState F)) : Option Bytes :=
  (mostRecent CameraState.timestamp announcements).bind fun e => e.2.streamUrl

/-- A state that tells the most recent event and the address announced most recently. -/
structure TellsMostRecent (state : Option (CameraState F)) (events : List (ℕ × CameraState F)) :
    Prop where
  event : state.map (fun s => (s.event, s.timestamp)) =
    (mostRecent CameraState.timestamp events).map fun e => (e.2.event, e.2.timestamp)
  streamUrl : state.bind CameraState.streamUrl = announcedUrl (announcements events)

/-- The announcements that are not behind a later event say where the stream is. -/
def AddressInOrder (events : List (ℕ × CameraState F)) : Prop :=
  announcedUrl ((announcements events).filter (InOrder CameraState.timestamp events ·)) =
    announcedUrl (announcements events)

def announced (events : List (ℕ × CameraState F)) : Option (CameraState F) :=
  let url := announcedUrl
    ((announcements events).filter (InOrder CameraState.timestamp events ·))
  (mostRecent CameraState.timestamp events).map fun e => { e.2 with streamUrl := url }

/-- A camera has the most recent event, and the address announced last by what was taken. -/
theorem foldl_announce_placed {events : List (ℕ × CameraState F)} (h : InPlace events) :
    (events.map Prod.snd).foldl announce none = announced events := by
  have htaken : ascendingFrom CameraState.timestamp none (events.map Prod.snd) =
      (ascending (CameraState.timestamp ∘ Prod.snd) events).map Prod.snd :=
    ascendingFrom_map Prod.snd none events
  have hfilter : ((announcements events).filter (InOrder CameraState.timestamp events ·)) =
      (ascending (CameraState.timestamp ∘ Prod.snd) events).filter (·.2.streamUrl.isSome) := by
    rw [ascending_eq_filter h, announcements, List.filter_filter, List.filter_filter]
    simp only [Bool.and_comm]
  have hpairwise : (ascending (CameraState.timestamp ∘ Prod.snd) events).Pairwise fun x y =>
      recency CameraState.timestamp x < recency CameraState.timestamp y := ascending_recency h
  have horder := byRecency_of_pairwise (hpairwise.filter (·.2.streamUrl.isSome))
  have hurl : announcedUrl
      ((announcements events).filter (InOrder CameraState.timestamp events ·)) =
      (((ascending (CameraState.timestamp ∘ Prod.snd) events).map Prod.snd).filterMap
        CameraState.streamUrl).getLast? := by
    rw [hfilter, announcedUrl, mostRecent, horder, List.filterMap_map, getLast?_filterMap]
    rfl
  unfold announced
  rw [foldl_announce, htaken, List.getLast?_map, ascending_getLast? h, hurl, Option.or_none,
    Option.map_map]
  simp only [Option.bind_none, Option.or_none]
  rfl

theorem tellsMostRecent_iff {events : List (ℕ × CameraState F)} :
    TellsMostRecent (announced events) events ↔ AddressInOrder events := by
  have hurl : (announced events).bind CameraState.streamUrl = announcedUrl
      ((announcements events).filter (InOrder CameraState.timestamp events ·)) := by
    unfold announced
    cases hlast : mostRecent CameraState.timestamp events with
    | none =>
      rw [mostRecent_eq_none_iff.mp hlast]
      rfl
    | some e => rfl
  constructor
  · intro h
    exact hurl.symm.trans h.streamUrl
  · intro h
    constructor
    · rw [announced, Option.map_map]
      rfl
    · exact hurl.trans h

section Chain
variable [NumberFloat F] {depth historyLimit : ℕ} {fromisoformat : Bytes → Option DateTime}

/-- After one refresh over the chain a camera has its most recent event, and the address announced
most recently exactly if leaving out the announcements that are behind does not change it. -/
theorem camera_address_iff {chain : Chain F}
    (h : (readChain depth historyLimit fromisoformat chain).2 = .refreshed) (key : Key) :
    TellsMostRecent ((readChain depth historyLimit fromisoformat chain).1.cameraState key.1 key.2)
      (placedEvents (cameraEventOf fromisoformat key) chain) ↔
    AddressInOrder (placedEvents (cameraEventOf fromisoformat key) chain) := by
  have hstate : (readChain depth historyLimit fromisoformat chain).1.cameraState key.1 key.2 =
      announced (placedEvents (cameraEventOf fromisoformat key) chain) := by
    rw [LedgerActivity.cameraState, readChain_maps h, consumed, foldl_step_camera,
      ← placedEvents_map_snd, ← foldl_announce_placed (inPlace_placedEvents _ chain)]
    rfl
  rw [hstate]
  exact tellsMostRecent_iff

end Chain

theorem motionMetadata_valid :
    (Json.object [(ascii "event", .string (ascii "motion")),
      (ascii "sensor_id", .string (ascii "cam"))] : Json Numeral).Valid := by
  have hsorted : keyOrder (ascii "event") < keyOrder (ascii "sensor_id") := by decide
  rw [Valid, ValidMembers, ValidMembers, ValidMembers, Valid, Valid]
  exact ⟨List.pairwise_pair.mpr hsorted, ⟨by decide, by decide⟩, ⟨by decide, by decide⟩, trivial⟩

theorem announcementMetadata_valid :
    (Json.object [(ascii "event", .string (ascii "stream_online")),
      (ascii "sensor_id", .string (ascii "cam")),
      (ascii "url", .string (ascii "/stream"))] : Json Numeral).Valid := by
  have hsorted : Sorted (F := Numeral) [(ascii "event", .string (ascii "stream_online")),
      (ascii "sensor_id", .string (ascii "cam")), (ascii "url", .string (ascii "/stream"))] := by
    have hevent : keyOrder (ascii "event") < keyOrder (ascii "sensor_id") := by decide
    have hurl : keyOrder (ascii "sensor_id") < keyOrder (ascii "url") := by decide
    simp [Sorted, hevent, hurl, hevent.trans hurl]
  rw [Valid, ValidMembers, ValidMembers, ValidMembers, ValidMembers, Valid, Valid, Valid]
  exact ⟨hsorted, ⟨by decide, by decide⟩, ⟨by decide, by decide⟩, ⟨by decide, by decide⟩, trivial⟩

def motionEvent : EventPayload Numeral :=
  { sampleReadingEvent with
    eventType := ⟨ascii "CAMERA_EVENT", by decide⟩
    metadata := ⟨_, motionMetadata_valid⟩ }

def announcementEvent : EventPayload Numeral :=
  { motionEvent with metadata := ⟨_, announcementMetadata_valid⟩ }

def cameraChain : Chain Numeral :=
  let chain := sampleChain.pushPersisted
    (buildNext sampleSha256 sampleClock sampleChain announcementEvent)
  chain.pushPersisted (buildNext sampleSha256 sampleClock chain motionEvent)

theorem camera_address_iff_sample :
    TellsMostRecent ((readChain 1000 500 stepIso cameraChain).1.cameraState (ascii "node-1")
      (ascii "cam")) (placedEvents (cameraEventOf stepIso (ascii "node-1", ascii "cam"))
        cameraChain) := by
  have hrefreshed : (readChain 1000 500 stepIso cameraChain).2 = .refreshed := by decide
  have horder : AddressInOrder
      (placedEvents (cameraEventOf stepIso (ascii "node-1", ascii "cam")) cameraChain) := by
    unfold AddressInOrder
    decide
  exact (camera_address_iff hrefreshed (ascii "node-1", ascii "cam")).mpr horder

def lateAnnouncementChain : Chain Numeral :=
  let chain := sampleChain.pushPersisted
    (buildNext sampleSha256 sampleClock sampleChain motionEvent)
  chain.pushPersisted (buildNext sampleSha256 earlierClock chain announcementEvent)

/-- The camera has no address. -/
theorem late_announcement_is_discarded :
    ¬ ∀ chain : Chain Numeral, (readChain 1000 500 stepIso chain).2 = .refreshed →
      ∀ key : Key, TellsMostRecent ((readChain 1000 500 stepIso chain).1.cameraState key.1 key.2)
        (placedEvents (cameraEventOf stepIso key) chain) := by
  intro h
  have hrefreshed : (readChain 1000 500 stepIso lateAnnouncementChain).2 = .refreshed := by decide
  have haddress := (h lateAnnouncementChain hrefreshed (ascii "node-1", ascii "cam")).streamUrl
  revert haddress
  decide

end Ledger.Backend

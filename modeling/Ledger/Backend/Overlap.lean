import Ledger.Backend.Cursor
import Ledger.Backend.Cameras
import Ledger.System.Register
import Mathlib.Order.Interval.Finset.Nat

/-! Refreshes of one cache that overlap: what it holds of a sensor, whatever the order in which the
answers come. -/
namespace Ledger.Backend
open Text Json
variable {F : Type}

theorem announce_register :
    Register (CameraState.timestamp (F := F)) announce where
  behind last e h := if_pos (isAfter_map_iff.mpr h)
  takes last e h := by
    have hnot : ¬isAfter (last.map CameraState.timestamp) e.timestamp := by
      rw [isAfter_map_iff]
      rintro ⟨y, hy, hlt⟩
      exact absurd hlt (not_lt.mpr (h y hy))
    rw [announce, if_neg hnot]
    rfl
  again last es hes hlast := by
    rcases List.eq_nil_or_concat' es with rfl | ⟨init, e, hconcat⟩
    · rfl
    have hwhole : ascendingFrom CameraState.timestamp last es = es :=
      ascendingFrom_of_pairwise hes hlast
    have hlastE : es.getLast? = some e := by
      rw [hconcat, List.getLast?_concat]
    have hfirst := foldl_announce last es
    rw [hwhole, hlastE, Option.map_some, Option.some_or] at hfirst
    -- of the events that were met, those from the instant of the last are taken again
    have hnone : ∀ y ∈ (none : Option (CameraState F)), y.timestamp ≤ e.timestamp := by simp
    have hkept : ascendingFrom CameraState.timestamp (some e) es =
        es.filter fun x => e.timestamp ≤ x.timestamp := by
      rw [ascendingFrom_eq_filter e hnone, ascendingFrom_of_pairwise hes (by simp)]
    have hkeptLast : (es.filter fun x => e.timestamp ≤ x.timestamp).getLast? = some e := by
      have he : ([e].filter fun x => e.timestamp ≤ x.timestamp) = [e] := by simp
      rw [hconcat, List.filter_append, he, List.getLast?_concat]
    have hurl := getLast?_or_of_suffix
      ((filter_le_suffix hes e.timestamp).filterMap CameraState.streamUrl)
    rw [hfirst, foldl_announce, ascendingFrom_streamUrl, hkept, hkeptLast, Option.map_some,
      Option.some_or, Option.bind_some, ← Option.or_assoc, hurl]

variable [NumberFloat F]

section Clock
variable {fromisoformat : Bytes → Option DateTime}

variable (fromisoformat) in
/-- A ledger whose timestamps do not decrease. -/
structure Steady (chain : Chain F) : Prop where
  stamps : ∀ b ∈ chain.blocks, ∃ tm, b.timestamp = nowRfc3339 tm
  order : (chain.blocks.filterMap (sighting fromisoformat)).Pairwise fun s t => s ≤ t

theorem Steady.of_pushPersisted {chain : Chain F} {b : Block F}
    (h : Steady fromisoformat (chain.pushPersisted b)) : Steady fromisoformat chain where
  stamps b' hb' := h.stamps b' (List.mem_append_left _ hb')
  order := h.order.sublist ((List.sublist_append_left _ _).filterMap _)

theorem Steady.pairwise {chain : Chain F} (h : Steady fromisoformat chain) {α : Type}
    {event : Block F → Option α} {time : α → ℤ}
    (hevent : ∀ b e, event b = some e → sighting fromisoformat b = some (time e)) :
    (chain.blocks.filterMap event).Pairwise fun x y => time x ≤ time y := by
  have horder := List.pairwise_filterMap.mp h.order
  rw [List.pairwise_filterMap]
  refine horder.imp ?_
  intro b b' hle e he e' he'
  exact hle _ (hevent b e he) _ (hevent b' e' he')

theorem sighting_of_sensorEventOf {eventType : String} {key : Key} {b : Block F}
    {e : Members F × ℤ} (h : sensorEventOf fromisoformat eventType key b = some e) :
    sighting fromisoformat b = some e.2 := by
  unfold sensorEventOf at h
  split_ifs at h
  obtain ⟨t, ht, h⟩ := Option.bind_eq_some_iff.mp h
  obtain ⟨sensor, -, h⟩ := Option.bind_eq_some_iff.mp h
  split_ifs at h
  unfold sightingOf at ht
  split_ifs at ht
  rw [← Option.some.inj h]
  exact ht

theorem sighting_of_readingOf {key : Key} (b : Block F) (r : Reading F)
    (h : readingOf fromisoformat key b = some r) : sighting fromisoformat b = some r.timestamp := by
  obtain ⟨e, he, rfl⟩ := Option.map_eq_some_iff.mp h
  exact sighting_of_sensorEventOf he

theorem sighting_of_cameraEventOf {key : Key} (b : Block F) (e : CameraState F)
    (h : cameraEventOf fromisoformat key b = some e) :
    sighting fromisoformat b = some e.timestamp := by
  obtain ⟨e, he, rfl⟩ := Option.map_eq_some_iff.mp h
  exact sighting_of_sensorEventOf he

end Clock

/-- The traffic of one cache, with the positions of the blocks that the answers have brought. -/
structure Overlap (F : Type) [NumberFloat F] where
  traffic : Traffic F
  fetched : Finset ℕ

def Overlap.start (chain : Chain F) : Overlap F :=
  ⟨.start chain, ∅⟩

def Fetched.positions : Fetched F → Finset ℕ
  | .page p => Finset.Ico (p.chainLength - p.blocks.length) p.chainLength
  | _ => ∅

section Step
variable (depth historyLimit : ℕ) (fromisoformat : Bytes → Option DateTime)
  (Allowed : Overlap F → Fetched F → Prop)

/-- The steps of the traffic, where an answer is applied if that is allowed. -/
inductive Overlap.Step : Overlap F → Overlap F → Prop
  | append (o : Overlap F) (b : Block F) (hroom : o.traffic.chain.size + 1 < 2 ^ 64) :
    Step o ⟨{ o.traffic with chain := o.traffic.chain.pushPersisted b }, o.fetched⟩
  | send (o : Overlap F) :
    Step o ⟨{ o.traffic with
      requests := o.traffic.requests ++ [o.traffic.cache.nextIndex - 1] }, o.fetched⟩
  | serve (o : Overlap F) (i lower : ℕ) (h : o.traffic.requests[i]? = some lower) :
    Step o ⟨{ o.traffic with
      requests := o.traffic.requests.eraseIdx i
      answers := o.traffic.answers ++ [answer depth o.traffic.chain lower] }, o.fetched⟩
  | lose (o : Overlap F) (i : ℕ) (fetched : Fetched F)
      (h : fetched = .failed ∨ ∃ code, code ≠ 400 ∧ fetched = .status code) :
    Step o ⟨{ o.traffic with
      requests := o.traffic.requests.eraseIdx i
      answers := o.traffic.answers ++ [fetched] }, o.fetched⟩
  | apply (o : Overlap F) (i : ℕ) (fetched : Fetched F)
      (h : o.traffic.answers[i]? = some fetched) (hallowed : Allowed o fetched) :
    Step o ⟨{ o.traffic with
      cache := (o.traffic.cache.refresh historyLimit fromisoformat fetched).1
      answers := o.traffic.answers.eraseIdx i }, o.fetched ∪ fetched.positions⟩

variable {depth historyLimit fromisoformat Allowed}

theorem Overlap.Step.traffic {o o' : Overlap F}
    (h : Overlap.Step depth historyLimit fromisoformat Allowed o o') :
    Traffic.Step depth historyLimit fromisoformat o.traffic o'.traffic := by
  cases h with
  | append b hroom => exact .append _ b hroom
  | send => exact .send _
  | serve i lower h => exact .serve _ i lower h
  | lose i fetched h => exact .lose _ i fetched h
  | apply i fetched h => exact .apply _ i fetched h

theorem Overlap.run_traffic {o o' : Overlap F}
    (h : Relation.ReflTransGen (Overlap.Step depth historyLimit fromisoformat Allowed) o o') :
    Relation.ReflTransGen (Traffic.Step depth historyLimit fromisoformat) o.traffic o'.traffic := by
  induction h with
  | refl => exact .refl
  | tail _ hstep ih => exact ih.tail hstep.traffic

end Step

namespace Overlap
variable {α : Type}

/-- What the fetched blocks state, in chain order. -/
def heldEvents (event : Block F → Option α) (o : Overlap F) : List (ℕ × α) :=
  (placedEvents event o.traffic.chain).filter (·.1 ∈ o.fetched)

def newestHeld (event : Block F → Option α) (o : Overlap F) : Option (ℕ × α) :=
  (o.heldEvents event).getLast?

/-- An answer that goes on to the newest event that has been fetched, or brings nothing from the
same instant. -/
def ComesInTime (time : α → ℤ) (event : Block F → Option α) (o : Overlap F) (p : BlocksPage F) :
    Prop :=
  ∀ newest ∈ o.newestHeld event, newest.1 < p.chainLength ∨
    ∀ e ∈ p.blocks.filterMap event, time e ≠ time newest.2

/-- An answer that comes in time for every sensor. -/
def Timely (fromisoformat : Bytes → Option DateTime) (o : Overlap F) : Fetched F → Prop
  | .page p => ∀ key, o.ComesInTime Reading.timestamp (readingOf fromisoformat key) p ∧
    o.ComesInTime CameraState.timestamp (cameraEventOf fromisoformat key) p
  | _ => True

/-- The cache has the newest reading of every sensor that has been fetched, the newest event of
every camera, and the address in the newest announcement. -/
structure KeepsNewest (fromisoformat : Bytes → Option DateTime) (o : Overlap F) : Prop where
  reading : ∀ key : Key, o.traffic.cache.latestReading key.1 key.2 =
    (o.newestHeld (readingOf fromisoformat key)).map Prod.snd
  camera : ∀ key : Key, o.traffic.cache.cameraState key.1 key.2 =
    (o.newestHeld (cameraEventOf fromisoformat key)).map fun e => { e.2 with
      streamUrl := (announcements (o.heldEvents (cameraEventOf fromisoformat key))).getLast?.bind
        fun a => a.2.streamUrl }

end Overlap

def IsPiece (chain : Chain F) (m : ℕ) (p : BlocksPage F) : Prop :=
  p.chainLength ≤ chain.size ∧ ∃ lower, lower ≤ m ∧ lower < p.chainLength ∧
    p.blocks = (chain.blocks.take p.chainLength).drop lower

theorem IsPiece.mono {chain : Chain F} {m n : ℕ} {p : BlocksPage F} (h : IsPiece chain m p)
    (hmn : m ≤ n) : IsPiece chain n p := by
  obtain ⟨hsize, lower, hlower, hlt, hblocks⟩ := h
  exact ⟨hsize, lower, hlower.trans hmn, hlt, hblocks⟩

theorem IsPiece.pushPersisted {chain : Chain F} {m : ℕ} {p : BlocksPage F}
    (h : IsPiece chain m p) (b : Block F) : IsPiece (chain.pushPersisted b) m p := by
  obtain ⟨hsize, lower, hlower, hlt, hblocks⟩ := h
  refine ⟨?_, lower, hlower, hlt, ?_⟩
  · rw [Chain.size_pushPersisted]
    omega
  · rw [hblocks, Chain.pushPersisted_blocks, List.take_append_of_le_length hsize]

theorem isPiece_answer {depth : ℕ} {chain : Chain F} {m lower : ℕ} (hlower : lower < chain.size)
    (hroom : chain.size < 2 ^ 64) (hm : lower ≤ m) {p : BlocksPage F}
    (h : answer depth chain lower = .page p) : IsPiece chain m p := by
  rw [answer, installBlocks_tail hlower hroom] at h
  dsimp only at h
  unfold decodePayload at h
  split_ifs at h
  obtain rfl := Fetched.page.inj h
  refine ⟨le_rfl, lower, hm, hlower, ?_⟩
  have hall : chain.blocks.take chain.size = chain.blocks := List.take_length
  rw [hall]

theorem IsPiece.positions {chain : Chain F} {m : ℕ} {p : BlocksPage F} (h : IsPiece chain m p) :
    Finset.range m ∪ (Fetched.page p).positions = Finset.range (max m p.chainLength) := by
  obtain ⟨hsize, lower, hlower, hlt, hblocks⟩ := h
  have hlength : p.blocks.length = p.chainLength - lower := by
    rw [hblocks, List.length_drop, List.length_take]
    exact congrArg (· - lower) (min_eq_left hsize)
  ext i
  rw [Fetched.positions, Finset.mem_union, Finset.mem_range, Finset.mem_Ico, Finset.mem_range,
    hlength]
  omega

namespace Overlap
variable {depth historyLimit : ℕ} {fromisoformat : Bytes → Option DateTime}

variable (fromisoformat) in
/-- The first `m` blocks have been fetched, and the cache has of each sensor what they leave. -/
structure Inv (o : Overlap F) (m : ℕ) : Prop where
  fetched : o.fetched = Finset.range m
  bound : m ≤ o.traffic.chain.size
  cursor : o.traffic.cache.nextIndex ≤ m
  requests : ∀ lower ∈ o.traffic.requests, lower ≤ m
  answers : ∀ p, .page p ∈ o.traffic.answers → IsPiece o.traffic.chain m p
  latest : ∀ key, (o.traffic.cache.maps.shelf key).latest =
    ((o.traffic.chain.blocks.take m).filterMap (readingOf fromisoformat key)).foldl
      (renew Reading.timestamp) none
  camera : ∀ key, o.traffic.cache.maps.camera.get key =
    ((o.traffic.chain.blocks.take m).filterMap (cameraEventOf fromisoformat key)).foldl
      announce none

theorem inv_start (chain : Chain F) : Inv fromisoformat (.start chain) 0 := by
  constructor
  · rfl
  · exact Nat.zero_le _
  · exact Nat.zero_le _
  · simp [Overlap.start, Traffic.start]
  · simp [Overlap.start, Traffic.start]
  · exact fun key => rfl
  · exact fun key => rfl

theorem Inv.heldEvents_map_snd {α : Type} {o : Overlap F} {m : ℕ} (h : Inv fromisoformat o m)
    (event : Block F → Option α) :
    (o.heldEvents event).map Prod.snd = (o.traffic.chain.blocks.take m).filterMap event := by
  rw [← placedEvents_take event h.bound, heldEvents, h.fetched]
  simp only [Finset.mem_range]

theorem mem_heldEvents {α : Type} {event : Block F → Option α} {o : Overlap F} {i : ℕ} {a : α} :
    (i, a) ∈ o.heldEvents event ↔
      i ∈ o.fetched ∧ ∃ b, o.traffic.chain.blocks[i]? = some b ∧ event b = some a := by
  rw [heldEvents, List.mem_filter, mem_placedEvents, decide_eq_true_iff, and_comm]

theorem le_newestHeld {α : Type} {event : Block F → Option α} {o : Overlap F} {e : ℕ × α}
    (h : e ∈ o.heldEvents event) : ∃ newest ∈ o.newestHeld event, e.1 ≤ newest.1 := by
  have hplaces : InPlace (o.heldEvents event) :=
    (inPlace_placedEvents event o.traffic.chain).sublist List.filter_sublist
  rw [newestHeld]
  rcases List.eq_nil_or_concat' (o.heldEvents event) with hnil | ⟨init, newest, hconcat⟩
  · rw [hnil] at h
    exact absurd h List.not_mem_nil
  · rw [hconcat] at h hplaces
    refine ⟨newest, by rw [hconcat]; exact List.getLast?_concat, ?_⟩
    rcases List.mem_append.mp h with hinit | hlast
    · exact ((List.pairwise_append.mp hplaces).2.2 e hinit newest
        (List.mem_singleton_self newest)).le
    · rw [List.mem_singleton.mp hlast]

theorem Inv.timely {α : Type} {time : α → ℤ} {event : Block F → Option α} {o : Overlap F} {m : ℕ}
    {p : BlocksPage F} (h : Inv fromisoformat o m) (hp : o.ComesInTime time event p) :
    ((o.traffic.chain.blocks.take m).drop p.chainLength).filterMap event = [] ∨
      ∀ x ∈ p.blocks.filterMap event,
        ∀ y ∈ ((o.traffic.chain.blocks.take m).filterMap event).getLast?, time x ≠ time y := by
  rw [← h.heldEvents_map_snd event, List.getLast?_map, ← newestHeld]
  cases hnewest : o.newestHeld event with
  | none => exact Or.inr fun x _ y hy => absurd hy (Option.not_mem_none y)
  | some newest =>
    rcases hp newest hnewest with hlt | hne
    · left
      rw [List.filterMap_eq_nil_iff]
      intro b hb
      by_contra hevent
      obtain ⟨a, ha⟩ := Option.ne_none_iff_exists'.mp hevent
      obtain ⟨k, hk⟩ := List.mem_iff_getElem?.mp hb
      rw [List.getElem?_drop] at hk
      have hkm : p.chainLength + k < m := by
        have hlength := (List.getElem?_eq_some_iff.mp hk).1
        rw [List.length_take] at hlength
        omega
      rw [List.getElem?_take_of_lt hkm] at hk
      have hheld : (p.chainLength + k, a) ∈ o.heldEvents event := by
        rw [mem_heldEvents, h.fetched, Finset.mem_range]
        exact ⟨hkm, b, hk, ha⟩
      obtain ⟨newest', hnewest', hle⟩ := le_newestHeld hheld
      rw [hnewest] at hnewest'
      rw [← Option.some.inj hnewest'] at hle
      dsimp only at hle
      omega
    · right
      intro x hx y hy
      rw [← Option.some.inj hy]
      exact hne x hx

theorem Inv.refresh_page {o : Overlap F} {m : ℕ} {p : BlocksPage F} (hiso : ReadsZulu fromisoformat)
    (hsteady : Steady fromisoformat o.traffic.chain) (hp : IsPiece o.traffic.chain m p) :
    o.traffic.cache.refresh historyLimit fromisoformat (.page p) =
      (⟨p.blocks.foldl (step historyLimit fromisoformat) o.traffic.cache.maps, p.chainLength, true⟩,
        .refreshed) := by
  obtain ⟨-, lower, -, -, hblocks⟩ := hp
  have hclean : ∀ b ∈ p.blocks, ¬Overflows fromisoformat b := by
    intro b hb
    rw [hblocks] at hb
    obtain ⟨tm, htm⟩ := hsteady.stamps b (List.mem_of_mem_take (List.mem_of_mem_drop hb))
    exact hiso.not_overflows htm
  rw [LedgerActivity.refresh, consumeBlocks_ok hclean]

/-- An answer that comes in time leaves what the blocks up to its end leave. -/
theorem Inv.apply_page {o : Overlap F} {m i : ℕ} {p : BlocksPage F} (h : Inv fromisoformat o m)
    (hiso : ReadsZulu fromisoformat) (hsteady : Steady fromisoformat o.traffic.chain)
    (hp : .page p ∈ o.traffic.answers) (htimely : Timely fromisoformat o (.page p)) :
    Inv fromisoformat ⟨{ o.traffic with
      cache := (o.traffic.cache.refresh historyLimit fromisoformat (.page p)).1
      answers := o.traffic.answers.eraseIdx i }, o.fetched ∪ (Fetched.page p).positions⟩
      (max m p.chainLength) := by
  have hpiece := h.answers p hp
  obtain ⟨hsize, lower, hlower, hlt, hblocks⟩ := id hpiece
  rw [refresh_page hiso hsteady hpiece]
  constructor
  · rw [h.fetched]
    exact hpiece.positions
  · exact max_le h.bound hsize
  · exact le_max_right _ _
  · exact fun lower hl => (h.requests lower hl).trans (le_max_left _ _)
  · exact fun q hq => (h.answers q (List.mem_of_mem_eraseIdx hq)).mono (le_max_left _ _)
  · intro key
    have hcond := h.timely (htimely key).1
    rw [hblocks] at hcond
    dsimp only
    rw [foldl_step_latest, h.latest, hblocks]
    exact (renew_register Reading.timestamp).deliver (hsteady.pairwise sighting_of_readingOf)
      hlower h.bound hcond
  · intro key
    have hcond := h.timely (htimely key).2
    rw [hblocks] at hcond
    dsimp only
    rw [foldl_step_camera, h.camera, hblocks]
    exact announce_register.deliver (hsteady.pairwise sighting_of_cameraEventOf) hlower h.bound
      hcond

theorem Inv.apply_lost {o : Overlap F} {m i : ℕ} {fetched : Fetched F} (h : Inv fromisoformat o m)
    (hlost : fetched = .recursionError ∨
      fetched = .failed ∨ ∃ code, code ≠ 400 ∧ fetched = .status code) :
    Inv fromisoformat ⟨{ o.traffic with
      cache := (o.traffic.cache.refresh historyLimit fromisoformat fetched).1
      answers := o.traffic.answers.eraseIdx i }, o.fetched ∪ fetched.positions⟩ m := by
  have hpositions : fetched.positions = ∅ := by
    rcases hlost with rfl | rfl | ⟨code, -, rfl⟩
    · rfl
    · rfl
    · rfl
  have hanswers : ∀ p, .page p ∈ o.traffic.answers.eraseIdx i → IsPiece o.traffic.chain m p :=
    fun p hp => h.answers p (List.mem_of_mem_eraseIdx hp)
  rw [hpositions, Finset.union_empty]
  rcases hlost with rfl | hlost
  · exact ⟨h.fetched, h.bound, h.cursor, h.requests, hanswers, h.latest, h.camera⟩
  · rw [refresh_outage hlost]
    exact ⟨h.fetched, h.bound, h.cursor, h.requests, hanswers, h.latest, h.camera⟩

theorem Inv.append {o : Overlap F} {m : ℕ} (h : Inv fromisoformat o m) (b : Block F) :
    Inv fromisoformat
      ⟨{ o.traffic with chain := o.traffic.chain.pushPersisted b }, o.fetched⟩ m := by
  have htake : (o.traffic.chain.pushPersisted b).blocks.take m = o.traffic.chain.blocks.take m :=
    List.take_append_of_le_length h.bound
  refine ⟨h.fetched, ?_, h.cursor, h.requests, ?_, ?_, ?_⟩
  · have hbound := h.bound
    rw [Chain.size_pushPersisted]
    omega
  · exact fun p hp => (h.answers p hp).pushPersisted b
  · intro key
    dsimp only
    rw [htake]
    exact h.latest key
  · intro key
    dsimp only
    rw [htake]
    exact h.camera key

theorem Inv.answered {o : Overlap F} {m i : ℕ} {fetched : Fetched F} (h : Inv fromisoformat o m)
    (hpiece : ∀ p, fetched = .page p → IsPiece o.traffic.chain m p) :
    Inv fromisoformat ⟨{ o.traffic with
      requests := o.traffic.requests.eraseIdx i
      answers := o.traffic.answers ++ [fetched] }, o.fetched⟩ m := by
  refine ⟨h.fetched, h.bound, h.cursor, ?_, ?_, h.latest, h.camera⟩
  · exact fun l hl => h.requests l (List.mem_of_mem_eraseIdx hl)
  · intro p hp
    rcases List.mem_append.mp hp with hp | hp
    · exact h.answers p hp
    · exact hpiece p (List.mem_singleton.mp hp).symm

theorem Inv.step {o o' : Overlap F} {m : ℕ} (h : Inv fromisoformat o m) (hw : o.traffic.Inv)
    (hiso : ReadsZulu fromisoformat) (hsteady : Steady fromisoformat o'.traffic.chain)
    (hstep : Overlap.Step depth historyLimit fromisoformat (Timely fromisoformat) o o') :
    ∃ m', Inv fromisoformat o' m' := by
  cases hstep with
  | append b hroom => exact ⟨m, h.append b⟩
  | send =>
    refine ⟨m, h.fetched, h.bound, h.cursor, ?_, h.answers, h.latest, h.camera⟩
    intro lower hlower
    rcases List.mem_append.mp hlower with hlower | hlower
    · exact h.requests lower hlower
    · have hcursor := h.cursor
      rw [List.mem_singleton.mp hlower]
      omega
  | serve i lower hi =>
    have hlower := List.mem_of_getElem? hi
    refine ⟨m, h.answered fun p hp => ?_⟩
    exact isPiece_answer (hw.requests lower hlower) hw.room (h.requests lower hlower) hp
  | lose i fetched hlost =>
    refine ⟨m, h.answered fun p hp => ?_⟩
    rw [hp] at hlost
    rcases hlost with hlost | ⟨code, -, hlost⟩
    · cases hlost
    · cases hlost
  | apply i fetched hi htimely =>
    have hmem := List.mem_of_getElem? hi
    rcases (hw.answers fetched hmem).page_or_lost with ⟨p, rfl⟩ | hlost
    · exact ⟨_, h.apply_page hiso hsteady hmem htimely⟩
    · exact ⟨m, h.apply_lost hlost⟩

theorem Step.steady {Allowed : Overlap F → Fetched F → Prop} {o o' : Overlap F}
    (h : Overlap.Step depth historyLimit fromisoformat Allowed o o')
    (hsteady : Steady fromisoformat o'.traffic.chain) :
    Steady fromisoformat o.traffic.chain := by
  cases h with
  | append b hroom => exact hsteady.of_pushPersisted
  | send => exact hsteady
  | serve i lower hi => exact hsteady
  | lose i fetched hlost => exact hsteady
  | apply i fetched hi hallowed => exact hsteady

theorem Inv.run {chain : Chain F} (hroom : chain.size < 2 ^ 64) (hiso : ReadsZulu fromisoformat)
    {o : Overlap F} (hsteady : Steady fromisoformat o.traffic.chain)
    (h : Relation.ReflTransGen (Overlap.Step depth historyLimit fromisoformat (Timely fromisoformat))
      (.start chain) o) : ∃ m, Inv fromisoformat o m := by
  induction h with
  | refl => exact ⟨0, inv_start chain⟩
  | tail hrun hstep ih =>
    obtain ⟨m, hm⟩ := ih (hstep.steady hsteady)
    exact hm.step (Traffic.Inv.run hroom (run_traffic hrun)) hiso hsteady hstep

theorem Inv.keepsNewest {o : Overlap F} {m : ℕ} (h : Inv fromisoformat o m)
    (hsteady : Steady fromisoformat o.traffic.chain) : KeepsNewest fromisoformat o := by
  have hprefix {α : Type} {time : α → ℤ} {event : Block F → Option α}
      (hevent : ∀ b e, event b = some e → sighting fromisoformat b = some (time e)) :
      ascendingFrom time none ((o.traffic.chain.blocks.take m).filterMap event) =
        (o.heldEvents event).map Prod.snd := by
    have hsorted := (hsteady.pairwise hevent).sublist
      ((List.take_sublist m o.traffic.chain.blocks).filterMap event)
    rw [ascendingFrom_of_pairwise hsorted (by simp), h.heldEvents_map_snd]
  constructor
  · intro key
    have hlatest : (o.traffic.cache.latestReading key.1 key.2) = _ := h.latest key
    rw [hlatest, foldl_renew, hprefix sighting_of_readingOf, List.getLast?_map, Option.or_none]
    rfl
  · intro key
    have hcamera : o.traffic.cache.cameraState key.1 key.2 = _ := h.camera key
    have hurl : ((o.heldEvents (cameraEventOf fromisoformat key)).map Prod.snd).filterMap
        CameraState.streamUrl = (o.heldEvents (cameraEventOf fromisoformat key)).filterMap
          fun e => e.2.streamUrl := List.filterMap_map
    rw [hcamera, foldl_announce, hprefix sighting_of_cameraEventOf, List.getLast?_map,
      Option.or_none, Option.map_map, hurl, getLast?_filterMap]
    simp only [Option.bind_none, Option.or_none]
    rfl

theorem heldEvents_subset_step {α : Type} (event : Block F → Option α)
    {Allowed : Overlap F → Fetched F → Prop} {o o' : Overlap F}
    (h : Overlap.Step depth historyLimit fromisoformat Allowed o o') :
    o.heldEvents event ⊆ o'.heldEvents event := by
  rintro ⟨i, a⟩ hheld
  rw [mem_heldEvents] at hheld ⊢
  obtain ⟨hi, b, hb, ha⟩ := hheld
  cases h with
  | append b' hroom =>
    have hlt := (List.getElem?_eq_some_iff.mp hb).1
    refine ⟨hi, b, ?_, ha⟩
    rw [Chain.pushPersisted_blocks, List.getElem?_append_left hlt, hb]
  | send => exact ⟨hi, b, hb, ha⟩
  | serve j lower hj => exact ⟨hi, b, hb, ha⟩
  | lose j fetched hlost => exact ⟨hi, b, hb, ha⟩
  | apply j fetched hj hallowed => exact ⟨Finset.mem_union_left _ hi, b, hb, ha⟩

theorem newestHeld_le {α : Type} (event : Block F → Option α)
    {Allowed : Overlap F → Fetched F → Prop} {o o' : Overlap F}
    (h : Relation.ReflTransGen (Overlap.Step depth historyLimit fromisoformat Allowed) o o') :
    ∀ newest ∈ o.newestHeld event, ∃ newest' ∈ o'.newestHeld event, newest.1 ≤ newest'.1 := by
  intro newest hnewest
  have hheld : newest ∈ o.heldEvents event := List.mem_of_getLast? hnewest
  have hkept : newest ∈ o'.heldEvents event := by
    induction h with
    | refl => exact hheld
    | tail _ hstep ih => exact heldEvents_subset_step event hstep ih
  exact le_newestHeld hkept

/-- Whatever the order of the answers, if each comes in time the cache has the newest of what has
been fetched, and that never goes back. -/
theorem overlapping_refreshes_keep_newest {chain : Chain F} (hroom : chain.size < 2 ^ 64)
    (hiso : ReadsZulu fromisoformat) {o o' : Overlap F}
    (hrun : Relation.ReflTransGen (Overlap.Step depth historyLimit fromisoformat (Timely fromisoformat))
      (.start chain) o)
    (hmore : Relation.ReflTransGen (Overlap.Step depth historyLimit fromisoformat (Timely fromisoformat))
      o o') (hsteady : Steady fromisoformat o'.traffic.chain) :
    KeepsNewest fromisoformat o ∧ KeepsNewest fromisoformat o' ∧
      ∀ key, (∀ newest ∈ o.newestHeld (readingOf fromisoformat key),
        ∃ newest' ∈ o'.newestHeld (readingOf fromisoformat key), newest.1 ≤ newest'.1) ∧
      ∀ newest ∈ o.newestHeld (cameraEventOf fromisoformat key),
        ∃ newest' ∈ o'.newestHeld (cameraEventOf fromisoformat key), newest.1 ≤ newest'.1 := by
  have hearlier : Steady fromisoformat o.traffic.chain := by
    clear hrun
    induction hmore with
    | refl => exact hsteady
    | tail _ hstep ih => exact ih (hstep.steady hsteady)
  obtain ⟨m, hm⟩ := Inv.run hroom hiso hearlier hrun
  obtain ⟨m', hm'⟩ := Inv.run hroom hiso hsteady (hrun.trans hmore)
  refine ⟨hm.keepsNewest hearlier, hm'.keepsNewest hsteady, fun key => ?_⟩
  exact ⟨newestHeld_le (readingOf fromisoformat key) hmore,
    newestHeld_le (cameraEventOf fromisoformat key) hmore⟩

/-- An answer that goes to the end of the chain comes in time. -/
theorem timely_of_end {o : Overlap F} {p : BlocksPage F}
    (hp : p.chainLength = o.traffic.chain.size) : Timely fromisoformat o (.page p) := by
  have hend {α : Type} (time : α → ℤ) (event : Block F → Option α) :
      o.ComesInTime time event p := by
    rintro ⟨i, a⟩ hnewest
    obtain ⟨-, b, hb, -⟩ := mem_heldEvents.mp (List.mem_of_getLast? hnewest)
    left
    rw [hp]
    exact (List.getElem?_eq_some_iff.mp hb).1
  exact fun key => ⟨hend _ _, hend _ _⟩

end Overlap

theorem steady_sampleReadingChain : Steady sampleIso sampleReadingChain where
  stamps := sampleReadingChain_stamps
  order := by
    have htimes : sampleReadingChain.blocks.filterMap (sighting sampleIso) =
        [63923817600000000, 63923817600000000] := rfl
    rw [htimes]
    simp

theorem overlapping_refreshes_keep_newest_sample : ∃ o : Overlap Numeral,
    o.fetched = {0, 1} ∧ o.traffic.requests = [] ∧ o.traffic.answers = [] ∧
      o.KeepsNewest sampleIso := by
  have hroom : sampleReadingChain.size < 2 ^ 64 := by decide
  have hanswer : answer 1000 sampleReadingChain 0 =
      .page ⟨sampleReadingChain.blocks, sampleReadingChain.size⟩ :=
    answer_page (by decide) hroom sampleReadingChain_shallow
  have hsent : Relation.ReflTransGen
      (Overlap.Step 1000 500 sampleIso (Overlap.Timely sampleIso)) (.start sampleReadingChain)
      ⟨⟨sampleReadingChain, .new, [],
        [answer 1000 sampleReadingChain 0, answer 1000 sampleReadingChain 0]⟩, ∅⟩ :=
    .tail (.tail (.tail (.tail .refl (.send _)) (.send _)) (.serve _ 0 0 rfl)) (.serve _ 0 0 rfl)
  rw [hanswer] at hsent
  have hfirst := hsent.tail (.apply _ 0 _ rfl (Overlap.timely_of_end rfl))
  have hsecond := hfirst.tail (.apply _ 0 _ rfl (Overlap.timely_of_end rfl))
  have hkeeps := Overlap.overlapping_refreshes_keep_newest hroom sampleIso_readsZulu hsecond .refl
    steady_sampleReadingChain
  exact ⟨_, rfl, rfl, rfl, hkeeps.1⟩

def firstReadingChain : Chain Numeral :=
  sampleChain.pushPersisted
    (buildNext sampleSha256 sampleClock sampleChain (seqEvent (.number ⟨11, by decide⟩) trivial))

def secondReadingChain : Chain Numeral :=
  firstReadingChain.pushPersisted (buildNext sampleSha256 sampleClock firstReadingChain
    (seqEvent (.number ⟨12, by decide⟩) trivial))

theorem secondReadingChain_timestamp :
    ∀ b ∈ secondReadingChain.blocks, b.timestamp = nowRfc3339 sampleClock := by
  intro b hb
  simp only [secondReadingChain, firstReadingChain, Chain.pushPersisted_blocks, List.mem_append,
    List.mem_singleton] at hb
  obtain (hb | rfl) | rfl := hb
  · rw [List.mem_singleton.mp hb]
    rfl
  · rfl
  · rfl

theorem steady_secondReadingChain : Steady sampleIso secondReadingChain where
  stamps b hb := ⟨sampleClock, secondReadingChain_timestamp b hb⟩
  order := by
    have htimes : secondReadingChain.blocks.filterMap (sighting sampleIso) =
        [63923817600000000, 63923817600000000, 63923817600000000] := rfl
    rw [htimes]
    simp

/-- The answer with one reading comes after the answer with both, and the cache goes back to the
first reading. -/
theorem overtaken_answer_rewinds :
    ¬ ∀ (chain : Chain Numeral) (o : Overlap Numeral),
      Relation.ReflTransGen (Overlap.Step 1000 500 sampleIso fun _ _ => True) (.start chain) o →
      Steady sampleIso o.traffic.chain → o.KeepsNewest sampleIso := by
  intro h
  have hserved : Relation.ReflTransGen (Overlap.Step 1000 500 sampleIso fun _ _ => True)
      (.start sampleChain) ⟨⟨secondReadingChain, .new, [],
        [answer 1000 firstReadingChain 0, answer 1000 secondReadingChain 0]⟩, ∅⟩ :=
    .tail (.tail (.tail (.tail (.tail (.tail .refl (.send _)) (.send _)) (.append _ _ (by decide)))
      (.serve _ 0 0 rfl)) (.append _ _ (by decide))) (.serve _ 0 0 rfl)
  have hrun := (hserved.tail (.apply _ 1 _ rfl trivial)).tail (.apply _ 0 _ rfl trivial)
  have hseq := congrArg (Option.map fun r => numeric (fun _ => 0) r.seq)
    ((h sampleChain _ hrun steady_secondReadingChain).reading (ascii "node-1", ascii "t1"))
  revert hseq
  decide

end Ledger.Backend

import Ledger.Backend.Activity
import Ledger.System.Rest

/-! The live view of a camera: what it shows of the announced address, and the watchdog that loads
the image again, against the commits and the effects of the client. -/
namespace Ledger.Frontend.CameraPane
open Text Json
open Backend (CameraState)
variable {F : Type}

/-- What stands in the place of the picture. -/
inductive View
  /-- "No camera events yet". -/
  | noEvents
  /-- "The device reported its stream went offline." -/
  | offline
  /-- "The camera is reporting, but has not announced a stream address." -/
  | noAddress
  /-- "Stream unreachable". -/
  | unreachable (url : Bytes)
  | live (url : Bytes) (attempt : ℕ)

/-- `event.replace(/_/g, ' ')`, or `none` where there is no such method to call. -/
def eventText : Json F → Option Bytes
  | .null => some (ascii "unknown")
  | .string s => some (s.map fun b => if b = 0x5F then 0x20 else b)
  | _ => none

def isOffline : Json F → Bool
  | .string s => s = ascii "stream_offline"
  | _ => false

/-- The view of a camera that is known. -/
def viewOf (camera : CameraState F) (failed : Bool) (attempt : ℕ) : View :=
  if isOffline camera.event then .offline
  else
    match camera.streamUrl with
    | none => .noAddress
    | some url => if failed then .unreachable url else .live url attempt

/-- `CameraPane`, with the text of the last event; `none` where it throws. -/
def render (camera : Option (CameraState F)) (failed : Bool) (attempt : ℕ) :
    Option (View × Option Bytes) :=
  match camera with
  | none => some (.noEvents, none)
  | some camera =>
    (eventText camera.event).map fun text => (viewOf camera failed attempt, some text)

def src (url : Bytes) (attempt : ℕ) : Bytes :=
  if attempt = 0 then url
  else url ++ (if 0x3F ∈ url then ascii "&" else ascii "?") ++ ascii "_=" ++ decimal attempt

/-- What a commit was made of. -/
structure Rendered (F : Type) where
  camera : Option (CameraState F)
  failed : Bool
  attempt : ℕ

def Rendered.url (r : Rendered F) : Option Bytes :=
  r.camera.bind CameraState.streamUrl

/-- The element on the page, with the time at which its address was set. -/
structure Image where
  key : ℕ
  source : Bytes
  loadedAt : ℕ

/-- The props and the state with all that is queued for them; the last commit; the dependencies with
which each effect ran last; when the interval was set or fired last, if it is set; and the address
of the last image that failed. Times are in milliseconds. -/
structure State (F : Type) where
  clock : ℕ
  next : Rendered F
  rendered : Rendered F
  resetFor : Option (Option Bytes)
  watching : Option (Option Bytes × Bool)
  timer : Option ℕ
  image : Option Image
  faulty : Option Bytes

/-- An element with the same key stays, and loads again if its address changes. -/
def Image.load (clock : ℕ) (image : Option Image) : View → Option Image
  | .live url attempt =>
    some ((image.filter fun i => i.key = attempt ∧ i.source = src url attempt).getD
      ⟨attempt, src url attempt, clock⟩)
  | _ => none

namespace State

def mount (camera : Option (CameraState F)) (view : View) : State F where
  clock := 0
  next := ⟨camera, false, 0⟩
  rendered := ⟨camera, false, 0⟩
  resetFor := none
  watching := none
  timer := none
  image := Image.load 0 none view
  faulty := none

/-- No effect of the last commit is left to run. -/
def Ran (s : State F) : Prop :=
  s.resetFor = some s.rendered.url ∧ s.watching = some (s.rendered.url, s.rendered.failed)

def Settled (s : State F) : Prop :=
  s.Ran ∧ s.rendered = s.next

def reset (s : State F) : State F :=
  if s.resetFor = some s.rendered.url then s
  else { s with
    next := { s.next with failed := false, attempt := 0 }
    resetFor := some s.rendered.url }

/-- The effect on the address and the failure, with what it cleans up. -/
def watch (s : State F) : State F :=
  if s.watching = some (s.rendered.url, s.rendered.failed) then s
  else { s with
    watching := some (s.rendered.url, s.rendered.failed)
    timer := if s.rendered.url = none ∨ s.rendered.failed = true then none else some s.clock }

end State

variable (period late : ℕ)

/-- What happens to the pane. Effects run before the next commit; a timer fires `late` at most, and
nothing else takes time. -/
inductive Step (s : State F) : State F → Prop
  | props (camera : Option (CameraState F)) : Step s { s with next := { s.next with camera } }
  | error (image : Image) (h : s.image = some image) :
    Step s { s with next := { s.next with failed := true }, faulty := some image.source }
  | tick (last : ℕ) (h : s.timer = some last) (hdue : last + period ≤ s.clock) :
    Step s { s with
      next := { s.next with attempt := s.next.attempt + 1 }
      timer := some s.clock }
  | effects (h : ¬s.Ran) : Step s s.reset.watch
  | commit (view : View) (text : Option Bytes) (h : s.Ran)
      (hr : render s.next.camera s.next.failed s.next.attempt = some (view, text)) :
    Step s { s with rendered := s.next, image := Image.load s.clock s.image view }
  | elapse (h : s.Settled) (hlate : ∀ last, s.timer = some last → s.clock < last + period + late) :
    Step s { s with clock := s.clock + 1 }

def Reachable (s : State F) : Prop :=
  ∃ camera view text, render camera false 0 = some (view, text) ∧
    Relation.ReflTransGen (Step period late) (.mount camera view) s

def SameAddress (s t : State F) : Prop :=
  Step period late s t ∧ t.next.url = s.next.url

theorem src_injective {url url' : Bytes} {attempt : ℕ} (h : src url attempt = src url' attempt) :
    url = url' := by
  unfold src at h
  split_ifs at h
  · exact h
  all_goals
    simp only [List.append_assoc] at h
    exact (List.append_inj' h rfl).1

theorem viewOf_live {camera : CameraState F} {failed : Bool} {attempt n : ℕ} {url : Bytes}
    (h : viewOf camera failed attempt = .live url n) :
    camera.streamUrl = some url ∧ failed = false ∧ n = attempt := by
  unfold viewOf at h
  by_cases hoffline : isOffline camera.event = true
  · rw [if_pos hoffline] at h
    cases h
  · rw [if_neg hoffline] at h
    cases hurl : camera.streamUrl with
    | none =>
      rw [hurl] at h
      cases h
    | some url' =>
      rw [hurl] at h
      cases failed with
      | true => cases h
      | false =>
        cases h
        exact ⟨rfl, rfl, rfl⟩

theorem render_live {camera : Option (CameraState F)} {failed : Bool} {attempt n : ℕ}
    {url : Bytes} {text : Option Bytes}
    (h : render camera failed attempt = some (.live url n, text)) :
    camera.bind CameraState.streamUrl = some url ∧ failed = false ∧ n = attempt := by
  cases camera with
  | none => cases h
  | some c =>
    obtain ⟨t, -, ht⟩ := Option.map_eq_some_iff.mp h
    exact viewOf_live (Prod.mk.inj ht).1

theorem Image.load_eq_some {clock : ℕ} {image : Option Image} {view : View} {i : Image}
    (h : Image.load clock image view = some i) :
    ∃ url, view = .live url i.key ∧ i.source = src url i.key ∧
      (image = some i ∨ i.loadedAt = clock) := by
  cases view with
  | live url attempt =>
    have hi := Option.some.inj h
    cases hkept : image.filter fun i => i.key = attempt ∧ i.source = src url attempt with
    | none =>
      rw [hkept] at hi
      subst hi
      exact ⟨url, rfl, rfl, Or.inr rfl⟩
    | some j =>
      rw [hkept] at hi
      obtain rfl : j = i := hi
      obtain ⟨hsome, hsame⟩ := Option.filter_eq_some_iff.mp hkept
      obtain ⟨rfl, hsource⟩ : j.key = attempt ∧ j.source = src url attempt := by
        simpa using hsame
      exact ⟨url, rfl, hsource, Or.inl hsome⟩
  | _ => cases h

variable {period late : ℕ} {s t : State F}

/-- An image is no older than the interval but for a commit or an effect that is to come. -/
structure Inv (period late : ℕ) (s : State F) : Prop where
  shown : ∀ i, s.image = some i → s.rendered.failed = false ∧ i.key = s.rendered.attempt ∧
    ∃ url, s.rendered.url = some url ∧ i.source = src url i.key
  paired : s.watching.map Prod.fst = s.resetFor
  running : ∀ url, s.watching = some (some url, false) → ∃ last, s.timer = some last
  started : ∀ last, s.timer = some last → last ≤ s.clock
  unwatched : s.watching ≠ some (s.rendered.url, s.rendered.failed) →
    ∀ i, s.image = some i → i.loadedAt = s.clock
  aged : ∀ i, s.image = some i → i.loadedAt ≤ s.clock ∧ s.clock ≤ i.loadedAt + period + late
  lagging : s.next.attempt < s.rendered.attempt → ∀ last, s.timer = some last → last = s.clock
  fresh : s.next.attempt ≤ s.rendered.attempt → ∀ i, s.image = some i →
    ∀ last, s.timer = some last → last ≤ i.loadedAt
  faulty : s.next.failed = true → s.resetFor = some s.rendered.url →
    ∃ url attempt, s.rendered.url = some url ∧ s.faulty = some (src url attempt)

theorem inv_mount {camera : Option (CameraState F)} {view : View} {text : Option Bytes}
    (h : render camera false 0 = some (view, text)) :
    Inv period late (.mount camera view : State F) where
  shown i hi := by
    obtain ⟨url, rfl, hsource, -⟩ := Image.load_eq_some hi
    obtain ⟨hurl, -, hkey⟩ := render_live h
    exact ⟨rfl, hkey, url, hurl, hsource⟩
  paired := rfl
  running _ hw := by cases hw
  started _ ht := by cases ht
  unwatched _ i hi := by
    obtain ⟨url, -, -, hold | hnew⟩ := Image.load_eq_some hi
    · cases hold
    · exact hnew
  aged i hi := by
    obtain ⟨url, -, -, hold | hnew⟩ := Image.load_eq_some hi
    · cases hold
    · rw [hnew]
      exact ⟨le_rfl, Nat.zero_le _⟩
  lagging h := absurd h (Nat.lt_irrefl 0)
  fresh _ _ _ _ ht := by cases ht
  faulty hf := by cases hf

theorem Inv.effects_cases (hs : Inv period late s) (h : ¬s.Ran) :
    s.watching ≠ some (s.rendered.url, s.rendered.failed) ∧
    ((s.resetFor = some s.rendered.url ∧ s.reset = s) ∨
      s.reset = { s with
        next := { s.next with failed := false, attempt := 0 }
        resetFor := some s.rendered.url }) := by
  by_cases hreset : s.resetFor = some s.rendered.url
  · exact ⟨fun hw => h ⟨hreset, hw⟩, Or.inl ⟨hreset, if_pos hreset⟩⟩
  · refine ⟨fun hw => hreset ?_, Or.inr (if_neg hreset)⟩
    rw [← hs.paired, hw]
    rfl

theorem State.watch_eq (h : s.watching ≠ some (s.rendered.url, s.rendered.failed)) :
    s.watch = { s with
      watching := some (s.rendered.url, s.rendered.failed)
      timer := if s.rendered.url = none ∨ s.rendered.failed = true then none
        else some s.clock } :=
  if_neg h

theorem Inv.effects (hs : Inv period late s) (h : ¬s.Ran) : Inv period late s.reset.watch := by
  obtain ⟨hw, hreset⟩ := hs.effects_cases h
  have hwatch : s.reset.watch = { s.reset with
      watching := some (s.rendered.url, s.rendered.failed)
      timer := if s.rendered.url = none ∨ s.rendered.failed = true then none
        else some s.clock } := by
    rcases hreset with ⟨-, heq⟩ | heq <;> rw [heq] <;> exact State.watch_eq hw
  have hlast {last : ℕ} (hl : (if s.rendered.url = none ∨ s.rendered.failed = true then none
      else some s.clock) = some last) : last = s.clock := by
    split_ifs at hl
    exact (Option.some.inj hl).symm
  rw [hwatch]
  rcases hreset with ⟨hfor, heq⟩ | heq
  all_goals
    rw [heq]
    constructor
    · exact hs.shown
    · first | exact hfor.symm | rfl
    · intro url hurl
      obtain ⟨hurl, hfailed⟩ := Prod.mk.inj (Option.some.inj hurl)
      exact ⟨s.clock, if_neg (by simp [hurl, hfailed])⟩
    · exact fun last hl => (hlast hl).le
    · exact fun hne => absurd rfl hne
    · exact hs.aged
    · exact fun _ last hl => hlast hl
    · intro _ i hi last hl
      rw [hlast hl, hs.unwatched hw i hi]
  · exact hs.faulty
  · exact fun hf => absurd hf Bool.false_ne_true

/-- The image of a commit: it loads then, or it was there and the commit changes neither the address
nor the number of the attempt. -/
theorem Inv.committed (hs : Inv period late s) {view : View} {text : Option Bytes}
    (hr : render s.next.camera s.next.failed s.next.attempt = some (view, text)) {i : Image}
    (hi : Image.load s.clock s.image view = some i) :
    (s.next.failed = false ∧ i.key = s.next.attempt ∧
      ∃ url, s.next.url = some url ∧ i.source = src url i.key) ∧
    (i.loadedAt = s.clock ∨ (s.image = some i ∧ s.rendered.url = s.next.url ∧
      s.rendered.failed = s.next.failed ∧ s.rendered.attempt = s.next.attempt)) := by
  obtain ⟨url, rfl, hsource, hold⟩ := Image.load_eq_some hi
  obtain ⟨hurl, hfailed, hkey⟩ := render_live hr
  refine ⟨⟨hfailed, hkey, url, hurl, hsource⟩, ?_⟩
  rcases hold with hold | hnew
  · obtain ⟨hfailed', hkey', url', hurl', hsource'⟩ := hs.shown i hold
    obtain rfl := src_injective (hsource.symm.trans hsource')
    exact Or.inr ⟨hold, hurl'.trans hurl.symm, hfailed'.trans hfailed.symm, hkey'.symm.trans hkey⟩
  · exact Or.inl hnew

theorem Inv.commit (hs : Inv period late s) {view : View} {text : Option Bytes} (h : s.Ran)
    (hr : render s.next.camera s.next.failed s.next.attempt = some (view, text)) :
    Inv period late { s with rendered := s.next, image := Image.load s.clock s.image view } where
  shown i hi := (hs.committed hr hi).1
  paired := hs.paired
  running := hs.running
  started := hs.started
  unwatched hne i hi := by
    rcases (hs.committed hr hi).2 with hnew | ⟨-, hurl, hfailed, -⟩
    · exact hnew
    · exact absurd (by rw [h.2, hurl, hfailed]) hne
  aged i hi := by
    rcases (hs.committed hr hi).2 with hnew | ⟨hold, -⟩
    · rw [hnew, Nat.add_assoc]
      exact ⟨le_rfl, Nat.le_add_right _ _⟩
    · exact hs.aged i hold
  lagging hlt := absurd hlt (Nat.lt_irrefl _)
  fresh _ i hi last hl := by
    rcases (hs.committed hr hi).2 with hnew | ⟨hold, -, -, hattempt⟩
    · rw [hnew]
      exact hs.started last hl
    · exact hs.fresh hattempt.ge i hold last hl
  faulty hf hfor := by
    have hurl : s.rendered.url = s.next.url := Option.some.inj (h.1.symm.trans hfor)
    rw [← hurl]
    exact hs.faulty hf h.1

theorem Inv.tick (hs : Inv period late s) (hperiod : 0 < period) {last : ℕ}
    (h : s.timer = some last) (hdue : last + period ≤ s.clock) :
    Inv period late { s with
      next := { s.next with attempt := s.next.attempt + 1 }
      timer := some s.clock } := by
  have hle : ¬s.next.attempt < s.rendered.attempt := by
    intro hlt
    have hlast := hs.lagging hlt last h
    omega
  constructor
  · exact hs.shown
  · exact hs.paired
  · exact fun _ _ => ⟨_, rfl⟩
  · exact fun last hl => (Option.some.inj hl).ge
  · exact hs.unwatched
  · exact hs.aged
  · exact fun hlt => absurd (Nat.lt_of_succ_lt hlt) hle
  · exact fun hlt => absurd hlt hle
  · exact hs.faulty

theorem Inv.elapse (hs : Inv period late s) (h : s.Settled)
    (hlate : ∀ last, s.timer = some last → s.clock < last + period + late) :
    Inv period late { s with clock := s.clock + 1 } := by
  obtain ⟨⟨hfor, hwatching⟩, hnext⟩ := h
  have hattempt : s.next.attempt = s.rendered.attempt := by rw [hnext]
  constructor
  · exact hs.shown
  · exact hs.paired
  · exact hs.running
  · exact fun last hl => (hs.started last hl).trans (Nat.le_succ _)
  · exact fun hne => absurd hwatching hne
  · intro i hi
    obtain ⟨hfailed, -, url, hurl, -⟩ := hs.shown i hi
    rw [hfailed, hurl] at hwatching
    obtain ⟨last, hl⟩ := hs.running url hwatching
    have hfresh := hs.fresh hattempt.le i hi last hl
    have hold := (hs.aged i hi).1
    have hdue := hlate last hl
    exact ⟨hold.trans (Nat.le_succ _), by dsimp only; omega⟩
  · exact fun hlt => absurd hattempt hlt.ne
  · exact fun _ => hs.fresh hattempt.le
  · exact hs.faulty

theorem Inv.step (hs : Inv period late s) (hperiod : 0 < period) (h : Step period late s t) :
    Inv period late t := by
  cases h with
  | props camera =>
    exact ⟨hs.shown, hs.paired, hs.running, hs.started, hs.unwatched, hs.aged, hs.lagging,
      hs.fresh, hs.faulty⟩
  | error image hi =>
    refine ⟨hs.shown, hs.paired, hs.running, hs.started, hs.unwatched, hs.aged, hs.lagging,
      hs.fresh, fun _ _ => ?_⟩
    obtain ⟨-, -, url, hurl, hsource⟩ := hs.shown image hi
    exact ⟨url, image.key, hurl, congrArg some hsource⟩
  | tick last hl hdue => exact hs.tick hperiod hl hdue
  | effects hran => exact hs.effects hran
  | commit view text hran hr => exact hs.commit hran hr
  | elapse hsettled hlate => exact hs.elapse hsettled hlate

theorem Reachable.inv (hperiod : 0 < period) (h : Reachable period late s) : Inv period late s := by
  obtain ⟨camera, view, text, hr, hrun⟩ := h
  induction hrun with
  | refl => exact inv_mount hr
  | tail _ hstep ih => exact ih.step hperiod hstep

/-- The pane has given up on an address. -/
structure GivenUp (url : Option Bytes) (s : State F) : Prop where
  failed : s.next.failed = true
  next : s.next.url = url
  rendered : s.rendered.url = url
  reset : s.resetFor = some url
  shown : s.rendered.failed = true
  image : s.image = none

theorem GivenUp.step {url : Option Bytes} (hs : GivenUp url s) (h : SameAddress period late s t) :
    GivenUp url t := by
  obtain ⟨hfailed, hnext, hrendered, hreset, hshown, himage⟩ := hs
  obtain ⟨hstep, hsame⟩ := h
  have hurl : t.next.url = url := hsame.trans hnext
  cases hstep with
  | props camera => exact ⟨hfailed, hurl, hrendered, hreset, hshown, himage⟩
  | error image hi => cases himage.symm.trans hi
  | tick last hl hdue => exact ⟨hfailed, hurl, hrendered, hreset, hshown, himage⟩
  | effects hran =>
    have heq : s.reset = s := if_pos (by rw [hreset, hrendered])
    rw [heq]
    unfold State.watch
    split_ifs <;> exact ⟨hfailed, hnext, hrendered, hreset, hshown, himage⟩
  | commit view text hran hr =>
    refine ⟨hfailed, hnext, hnext, hreset, hfailed, ?_⟩
    cases himage' : Image.load s.clock s.image view with
    | none => rfl
    | some i =>
      obtain ⟨u, rfl, -⟩ := Image.load_eq_some himage'
      cases hfailed.symm.trans (render_live hr).2.1
  | elapse hsettled hlate => exact ⟨hfailed, hurl, hrendered, hreset, hshown, himage⟩

/-- In every run an image on the page was loaded no longer ago than the interval and the lateness of
its timer. A pane at rest that has failed has had an error from an image of its own address, and
with this address it never loads one again. -/
theorem watchdog (hperiod : 0 < period) (h : Reachable period late s) :
    (∀ i, s.image = some i → s.clock ≤ i.loadedAt + period + late) ∧
    (s.Settled → s.next.failed = true →
      (∃ url attempt, s.next.url = some url ∧ s.faulty = some (src url attempt)) ∧
      ∀ t, Relation.ReflTransGen (SameAddress period late) s t →
        t.next.failed = true ∧ t.image = none) := by
  have hs := h.inv hperiod
  refine ⟨fun i hi => (hs.aged i hi).2, fun hsettled hfailed => ⟨?_, fun t hrun => ?_⟩⟩
  · obtain ⟨⟨hfor, -⟩, hnext⟩ := hsettled
    rw [← hnext]
    exact hs.faulty hfailed hfor
  · obtain ⟨⟨hfor, -⟩, hnext⟩ := hsettled
    have himage : s.image = none := by
      cases hi : s.image with
      | none => rfl
      | some i =>
        have hfine := (hs.shown i hi).1
        rw [hnext, hfailed] at hfine
        cases hfine
    have hgiven : GivenUp s.next.url t := by
      induction hrun with
      | refl =>
        exact ⟨hfailed, rfl, by rw [hnext], by rw [hfor, hnext], by rw [hnext, hfailed], himage⟩
      | tail _ hstep ih => exact ih.step hstep
    exact ⟨hgiven.failed, hgiven.image⟩

def sampleCamera : CameraState Numeral :=
  ⟨ascii "cam-0", ascii "camera", .null, 0, some (ascii "http://cam/stream")⟩

theorem watchdog_sample : ∃ s : State Numeral, Reachable 30000 0 s ∧ s.clock = 1 ∧
    s.next.url = some (ascii "http://cam/stream") ∧
      ∀ t, Relation.ReflTransGen (SameAddress 30000 0) s t → t.image = none := by
  have hmount : Relation.ReflTransGen (Step 30000 0) (.mount (some sampleCamera)
      (.live (ascii "http://cam/stream") 0)) _ := .refl
  have hwatched := hmount.tail (.effects (by simp [State.Ran, State.mount]))
  have hlater := hwatched.tail (.elapse ⟨⟨rfl, rfl⟩, rfl⟩ fun last hl => by
    obtain rfl := Option.some.inj hl
    decide)
  have hfailed := (hlater.tail (.error ⟨0, ascii "http://cam/stream", 0⟩ rfl)).tail
    (.commit (.unreachable (ascii "http://cam/stream")) (some (ascii "unknown")) ⟨rfl, rfl⟩ rfl)
  have hsettled := hfailed.tail (.effects (by
    rintro ⟨-, hw⟩
    cases (Prod.mk.inj (Option.some.inj hw)).2))
  have hreachable : Reachable 30000 0 _ :=
    ⟨some sampleCamera, _, some (ascii "unknown"), rfl, hsettled⟩
  obtain ⟨-, hgiven⟩ := watchdog (by decide) hreachable
  exact ⟨_, hreachable, rfl, rfl, fun t hrun => ((hgiven ⟨⟨rfl, rfl⟩, rfl⟩ rfl).2 t hrun).2⟩

end Ledger.Frontend.CameraPane

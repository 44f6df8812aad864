import Ledger.Core.Broadcast

/-! What a client of the live feed gets: its subscription for itself, the pump that sends what the
subscription delivers, and the gaps it announces. -/
namespace Ledger
open Text Json
variable {F : Type} [NumberFloat F]

/-- The event is one of the publisher's or one of the subscription `i`. -/
def FeedEvent.concerns (i : ℕ) : FeedEvent F → Bool
  | .subscribe j _ | .visit j | .next j | .tryNext j | .close j | .drop j => j == i
  | .publish _ | .closeAll | .unlock => true

/-- What the loop in progress does to a subscription: push a block, or close. -/
def Fanout.effect : Fanout F → Option (Option (Block F))
  | .idle => none
  | .publishing block _ _ => some (some block)
  | .closing _ => some none

/-- The loop in progress and the handle of one subscription. -/
structure View (F : Type) [NumberFloat F] where
  effect : Option (Option (Block F))
  handle : Option (Handle F)

namespace View

def visit (v : View F) : View F :=
  { v with handle := v.handle.map fun h =>
      match v.effect, h.held with
      | some (some block), true => h.push block
      | some none, true => h.close
      | _, _ => h }

/-- What an event does to the view of `i`, with no other subscription in sight. -/
def step (i : ℕ) (v : View F) : FeedEvent F → View F
  | .subscribe j capacity => if j = i then { v with handle := some (.fresh capacity) } else v
  | .publish block => { v with effect := some (some block) }
  | .closeAll => { v with effect := some none }
  | .unlock => { v with effect := none }
  | .visit j => if j = i then v.visit else v
  | .next j | .tryNext j =>
    if j = i then { v with handle := v.handle.map fun h => h.take h.subscription.tryNext } else v
  | .close j => if j = i then { v with handle := v.handle.map Handle.close } else v
  | .drop j => if j = i then { v with handle := v.handle.map Handle.drop } else v

theorem step_of_not_concerns {i : ℕ} (v : View F) {e : FeedEvent F} (h : e.concerns i = false) :
    v.step i e = v := by
  cases e <;> simp_all [FeedEvent.concerns, step]

theorem foldl_filter (i : ℕ) (v : View F) (events : List (FeedEvent F)) :
    (events.filter (·.concerns i)).foldl (step i) v = events.foldl (step i) v := by
  induction events generalizing v with
  | nil => rfl
  | cons e events ih =>
    cases h : e.concerns i with
    | true => rw [List.filter_cons_of_pos h, List.foldl_cons, List.foldl_cons, ih]
    | false =>
      rw [List.filter_cons_of_neg (by simp [h]), ih, List.foldl_cons, step_of_not_concerns v h]

end View

namespace Feed
variable {s t : Feed F} {i j : ℕ}

def view (i : ℕ) (s : Feed F) : View F :=
  ⟨s.fanout.effect, (s.clients i).map Client.toHandle⟩

theorem view_setClient (c : Client F) :
    (s.setClient j c).view i =
      if j = i then { s.view i with handle := some c.toHandle } else s.view i := by
  split_ifs with hj
  · subst hj
    simp [view, setClient]
  · simp [view, setClient, Function.update_of_ne (Ne.symm hj)]

theorem view_update {fanout : Fanout F} {c : Client F} :
    ({ s with clients := Function.update s.clients j (some c), fanout } : Feed F).view i =
      ⟨fanout.effect, if j = i then some c.toHandle else (s.view i).handle⟩ := by
  split_ifs with hj
  · subst hj
    simp [view]
  · simp [view, Function.update_of_ne (Ne.symm hj)]

theorem view_handle {c : Client F} (hc : s.clients i = some c) :
    (s.view i).handle = some c.toHandle := by
  simp [view, hc]

theorem view_visit_of_not_held (h : s.held i = false) : (s.view i).visit = s.view i := by
  unfold View.visit view
  congr 1
  cases hc : s.clients i with
  | none => rfl
  | some c =>
    rw [held_eq hc] at h
    simp [h]

theorem view_step {e : FeedEvent F} (h : s.step e = some t) :
    t.view i = (s.view i).step i e := by
  cases step_cases h with
  | @subscribe j capacity hidle hj =>
    simp only [View.step]
    split_ifs with hji
    · subst hji
      simp [view, setClient, hidle, Fanout.effect, Client.fresh]
    · simp [view, setClient, Function.update_of_ne (Ne.symm hji)]
  | publish | closeAll | published | closed => rfl
  | @push j c block kept rest hf hc hheld =>
    simp only [View.step]
    rw [view_update]
    split_ifs with hji
    · subst hji
      simp [view, View.visit, hf, hc, hheld, Fanout.effect, Client.push]
    · simp [view, hf, Fanout.effect]
  | @prune j block kept rest hf hheld =>
    have hsame : ({ s with fanout := .publishing block kept rest } : Feed F).view i = s.view i := by
      simp [view, hf, Fanout.effect]
    simp only [View.step]
    split_ifs with hji
    · subst hji
      rw [view_visit_of_not_held hheld, hsame]
    · exact hsame
  | @shut j c rest hf hc hheld =>
    simp only [View.step]
    rw [view_update]
    split_ifs with hji
    · subst hji
      simp [view, View.visit, hf, hc, hheld, Fanout.effect, Client.close]
    · simp [view, hf, Fanout.effect]
  | @pass j rest hf hheld =>
    have hsame : ({ s with fanout := .closing rest } : Feed F).view i = s.view i := by
      simp [view, hf, Fanout.effect]
    simp only [View.step]
    split_ifs with hji
    · subst hji
      rw [view_visit_of_not_held hheld, hsame]
    · exact hsame
  | @next j c hc | @tryNext j c hc | @close j c hc | @drop j c hc =>
    simp only [View.step]
    rw [view_setClient]
    split_ifs with hji
    · subst hji
      rw [view_handle hc]
      rfl
    · rfl

theorem view_run {events : List (FeedEvent F)} (h : s.run events = some t) :
    t.view i = events.foldl (View.step i) (s.view i) := by
  induction events generalizing s with
  | nil => rw [← Option.some.inj h]; rfl
  | cons e events ih =>
    rw [Feed.run, List.foldlM_cons, Option.bind_eq_bind, Option.bind_eq_some_iff] at h
    obtain ⟨u, hu, h⟩ := h
    rw [ih h, view_step hu, List.foldl_cons]

theorem handle_eq_of_filter_eq {events events' : List (FeedEvent F)} {u : Feed F}
    (h : s.run events = some t) (h' : s.run events' = some u)
    (heq : events'.filter (·.concerns i) = events.filter (·.concerns i)) :
    (u.clients i).map Client.toHandle = (t.clients i).map Client.toHandle := by
  have hview : u.view i = t.view i := by
    rw [view_run h, view_run h', ← View.foldl_filter, heq, View.foldl_filter]
  exact congrArg View.handle hview

end Feed

variable (F) in
def lagFrame (dropped : ℕ) : Except Exception Bytes :=
  dump (fields [("type", .string (ascii "lagged")),
    ("dropped", .number (.ofUInt64 (UInt64.ofNat dropped)))] : Json F)

/-- The frames a thread has sent, and whether an exception ended it. -/
abbrev Sent := List Bytes × Except Exception Unit

def Sent.andThen (a b : Sent) : Sent :=
  match a.2 with
  | .ok () => (a.1 ++ b.1, b.2)
  | .error _ => a

def sendText : Except Exception Bytes → Sent
  | .ok frame => ([frame], .ok ())
  | .error e => ([], .error e)

/-- `pump_loop` on what `next` returns, each item with whether the client is still there. -/
def pumpLoop : List (Item F × Bool) → Sent
  | [] => ([], .ok ())
  | (_, false) :: _ => ([], .ok ())
  | (item, true) :: rest =>
    (if item.lagged > 0 then sendText (lagFrame F item.lagged) else ([], .ok ())).andThen
      ((sendText (dump item.value.toJson)).andThen (pumpLoop rest))

def lagText (dropped : ℕ) : Bytes :=
  ascii "\x7b\"dropped\":" ++ decimal dropped ++ ascii ",\"type\":\"lagged\"\x7d"

variable (F) in
/-- The members of `lag_frame` in the order `dump` writes them. -/
def lagMembers (dropped : ℕ) : Members F :=
  [(ascii "dropped", .number (.ofUInt64 (UInt64.ofNat dropped))),
    (ascii "type", .string (ascii "lagged"))]

theorem lagFrame_members (dropped : ℕ) :
    lagFrame F dropped = dump (.object (lagMembers F dropped)) := by
  unfold lagFrame
  congr 1
  simp +decide only [fields, List.foldl_cons, List.foldl_nil, assign, if_true, if_false]
  rfl

theorem lagMembers_valid (dropped : ℕ) : (Json.object (lagMembers F dropped)).Valid := by
  have hkeys : [ascii "dropped", ascii "type"].Pairwise fun a b => keyOrder a < keyOrder b := by
    decide
  simp only [lagMembers, Valid, ValidMembers, and_true]
  exact ⟨sorted_iff.mpr hkeys, by decide, by decide, by decide⟩

theorem text_lagMembers {dropped : ℕ} (h : dropped < 2 ^ 64) :
    text (.object (lagMembers F dropped)) = lagText dropped := by
  have hn : (UInt64.ofNat dropped).toNat = dropped := UInt64.toNat_ofNat_of_lt' h
  have hint : dumpInteger (.ofUInt64 (UInt64.ofNat dropped)) = decimal dropped := by
    simp [dumpInteger, JsonInt.ofUInt64, hn]
  have hhead : ascii "\x7b" ++ (ascii "\"" ++ escape (ascii "dropped") ++ ascii "\":") =
      ascii "\x7b\"dropped\":" := by decide
  have htail : ascii "," ++ (ascii "\"" ++ escape (ascii "type") ++ ascii "\":" ++
      (ascii "\"" ++ escape (ascii "lagged") ++ ascii "\"")) ++ ascii "\x7d" =
      ascii ",\"type\":\"lagged\"\x7d" := by decide
  rw [lagText, ← hhead, ← htail]
  simp only [lagMembers, text, textMembers, hint, List.append_assoc]

theorem lagFrame_eq {dropped : ℕ} (h : dropped < 2 ^ 64) :
    lagFrame F dropped = .ok (lagText dropped) := by
  rw [lagFrame_members, dump_eq_text (lagMembers_valid dropped), text_lagMembers h]

/-- The frames for a gap and the block after it. -/
def announce (g : DropOldest.Segment (Block F)) : List Bytes :=
  if g.1 = [] then [text g.2.toJson] else [lagText g.1.length, text g.2.toJson]

theorem pumpLoop_segments {segments : List (DropOldest.Segment (Block F))}
    (hs : ∀ g ∈ segments, g.1.length < 2 ^ 64 ∧ g.2.WellFormed) {polls : List (Item F × Bool)}
    (hp : polls.map Prod.fst = segments.map DropOldest.Segment.delivery) :
    pumpLoop polls =
      ((segments.take (polls.takeWhile (·.2)).length).flatMap announce, .ok ()) := by
  induction segments generalizing polls with
  | nil => rw [List.map_eq_nil_iff.mp hp]; rfl
  | cons g segments ih =>
    obtain ⟨⟨item, live⟩, polls, rfl, hitem, hrest⟩ := List.map_eq_cons_iff.mp hp
    cases live with
    | false => simp [pumpLoop]
    | true =>
      obtain ⟨hlt, hwf⟩ := hs g List.mem_cons_self
      have hi : item = g.delivery := hitem
      rw [pumpLoop, ih (fun g hg => hs g (List.mem_cons_of_mem _ hg)) hrest, hi,
        DropOldest.Segment.delivery, lagFrame_eq hlt, dump_eq_text hwf.toJson_valid]
      by_cases hg : g.1 = []
      · simp [hg, announce, sendText, Sent.andThen]
      · simp [List.length_pos_iff.mpr hg, hg, announce, sendText, Sent.andThen]

/-- The blocks published to `i` between its `subscribe` and its `close`, or up to now. -/
def Feed.window (s : Feed F) (i : ℕ) (c : Client F) : List (Block F) :=
  (s.published.take (c.ended.getD (s.reached i))).drop c.opened

/-- The segments of a window: what is delivered, and what the pump makes of it. -/
structure GapAccounting (window : List (Block F)) (c : Client F)
    (segments : List (DropOldest.Segment (Block F))) : Prop where
  delivered : c.delivered = segments.map DropOldest.Segment.delivery
  left : ∃ gap : List (Block F), gap.length = c.subscription.lagged ∧
    window = segments.flatMap DropOldest.Segment.elements ++ (gap ++ c.subscription.buffer)
  drained : c.subscription.buffer = [] →
    window = segments.flatMap DropOldest.Segment.elements
  /-- `append_block` has dumped a block before it is published. -/
  frames : (∀ b ∈ window, b.WellFormed) → ∀ polls : List (Item F × Bool),
    polls.map Prod.fst = c.delivered →
      pumpLoop polls =
        ((segments.take (polls.takeWhile (·.2)).length).flatMap announce, .ok ())

structure LiveFeed (events : List (FeedEvent F)) (s : Feed F) (i : ℕ) (c : Client F) : Prop where
  gaps : ∃ segments, GapAccounting (s.window i c) c segments
  subsequence : (c.delivered.map Delivery.value).Sublist (s.window i c)
  counted : c.subscription.buffer = [] →
    (s.window i c).length = (c.delivered.map fun d => d.lagged + 1).sum
  bounded : c.subscription.buffer.length ≤ c.subscription.capacity
  /-- The window stays open until a `close` or the last handle goes. -/
  ended : c.ended = none ↔ c.held = true ∧ c.subscription.closed = false
  independent : ∀ events' s', Feed.initial.run events' = some s' →
    events'.filter (·.concerns i) = events.filter (·.concerns i) →
      (s'.clients i).map Client.toHandle = some c.toHandle

theorem Client.Inv.gaps {published : List (Block F)} {n : ℕ} {listed : Prop} {c : Client F}
    (hc : c.Inv published n listed) (hlt : published.length < 2 ^ 64) :
    ∃ segments, GapAccounting c.pushed c segments := by
  obtain ⟨gap, hgap, segments, hpushed, hdelivered⟩ := hc.queue.accounts
  have hlen : c.pushed.length < 2 ^ 64 := by
    rw [hc.segment, List.length_drop, List.length_take]
    omega
  have hmem : ∀ g ∈ segments, ∀ b ∈ g.elements, b ∈ c.pushed := fun g hg b hb => by
    rw [hpushed]
    exact List.mem_append_left _ (List.mem_flatMap.mpr ⟨g, hg, hb⟩)
  have hshort : ∀ g ∈ segments, g.1.length < 2 ^ 64 := fun g hg => by
    have hsum : g.elements.length ≤ (segments.flatMap DropOldest.Segment.elements).length := by
      rw [List.length_flatMap]
      exact List.single_le_sum (by simp) _ (List.mem_map_of_mem hg)
    rw [hpushed, List.length_append] at hlen
    rw [DropOldest.Segment.elements, List.length_append] at hsum
    omega
  refine ⟨segments, hdelivered, ⟨gap, hgap, hpushed⟩, fun hb => ?_, fun hwf polls hp => ?_⟩
  · have hzero : gap = [] := by
      rw [← List.length_eq_zero_iff, hgap]
      exact hc.queue.lagged_eq_zero hc.capacity_pos hb
    rw [hpushed, hb, hzero, List.append_nil, List.append_nil]
  · exact pumpLoop_segments (fun g hg => ⟨hshort g hg, hwf g.2 (hmem g hg g.2 (by
      simp [DropOldest.Segment.elements]))⟩) (hp.trans hdelivered)

theorem Client.Inv.subsequence {published : List (Block F)} {n : ℕ} {listed : Prop} {c : Client F}
    (hc : c.Inv published n listed) : (c.delivered.map Delivery.value).Sublist c.pushed := by
  obtain ⟨_, -, hacc⟩ := hc.queue.accounts
  exact hacc.sublist

theorem Client.Inv.counted {published : List (Block F)} {n : ℕ} {listed : Prop} {c : Client F}
    (hc : c.Inv published n listed) (hb : c.subscription.buffer = []) :
    c.pushed.length = (c.delivered.map fun d => d.lagged + 1).sum := by
  rw [hc.queue.accounts_left, hc.queue.lagged_eq_zero hc.capacity_pos hb, hb]
  rfl

/-- In every run each subscription is handed, in order, blocks of its window; each item counts the
gap before it, a drained subscription has accounted for its whole window, and the pump announces
each gap right before the block after it. -/
theorem live_feed_gap_accounting {events : List (FeedEvent F)} {s : Feed F}
    (hpos : ∀ i capacity, .subscribe i capacity ∈ events → 1 ≤ capacity)
    (hrun : Feed.initial.run events = some s) {i : ℕ} {c : Client F} (hc : s.clients i = some c) :
    LiveFeed events s i c := by
  have hs : s.Inv := Feed.inv_initial.run hpos hrun
  have hci := hs.client i c hc
  have hwindow : s.window i c = c.pushed := hci.segment.symm
  exact {
    gaps := hwindow ▸ hci.gaps hs.length_lt
    subsequence := hwindow ▸ hci.subsequence
    counted := fun hb => hwindow ▸ hci.counted hb
    bounded := hci.queue.length_le
    ended := hci.ended_none_iff
    independent := fun events' s' hrun' heq => by
      rw [Feed.handle_eq_of_filter_eq hrun hrun' heq, hc, Option.map_some] }

def sampleUpdate (index : UInt64) : Block Numeral :=
  ⟨index, ascii "t", sampleEvent, ascii "p", ascii "h"⟩

def sampleFeed : List (FeedEvent Numeral) :=
  [.subscribe 0 1, .subscribe 1 3, .publish (sampleUpdate 1), .visit 0, .visit 1, .unlock,
    .publish (sampleUpdate 2), .visit 0, .next 0, .visit 1, .unlock, .closeAll, .visit 0, .visit 1,
    .unlock, .next 1]

theorem live_feed_gap_accounting_sample : ∃ s c, Feed.initial.run sampleFeed = some s ∧
    s.clients 0 = some c ∧ c.delivered = [⟨sampleUpdate 2, 1⟩] ∧ c.ended = some 2 ∧
      LiveFeed sampleFeed s 0 c :=
  ⟨_, _, rfl, rfl, rfl, rfl, live_feed_gap_accounting (by simp [sampleFeed]; omega) rfl rfl⟩

end Ledger

import Ledger.Backend.Activity
import Ledger.Core.LiveFeed
import Ledger.System.Marks

/-! The frames for the browsers: what the block feed makes of a message of storage-core, and the
hub with one bounded queue for each socket of `/ws/blocks`. -/
namespace Ledger.Backend
open Text Json
variable {F : Type}

/-- What the hub broadcasts: `{"type": "block", ...}` and `{"type": "lagged", ...}`. -/
inductive HubFrame (F : Type)
  | block (payload : Members F) (device : Json F)
  | lagged (dropped : ℤ)

namespace HubFrame

def mark : HubFrame F → Mark (Members F)
  | block payload _ => .element payload
  | lagged dropped => .gap dropped

def IsNotice (frame : HubFrame F) : Prop :=
  ∃ dropped, frame = lagged dropped

def dropped : HubFrame F → ℤ
  | block _ _ => 0
  | lagged dropped => dropped

def index? : HubFrame F → Option ℤ
  | block payload _ =>
    match getMember payload "index" with
    | .number n => some n
    | _ => none
  | lagged _ => none

theorem mark_of_isNotice {frames : List (HubFrame F)} (h : ∀ frame ∈ frames, frame.IsNotice) :
    ∀ m ∈ frames.map mark, ∃ n, m = .gap n := by
  intro m hm
  obtain ⟨frame, hframe, rfl⟩ := List.mem_map.mp hm
  obtain ⟨n, rfl⟩ := h frame hframe
  exact ⟨n, rfl⟩

theorem missing_mark (frame : HubFrame F) : frame.mark.missing = frame.dropped := by
  cases frame <;> rfl

theorem block_of_index? {f : HubFrame F} {i : ℤ} (h : f.index? = some i) :
    ∃ payload device, f = .block payload device := by
  cases f with
  | block payload device => exact ⟨payload, device, rfl⟩
  | lagged dropped => cases h

end HubFrame

def queueCapacity : ℕ :=
  64

/-- The `Subscription` of `hub.py`. -/
structure HubSubscription (F : Type) where
  queue : List (HubFrame F)
  dropped : ℕ

def HubSubscription.put (s : HubSubscription F) (frame : HubFrame F) : HubSubscription F :=
  if s.queue.length < queueCapacity then { s with queue := s.queue ++ [frame] }
  else ⟨s.queue.tail ++ [frame], s.dropped + 1⟩

/-- The subscription of an open socket, and what has been sent on the socket. -/
structure Browser (F : Type) where
  subscription : HubSubscription F
  received : List (HubFrame F)

namespace Browser

def fresh : Browser F :=
  ⟨⟨[], 0⟩, []⟩

def put (b : Browser F) (frame : HubFrame F) : Browser F :=
  { b with subscription := b.subscription.put frame }

/-- `websocket.send_json(await subscription.get())`; `none` while it waits. -/
def send (b : Browser F) : Option (Browser F) :=
  match b.subscription.queue with
  | [] => none
  | frame :: queue => some ⟨{ b.subscription with queue }, b.received ++ [frame]⟩

def frames (b : Browser F) : List (HubFrame F) :=
  b.received ++ b.subscription.queue

theorem frames_send {b b' : Browser F} (h : b.send = some b') : b'.frames = b.frames := by
  unfold send at h
  split at h
  · cases h
  · rename_i frame queue hqueue
    rw [← Option.some.inj h, frames, frames, hqueue, List.append_assoc]
    rfl

theorem settled_put {b : Browser F} {frame : HubFrame F} {xs : List (Members F)} {q r : ℕ}
    (h : Settled xs (b.frames.map HubFrame.mark) q) (hframe : Follows xs q [frame.mark] r)
    (hroom : b.subscription.queue.length < queueCapacity ∨ ∀ f ∈ b.received, f.IsNotice) :
    Settled xs ((b.put frame).frames.map HubFrame.mark) r := by
  by_cases hlt : b.subscription.queue.length < queueCapacity
  · have hput : (b.put frame).frames = b.frames ++ [frame] := by
      simp [put, HubSubscription.put, hlt, frames]
    rw [hput, List.map_append]
    exact h.append hframe
  · have hput : (b.put frame).frames = b.received ++ b.subscription.queue.tail ++ [frame] := by
      simp [put, HubSubscription.put, hlt, frames]
    have hreceived := HubFrame.mark_of_isNotice (hroom.resolve_left hlt)
    rw [hput, List.map_append]
    apply Settled.append _ hframe
    rw [List.map_append]
    cases hqueue : b.subscription.queue with
    | nil =>
      rw [hqueue] at hlt
      exact absurd (Nat.zero_lt_succ 63) hlt
    | cons oldest queue =>
      rw [frames, hqueue, List.map_append, List.map_cons] at h
      exact h.erase hreceived

end Browser

variable [NumberFloat F]

/-- `json.loads`, on what storage-core has dumped. -/
def loads (message : Bytes) : Option (Json F) :=
  (parse message).toOption

/-- `RegistryEnricher.enrich`, where `device` looks an actor up; `none` is an `AttributeError`. -/
def enrich (device : Bytes → Json F) (block : Members F) : Option (HubFrame F) :=
  match (block.lookup (ascii "event")).getD (.object []) with
  | .object event =>
    some (.block block ((nonEmptyString (getMember event "actor")).elim .null device))
  | _ => none

def isLagNotice (payload : Members F) : Bool :=
  match getMember payload "type" with
  | .string kind => kind = ascii "lagged"
  | _ => false

/-- A `bool` is an `int`. -/
def droppedOf (payload : Members F) : ℤ :=
  match getMember payload "dropped" with
  | .number n => n
  | .boolean true => 1
  | _ => 0

/-- What `_dispatch` and the listeners make of a message. -/
inductive Dispatched (F : Type)
  | ignored
  | broadcast (frame : HubFrame F)
  | raised

/-- `_dispatch`, with `_on_block` and `_on_lagged` for its listeners. -/
def dispatch (device : Bytes → Json F) (message : Bytes) : Dispatched F :=
  match loads message with
  | some (.object payload) =>
    if isLagNotice payload then .broadcast (.lagged (droppedOf payload))
    else (enrich device payload).elim .raised .broadcast
  | _ => .ignored

theorem lookup_members {b : Block F} {k : String} {v : Json F}
    (h : (ascii k, v) ∈ b.members) : b.members.lookup (ascii k) = some v :=
  b.members_sorted.lookup_of_mem h

theorem isLagNotice_members (b : Block F) : isLagNotice b.members = false := by
  have hkeys : ascii "type" ∉ b.members.map Prod.fst := by
    simp only [Block.members, List.map_cons, List.map_nil]
    decide
  have hnone : b.members.lookup (ascii "type") = none :=
    List.lookup_eq_none_iff.mpr fun m hm => by
      rw [bne_iff_ne]
      intro heq
      exact hkeys (heq ▸ List.mem_map_of_mem hm)
  unfold isLagNotice getMember
  rw [hnone]
  rfl

def registered (device : Bytes → Json F) (b : Block F) : Json F :=
  (nonEmptyString (getMember b.event.members "actor")).elim .null device

theorem enrich_members (device : Bytes → Json F) (b : Block F) :
    enrich device b.members = some (.block b.members (registered device b)) := by
  have hevent : b.members.lookup (ascii "event") = some b.event.toJson :=
    lookup_members (by simp [Block.members])
  unfold enrich
  rw [hevent, Option.getD_some, EventPayload.toJson_eq]
  rfl

theorem index?_block_members (b : Block F) (device : Json F) :
    (HubFrame.block b.members device).index? = some (b.index.toNat : ℤ) := by
  have hindex : b.members.lookup (ascii "index") = some (.number (.ofUInt64 b.index)) :=
    lookup_members (by simp [Block.members])
  simp [HubFrame.index?, getMember, hindex, JsonInt.ofUInt64]

def pumpItem (item : Item F) : List Bytes :=
  (pumpLoop [(item, true)]).1

/-- What storage-core sends for a mark. -/
def frameText : Mark (Block F) → Bytes
  | .element b => text b.toJson
  | .gap n => lagText n.toNat

theorem pumpItem_eq {item : Item F} (hwf : item.value.WellFormed) (hlt : item.lagged < 2 ^ 64) :
    pumpItem item = item.marks.map frameText := by
  unfold pumpItem Delivery.marks
  rw [pumpLoop, lagFrame_eq hlt, dump_eq_text hwf.toJson_valid]
  split_ifs with hpos hzero
  · omega
  · rfl
  · rfl
  · omega

section Messages
variable [LawfulNumberFloat F]

theorem loads_text {v : Json F} (hv : v.Valid) : loads (text v) = some v := by
  rw [loads, parse_text hv]
  rfl

theorem dispatch_block (device : Bytes → Json F) {b : Block F} (hwf : b.WellFormed) :
    dispatch device (text b.toJson) = .broadcast (.block b.members (registered device b)) := by
  unfold dispatch
  rw [loads_text hwf.toJson_valid, Block.toJson_eq]
  dsimp only
  rw [isLagNotice_members, if_neg Bool.false_ne_true, enrich_members]
  rfl

theorem dispatch_lagText (device : Bytes → Json F) {n : ℕ} (hn : n < 2 ^ 64) :
    dispatch device (lagText n) = .broadcast (.lagged n) := by
  have hlag : isLagNotice (lagMembers F n) = true := by
    have hne : (ascii "type" == ascii "dropped") = false := by decide
    simp [isLagNotice, getMember, lagMembers, List.lookup_cons, hne]
  have hdropped : droppedOf (lagMembers F n) = n := by
    have hcast : (UInt64.ofNat n).toNat = n := UInt64.toNat_ofNat_of_lt' hn
    simp [droppedOf, getMember, lagMembers, JsonInt.ofUInt64, hcast]
  unfold dispatch
  rw [← text_lagMembers (F := F) hn, loads_text (lagMembers_valid n)]
  dsimp only
  rw [if_pos hlag, hdropped]

/-- The hub broadcasts what storage-core said. -/
theorem dispatch_frameText (device : Bytes → Json F) {published : List (Block F)} {p q : ℕ}
    {m : Mark (Block F)} {marks : List (Mark (Block F))}
    (hwf : ∀ b ∈ published, b.WellFormed) (hq : q < 2 ^ 64)
    (h : Follows published p (m :: marks) q) :
    ∃ frame : HubFrame F, dispatch device (frameText m) = .broadcast frame ∧
      frame.mark = m.map Block.members := by
  cases h with
  | @element _ _ b _ hb _ =>
    exact ⟨_, dispatch_block device (hwf b (List.mem_of_getElem? hb)), rfl⟩
  | gap n h =>
    have hle := h.le
    have hn : n < 2 ^ 64 := by omega
    exact ⟨_, dispatch_lagText device hn, rfl⟩

end Messages

end Ledger.Backend

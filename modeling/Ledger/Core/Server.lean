import Ledger.Core.Writer
import Ledger.Json.ErrorText

/-! The HTTP handlers: `POST /events` with its error path, and the ranges of `GET /blocks`. -/
namespace Ledger
open Text Json

/-- An error meant for the client. -/
structure ApiError where
  status : ℕ
  message : Bytes
  deriving DecidableEq

/-- What a handler throws: an `ApiError`, or what the writer set on the promise. -/
inductive Thrown
  | api (e : ApiError)
  | write (e : WriteError)

/-- What ends the process: an exception that nothing catches, or a stack overflow. -/
inductive Fatal
  | uncaught (e : Exception)
  | stackOverflow

/-- How deeply metadata may nest before the library's recursive functions overflow the stack: in
the copy that `parse_event` makes, and in the copies and dumps of the block with it. -/
structure StackLimits where
  copy : ℕ
  block : ℕ

structure Response where
  status : ℕ
  body : Bytes
  deriving DecidableEq

section Handlers
variable (F : Type) [NumberFloat F]

def errorBody (message : Bytes) : Json F :=
  .object [(ascii "error", .string message)]

/-- `to_error_response`. It throws what `dump()` throws. -/
def toErrorResponse : Thrown → Except Exception Response
  | .api e => do return ⟨e.status, ← dump (errorBody F e.message)⟩
  | .write _ => do return ⟨500, ← dump (errorBody F (ascii "internal error"))⟩

/-- The routing part of `process_request`: what a handler throws goes to the installed exception
handler, and what that throws ends the process. -/
def processRequest (routed : Except Fatal (Except Thrown Response)) : Except Fatal Response :=
  match routed with
  | .error fatal => .error fatal
  | .ok (.ok res) => .ok res
  | .ok (.error e) => (toErrorResponse F e).mapError .uncaught

variable {F}

/-- The parser keeps its own stack, but `get_to` copies the metadata by recursion. -/
def parseEvent (limits : StackLimits) (body : Bytes) :
    Except Fatal (Except ApiError (EventPayload F)) :=
  match parseDocument body >>= EventPayload.fromJson with
  | .ok event =>
    if limits.copy < nesting event.metadata.1 then .error .stackOverflow else .ok (.ok event)
  | .error e => .ok (.error ⟨400, ascii "invalid event payload: " ++ e.what⟩)

/-- What a client has to get right before its event may take a place in the queue. -/
def acceptEvent (limits : StackLimits) (body : Bytes) :
    Except Fatal (Except ApiError (EventPayload F)) :=
  match parseEvent limits body with
  | .ok (.ok event) =>
    if event.eventType.1 = [] then .ok (.error ⟨400, ascii "event_type must not be empty"⟩)
    else .ok (.ok event)
  | other => other

/-- The end of a push: refused, or the promise fulfilled, with a block of the event. -/
inductive Pushed (event : EventPayload F)
  | refused
  | replied (reply : Except WriteError {b : Block F // b.event = event})

/-- The queue and the writer behind it, if there is one. -/
abbrev WriteQueueRef (F : Type) [NumberFloat F] := Option (∀ event : EventPayload F, Pushed event)

/-- The handler of `POST /events`. -/
def installEvents (limits : StackLimits) (writeQueue : WriteQueueRef F) (body : Bytes) :
    Except Fatal (Except Thrown Response) :=
  match acceptEvent limits body with
  | .error fatal => .error fatal
  | .ok (.error e) => .ok (.error (.api e))
  | .ok (.ok event) =>
    match writeQueue with
    | none => .ok (.error (.api ⟨500, ascii "writer unavailable"⟩))
    | some push =>
      match push event with
      | .refused => .ok (.error (.api ⟨500, ascii "server is shutting down"⟩))
      | .replied reply =>
        -- the writer dumps the block to hash it, before anything that can fail
        if limits.block < nesting event.metadata.1 then .error .stackOverflow
        else
          match reply with
          | .error e => .ok (.error (.write e))
          | .ok created =>
            match dump created.1.toJson with
            | .ok t => .ok (.ok ⟨201, t⟩)
            | .error e => .ok (.error (.write (.json e)))

theorem errorBody_valid {message : Bytes} (h : Utf8.WellFormed message) :
    (errorBody F message).Valid := by
  rw [errorBody, Valid, ValidMembers, ValidMembers, Valid]
  exact ⟨List.pairwise_singleton .., ⟨by decide, h⟩, trivial⟩

theorem toErrorResponse_api_ok {e : ApiError} (h : Utf8.WellFormed e.message) :
    toErrorResponse F (.api e) = .ok ⟨e.status, text (errorBody F e.message)⟩ := by
  rw [toErrorResponse, dump_eq_text (errorBody_valid h)]
  rfl

theorem toErrorResponse_write (e : WriteError) :
    toErrorResponse F (.write e) = .ok ⟨500, text (errorBody F (ascii "internal error"))⟩ := by
  rw [toErrorResponse, dump_eq_text (errorBody_valid (by decide))]
  rfl

/-- A message the strict serializer refuses leaves the exception handler as an exception. -/
theorem toErrorResponse_api_error {e : ApiError} (h : ¬Utf8.WellFormed e.message) :
    ∃ x, toErrorResponse F (.api e) = .error x := by
  rw [toErrorResponse]
  cases hd : dump (errorBody F e.message) with
  | error x => exact ⟨x, rfl⟩
  | ok t =>
    obtain ⟨u, hu⟩ := dump_member_ok hd (m := (ascii "error", .string e.message)) (by simp)
    exact absurd (wellFormed_of_dump_string hu) h

theorem ValidJson.at_error {j : ValidJson F} {key : String} {e : Exception} (hk : IsAscii key)
    (h : j.at key = .error e) : Utf8.WellFormed e.what := by
  unfold ValidJson.at at h
  split at h
  · cases h
  · rename_i e' he
    cases h
    exact atKey_error_wellFormed hk he

theorem ValidJson.getString_error {j : ValidJson F} {e : Exception}
    (h : j.getString = .error e) : Utf8.WellFormed e.what := by
  unfold ValidJson.getString at h
  split at h
  · cases h
  · rename_i e' he
    cases h
    exact getString_error_wellFormed he

theorem bind_error {ε α β : Type} {x : Except ε α} {f : α → Except ε β} {e : ε}
    (h : x >>= f = .error e) : x = .error e ∨ ∃ a, x = .ok a ∧ f a = .error e := by
  cases x with
  | error e' => cases h; exact Or.inl rfl
  | ok a => exact Or.inr ⟨a, rfl, h⟩

theorem EventPayload.fromJson_error {j : ValidJson F} {e : Exception}
    (h : EventPayload.fromJson j = .error e) : Utf8.WellFormed e.what := by
  have string {α : Type} {key : String} {f : ValidString → Except Exception α}
      (hk : IsAscii key) (h : (do f (← (← ValidJson.at j key).getString)) = .error e)
      (hf : ∀ s, f s = .error e → Utf8.WellFormed e.what) : Utf8.WellFormed e.what := by
    rcases bind_error h with h | ⟨v, -, h⟩
    · exact ValidJson.at_error hk h
    rcases bind_error h with h | ⟨s, -, h⟩
    · exact ValidJson.getString_error h
    · exact hf s h
  have htype : IsAscii "event_type" := by decide
  refine string htype h fun eventType h => ?_
  refine string (by decide) h fun locationId h => ?_
  refine string (by decide) h fun actor h => ?_
  refine string (by decide) h fun description h => ?_
  rcases bind_error h with h | ⟨metadata, -, h⟩
  · exact ValidJson.at_error (by decide) h
  · cases h

/-- The text `parse_event` sends back is ill-formed only where a parse error quotes bytes that
are. -/
theorem decode_error_wellFormed_iff {body : Bytes} {x : Exception}
    (h : parseDocument body >>= EventPayload.fromJson (F := F) = .error x) :
    Utf8.WellFormed (ascii "invalid event payload: " ++ x.what) ↔
      ∀ y, parse (F := F) body = .error y → ∀ n ∈ y.byte, Utf8.WellFormed (body.take n) := by
  have hpre : Utf8.WellFormed (ascii "invalid event payload: ") := by decide
  rw [hpre.append_iff]
  cases hp : parse (F := F) body with
  | error y =>
    rw [parseDocument_error hp] at h
    cases h
    simp only [parse_error_wellFormed_iff hp, Except.error.injEq, forall_eq']
  | ok v =>
    rw [parseDocument_ok hp] at h
    exact iff_of_true (EventPayload.fromJson_error h) fun y hy => by cases hy

/-- Handling a body ends in a response, and in a 400 with a JSON error unless the event went on
to the queue. -/
def Answered (limits : StackLimits) (writeQueue : WriteQueueRef F) (body : Bytes) : Prop :=
  ∃ res, processRequest F (installEvents limits writeQueue body) = .ok res ∧
    ((∃ event : EventPayload F, acceptEvent limits body = .ok (.ok event)) ∨
      res.status = 400 ∧ ∃ message, parse res.body = .ok (errorBody F message))

variable (F) in
/-- Where `json::parse` gives up on a body, the bytes it has read by then are well-formed. -/
def ReadsWellFormed (body : Bytes) : Prop :=
  ∀ e, parse (F := F) body = .error e → ∀ n ∈ e.byte, Utf8.WellFormed (body.take n)

/-- The stack is deep enough for what becomes of an event: the copy, and the block if the queue
takes the event. -/
structure Fits (limits : StackLimits) (writeQueue : WriteQueueRef F) (event : EventPayload F) :
    Prop where
  copy : nesting event.metadata.1 ≤ limits.copy
  block : event.eventType.1 ≠ [] → (∃ push ∈ writeQueue, push event ≠ .refused) →
    nesting event.metadata.1 ≤ limits.block

/-- The event in a body, if it holds one, does not overflow the stack. -/
def Shallow (limits : StackLimits) (writeQueue : WriteQueueRef F) (body : Bytes) : Prop :=
  ∀ event, parseDocument body >>= EventPayload.fromJson = .ok event → Fits limits writeQueue event

section Handling
variable {limits : StackLimits} {writeQueue : WriteQueueRef F} {body : Bytes}

theorem processRequest_api {status : ℕ} {message : Bytes} (h : Utf8.WellFormed message) :
    processRequest F (.ok (.error (.api ⟨status, message⟩))) =
      .ok ⟨status, text (errorBody F message)⟩ := by
  rw [processRequest, toErrorResponse_api_ok h]
  rfl

theorem processRequest_write (e : WriteError) : ∃ res,
    processRequest F (.ok (.error (.write e))) = .ok res := by
  rw [processRequest, toErrorResponse_write]
  exact ⟨_, rfl⟩

theorem answered_of_decode_error [LawfulNumberFloat F] {x : Exception}
    (h : parseDocument body >>= EventPayload.fromJson (F := F) = .error x) :
    Answered limits writeQueue body ↔ ReadsWellFormed F body := by
  have haccept : acceptEvent (F := F) limits body =
      .ok (.error ⟨400, ascii "invalid event payload: " ++ x.what⟩) := by
    rw [acceptEvent, parseEvent, h]
  have hinstall : installEvents limits writeQueue body =
      .ok (.error (.api ⟨400, ascii "invalid event payload: " ++ x.what⟩)) := by
    rw [installEvents, haccept]
  unfold Answered ReadsWellFormed
  rw [hinstall, ← decode_error_wellFormed_iff h]
  constructor
  · rintro ⟨res, hres, -⟩
    by_contra hill
    obtain ⟨y, hy⟩ : ∃ y, toErrorResponse F (.api ⟨400, _⟩) = .error y :=
      toErrorResponse_api_error hill
    rw [processRequest, hy] at hres
    cases hres
  · intro hwf
    exact ⟨_, processRequest_api hwf, Or.inr ⟨rfl, _, parse_text (errorBody_valid hwf)⟩⟩

/-- An accepted event is answered, whatever becomes of its block, while the stack holds. -/
theorem processRequest_of_accepted {event : EventPayload F}
    (h : acceptEvent limits body = .ok (.ok event)) :
    (∃ res, processRequest F (installEvents limits writeQueue body) = .ok res) ↔
      ((∃ push ∈ writeQueue, push event ≠ .refused) → nesting event.metadata.1 ≤ limits.block) := by
  rw [installEvents, h]
  rcases writeQueue with _ | push
  · have hmessage : IsAscii "writer unavailable" := by decide
    simp [processRequest_api (F := F) hmessage.wellFormed]
  dsimp only
  rcases hpush : push event with _ | reply
  · have hmessage : IsAscii "server is shutting down" := by decide
    simp [processRequest_api (F := F) hmessage.wellFormed, hpush]
  have htaken : (∃ push' ∈ some push, push' event ≠ .refused) := ⟨push, rfl, by simp [hpush]⟩
  rw [forall_prop_of_true htaken]
  dsimp only
  split_ifs with hdeep
  · simp [processRequest, hdeep]
  refine iff_of_true ?_ (not_lt.mp hdeep)
  rcases reply with e | created
  · exact processRequest_write e
  dsimp only
  cases dump created.1.toJson with
  | ok t => exact ⟨_, rfl⟩
  | error e => exact processRequest_write (.json e)

theorem answered_of_decode_ok [LawfulNumberFloat F] {event : EventPayload F}
    (h : parseDocument body >>= EventPayload.fromJson = .ok event) :
    Answered limits writeQueue body ↔ Fits limits writeQueue event := by
  by_cases hcopy : limits.copy < nesting event.metadata.1
  · have hinstall : installEvents limits writeQueue body = .error .stackOverflow := by
      rw [installEvents, acceptEvent, parseEvent, h]
      simp only [if_pos hcopy]
    refine iff_of_false ?_ fun hfits => hcopy.not_ge hfits.copy
    rintro ⟨res, hres, -⟩
    rw [hinstall] at hres
    cases hres
  have hparse : parseEvent limits body = .ok (.ok event) := by
    rw [parseEvent, h]
    simp only [if_neg hcopy]
  by_cases hempty : event.eventType.1 = []
  · have hinstall : installEvents limits writeQueue body =
        .ok (.error (.api ⟨400, ascii "event_type must not be empty"⟩)) := by
      rw [installEvents, acceptEvent, hparse]
      simp only [if_pos hempty]
    have hmessage : Utf8.WellFormed (ascii "event_type must not be empty") := by decide
    refine iff_of_true ?_ ⟨not_lt.mp hcopy, fun hne => absurd hempty hne⟩
    rw [Answered, hinstall]
    exact ⟨_, processRequest_api hmessage, Or.inr ⟨rfl, _, parse_text (errorBody_valid hmessage)⟩⟩
  have haccept : acceptEvent limits body = .ok (.ok event) := by
    rw [acceptEvent, hparse]
    simp only [if_neg hempty]
  constructor
  · rintro ⟨res, hres, -⟩
    exact ⟨not_lt.mp hcopy, fun _ => (processRequest_of_accepted haccept).mp ⟨res, hres⟩⟩
  · intro hfits
    obtain ⟨res, hres⟩ := (processRequest_of_accepted haccept).mpr (hfits.block hempty)
    exact ⟨res, hres, Or.inl ⟨event, haccept⟩⟩

end Handling

/-- A body is answered exactly when the parser has no ill-formed bytes to quote, and its event does
not nest too deeply for the stack. -/
theorem body_answered_iff [LawfulNumberFloat F] (limits : StackLimits)
    (writeQueue : WriteQueueRef F) (body : Bytes) :
    Answered limits writeQueue body ↔
      ReadsWellFormed F body ∧ Shallow limits writeQueue body := by
  cases hdecode : parseDocument body >>= EventPayload.fromJson (F := F) with
  | error x =>
    rw [answered_of_decode_error hdecode, iff_self_and]
    intro _ event hevent
    rw [hdecode] at hevent
    cases hevent
  | ok event =>
    rw [answered_of_decode_ok hdecode]
    have hread : ReadsWellFormed F body := by
      intro e he
      rw [parseDocument_error he] at hdecode
      cases hdecode
    unfold Shallow
    simp only [hdecode, Except.ok.injEq, forall_eq', hread, true_and]

end Handlers

def stacked : ℕ → Json Numeral
  | 0 => .null
  | n + 1 => .array [stacked n]

theorem stacked_valid (n : ℕ) : (stacked n).Valid := by
  induction n with
  | zero => rw [stacked, Valid]; trivial
  | succ n ih =>
    rw [stacked, Valid, validElements_iff]
    simpa using ih

theorem nesting_stacked (n : ℕ) : nesting (stacked n) = n := by
  induction n with
  | zero => rw [stacked, nesting]
  | succ n ih => rw [stacked, nesting, elementsNesting, elementsNesting, ih, Nat.max_zero]

def stackedEvent (n : ℕ) : EventPayload Numeral :=
  { sampleEvent (F := Numeral) with metadata := ⟨stacked n, stacked_valid n⟩ }

def obligingWriter : WriteQueueRef Numeral :=
  some fun event => .replied (.ok ⟨makeBlock sampleSha256 sampleClock 1 event [], rfl⟩)

theorem shallow_stackedEvent_iff {limits : StackLimits} {n : ℕ} :
    Shallow limits obligingWriter (text (stackedEvent n).toJson) ↔
      n ≤ limits.copy ∧ n ≤ limits.block := by
  have hdecode : parseDocument (text (stackedEvent n).toJson) >>= EventPayload.fromJson =
      .ok (stackedEvent n) := by
    rw [parseDocument_ok (parse_text (stackedEvent n).toJson_valid)]
    exact EventPayload.fromJson_toJson _
  have hdeep : nesting (stackedEvent n).metadata.1 = n := nesting_stacked n
  have htype : (stackedEvent n).eventType.1 ≠ [] :=
    fun h => absurd (congrArg List.length h) (by decide : (ascii "DOOR").length ≠ 0)
  have htaken : ∃ push ∈ obligingWriter, push (stackedEvent n) ≠ .refused :=
    ⟨_, rfl, by simp⟩
  unfold Shallow
  simp only [hdecode, Except.ok.injEq, forall_eq']
  constructor
  · rintro ⟨hcopy, hblock⟩
    rw [hdeep] at hcopy hblock
    exact ⟨hcopy, hblock htype htaken⟩
  · rintro ⟨hcopy, hblock⟩
    constructor
    · rwa [hdeep]
    · rw [hdeep]
      exact fun _ _ => hblock

theorem readsWellFormed_text {v : Json Numeral} (h : v.Valid) :
    ReadsWellFormed Numeral (text v) := by
  intro e he
  rw [parse_text h] at he
  cases he

theorem body_answered_iff_sample :
    Answered ⟨1000, 1000⟩ obligingWriter (text (stackedEvent 3).toJson) ∧
      ¬Answered ⟨1000, 1000⟩ obligingWriter (text (stackedEvent 2000).toJson) := by
  constructor
  · apply (body_answered_iff _ _ _).mpr
    exact ⟨readsWellFormed_text (stackedEvent 3).toJson_valid,
      shallow_stackedEvent_iff.mpr ⟨by decide, by decide⟩⟩
  · rw [body_answered_iff]
    intro h
    have hcopy : 2000 ≤ 1000 := (shallow_stackedEvent_iff.mp h.2).1
    omega

theorem parse_lone_byte : ∃ e, parse (F := Numeral) [0xFF] = .error e ∧ e.byte = some 1 := by
  have hstep : nextStep (F := Numeral) ⟨[], .value⟩ ⟨[0xFF], {}⟩ =
      .fail (.syntaxError "value" none) := rfl
  exact ⟨_, run_fail hstep, rfl⟩

/-- One byte that is not UTF-8 makes the exception handler throw, however deep the stack. -/
theorem lone_byte_ends_process :
    ¬ ∃ limits : StackLimits, ∀ body, Answered (F := Numeral) limits none body := by
  rintro ⟨limits, h⟩
  obtain ⟨e, he, hbyte⟩ := parse_lone_byte
  have hill : ¬ReadsWellFormed Numeral [0xFF] := fun hr =>
    absurd (hr e he 1 (by rw [hbyte]; rfl)) (by decide)
  have hdecode : parseDocument [0xFF] >>= EventPayload.fromJson (F := Numeral) = .error e := by
    rw [parseDocument_error he]
    rfl
  exact hill ((answered_of_decode_error hdecode).mp (h [0xFF]))

/-- A query parameter that is a block index. -/
def parseIndex (name : String) (value : Option Bytes) (fallback : ℕ) : Except ApiError ℕ :=
  match value with
  | none => .ok fallback
  | some value =>
    if value = [] ∨ value.any (fun c => !isDigit c) then
      .error ⟨400, ascii name ++ ascii " must be a non-negative integer"⟩
    else if ofDecimal value < 2 ^ 64 then .ok (ofDecimal value)
    else .error ⟨400, ascii name ++ ascii " is out of range"⟩

structure BlocksPage (F : Type) [NumberFloat F] where
  blocks : List (Block F)
  chainLength : ℕ

/-- `json{{"blocks", slice}, {"chain_length", chain_length}}`. -/
def BlocksPage.toJson {F : Type} [NumberFloat F] (page : BlocksPage F) : Json F :=
  .object [(ascii "blocks", .array (page.blocks.map Block.toJson)),
    (ascii "chain_length", .number (.ofUInt64 (UInt64.ofNat page.chainLength)))]

theorem BlocksPage.nesting_toJson_le_iff {F : Type} [NumberFloat F] {page : BlocksPage F}
    (hne : page.blocks ≠ []) {n : ℕ} :
    page.toJson.nesting ≤ n ↔ ∀ b ∈ page.blocks, nesting b.event.metadata.1 + 4 ≤ n := by
  have hpage : page.toJson.nesting = elementsNesting (page.blocks.map Block.toJson) + 2 := by
    simp [toJson, nesting, membersNesting]
  obtain ⟨b, hb⟩ := List.exists_mem_of_ne_nil _ hne
  rw [hpage]
  constructor
  · intro h b hb
    have hlt : elementsNesting (page.blocks.map Block.toJson) < n - 1 := by omega
    have hle := (elementsNesting_lt_iff (by omega)).mp hlt _ (List.mem_map_of_mem hb)
    rw [Block.nesting_toJson] at hle
    omega
  · intro h
    have hpos := h b hb
    have hlt : elementsNesting (page.blocks.map Block.toJson) < n - 1 := by
      rw [elementsNesting_lt_iff (by omega), List.forall_mem_map]
      intro b hb
      have hle := h b hb
      rw [Block.nesting_toJson]
      omega
    omega

/-- The handler of `GET /blocks`, up to the serialization of its answer. -/
def installBlocks {F : Type} [NumberFloat F] (chain : Chain F) (first last : Option Bytes) :
    Except ApiError (BlocksPage F) := do
  let lower ← parseIndex "from" first 0
  let toRequested ← parseIndex "to" last (2 ^ 64 - 1)
  let upper := min toRequested (chain.size - 1)
  if upper < lower then
    throw ⟨400, ascii "invalid range: from=" ++ decimal lower ++ ascii " exceeds to=" ++
      decimal upper⟩
  return ⟨(chain.blocks.drop lower).take (upper + 1 - lower), chain.size⟩

theorem parseIndex_decimal (name : String) {n : ℕ} (h : n < 2 ^ 64) (fallback : ℕ) :
    parseIndex name (some (decimal n)) fallback = .ok n := by
  have hdigits : (decimal n).any (fun c => !isDigit c) = false := by
    rw [List.any_eq_false]
    intro c hc
    simp [isDigit_of_mem_decimal hc]
  rw [parseIndex, if_neg (by simp [decimal_ne_nil, hdigits]), ofDecimal_decimal, if_pos h]

theorem installBlocks_tail {F : Type} [NumberFloat F] {chain : Chain F} {n : ℕ}
    (hn : n < chain.size) (hsize : chain.size < 2 ^ 64) :
    installBlocks chain (some (decimal n)) none = .ok ⟨chain.blocks.drop n, chain.size⟩ := by
  have hmin : min (2 ^ 64 - 1) (chain.size - 1) = chain.size - 1 := by omega
  have hle : ¬chain.size - 1 < n := by omega
  have htake : (chain.blocks.drop n).take (chain.size - 1 + 1 - n) = chain.blocks.drop n := by
    refine List.take_of_length_le ?_
    rw [List.length_drop]
    change chain.size - n ≤ _
    omega
  rw [installBlocks, parseIndex_decimal "from" (by omega)]
  change (if min (2 ^ 64 - 1) (chain.size - 1) < n then _ else _ : Except _ _) = _
  rw [hmin, if_neg hle, htake]
  rfl

theorem installBlocks_past_end {F : Type} [NumberFloat F] {chain : Chain F} {n : ℕ}
    (hn : chain.size ≤ n) :
    ∃ e, installBlocks chain (some (decimal n)) none = .error e ∧ e.status = 400 := by
  have hpos : 0 < chain.size := List.length_pos_of_ne_nil chain.ne_nil
  have hdigits : (decimal n).any (fun c => !isDigit c) = false := by
    rw [List.any_eq_false]
    intro c hc
    simp [isDigit_of_mem_decimal hc]
  by_cases hlt : n < 2 ^ 64
  · have hmin : min (2 ^ 64 - 1) (chain.size - 1) < n := by omega
    rw [installBlocks, parseIndex_decimal "from" hlt]
    change ∃ e, (if min (2 ^ 64 - 1) (chain.size - 1) < n then _ else _ : Except _ _) = .error e ∧ _
    rw [if_pos hmin]
    exact ⟨_, rfl, rfl⟩
  · have hparse : parseIndex "from" (some (decimal n)) 0 =
        .error ⟨400, ascii "from" ++ ascii " is out of range"⟩ := by
      rw [parseIndex, if_neg (by simp [decimal_ne_nil, hdigits]), ofDecimal_decimal, if_neg hlt]
    rw [installBlocks, hparse]
    exact ⟨_, rfl, rfl⟩

end Ledger

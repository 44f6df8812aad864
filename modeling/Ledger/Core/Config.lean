import Ledger.Text.Strtol

/-! The configuration, read from the environment: two addresses, a path and a log level. -/
namespace Ledger
open Text

/-- `log::Level`. -/
inductive Level
  | error
  | warn
  | info
  | debug
  deriving DecidableEq

def tolower (c : UInt8) : UInt8 :=
  if 0x41 ≤ c ∧ c ≤ 0x5A then c + 0x20 else c

def levelFrom (s : Bytes) : Level :=
  let s := s.map tolower
  if s = ascii "error" then .error
  else if s = ascii "warn" ∨ s = ascii "warning" then .warn
  else if s = ascii "debug" ∨ s = ascii "trace" then .debug
  else .info

structure Config where
  bindHost : Bytes
  bindPort : ℤ
  wsHost : Bytes
  wsPort : ℤ
  ledgerPath : Bytes
  logLevel : Level
  deriving DecidableEq

/-- `std::invalid_argument`. -/
structure InvalidArgument where
  what : Bytes
  deriving DecidableEq

/-- `env_or`: an empty variable is as good as none. -/
def envOr (getenv : String → Option Bytes) (key fallback : String) : Bytes :=
  match getenv key with
  | none => ascii fallback
  | some v => if v = [] then ascii fallback else v

def rfind (c : UInt8) : Bytes → Option ℕ
  | [] => none
  | b :: t =>
    match rfind c t with
    | some i => some (i + 1)
    | none => if b = c then some 0 else none

/-- What `load_config` does for each of the two addresses. -/
def splitAddress (key : String) (addr : Bytes) : Except InvalidArgument (Bytes × ℤ) :=
  match rfind 0x3A addr with
  | none => .error ⟨ascii key ++ ascii " must be host:port, got: " ++ addr⟩
  | some colon =>
    match stoi (addr.drop (colon + 1)) with
    | .error _ => .error ⟨ascii key ++ ascii " port is not a number: " ++ addr⟩
    | .ok port => .ok (addr.take colon, port)

def loadConfig (getenv : String → Option Bytes) : Except InvalidArgument Config := do
  let (bindHost, bindPort) ← splitAddress "BIND_ADDR" (envOr getenv "BIND_ADDR" "0.0.0.0:8080")
  let (wsHost, wsPort) ← splitAddress "WS_BIND_ADDR" (envOr getenv "WS_BIND_ADDR" "0.0.0.0:8081")
  return {
    bindHost, bindPort, wsHost, wsPort
    ledgerPath := envOr getenv "LEDGER_PATH" "./data/ledger.log"
    logLevel := levelFrom (envOr getenv "LOG_LEVEL" "info") }

example : (loadConfig fun _ => none) =
    .ok ⟨ascii "0.0.0.0", 8080, ascii "0.0.0.0", 8081, ascii "./data/ledger.log", .info⟩ := by
  decide

def IsAddress (addr host : Bytes) (port : ℤ) : Prop :=
  ∃ digits, addr = host ++ 0x3A :: digits ∧ digits ≠ [] ∧ (∀ c ∈ digits, isDigit c = true) ∧
    port = ofDecimal digits ∧ ofDecimal digits ≤ 65535

/-- Behind the last colon stands a number that fits an `int`; it may follow blanks and a sign, and
anything may follow it. -/
def HasNumber (addr : Bytes) : Prop :=
  ∃ host behind n rest, addr = host ++ 0x3A :: behind ∧ 0x3A ∉ behind ∧
    NumberAtFront behind n rest ∧ -2 ^ 31 ≤ n ∧ n < 2 ^ 31

theorem rfind_eq_none_iff {c : UInt8} {t : Bytes} : rfind c t = none ↔ c ∉ t := by
  induction t with
  | nil => simp [rfind]
  | cons b t ih =>
    rw [rfind, List.mem_cons, not_or, ← ih]
    cases rfind c t with
    | some i => simp
    | none =>
      by_cases hb : b = c
      · simp [hb]
      · simp [hb, Ne.symm hb]

theorem rfind_append_cons {c : UInt8} (s : Bytes) {t : Bytes} (h : c ∉ t) :
    rfind c (s ++ c :: t) = some s.length := by
  induction s with
  | nil => simp [rfind, rfind_eq_none_iff.mpr h]
  | cons b s ih => rw [List.cons_append, rfind, ih, List.length_cons]

theorem exists_of_rfind {c : UInt8} {t : Bytes} {i : ℕ} (h : rfind c t = some i) :
    ∃ before after, t = before ++ c :: after ∧ c ∉ after := by
  induction t generalizing i with
  | nil => cases h
  | cons b t ih =>
    rw [rfind] at h
    cases ht : rfind c t with
    | some j =>
      obtain ⟨before, after, rfl, hafter⟩ := ih ht
      exact ⟨b :: before, after, rfl, hafter⟩
    | none =>
      rw [ht] at h
      dsimp only at h
      split_ifs at h with hb
      exact ⟨[], t, by rw [hb]; rfl, rfind_eq_none_iff.mp ht⟩

section Split
variable (key : String) {addr host : Bytes} {port : ℤ}

theorem splitAddress_append {behind : Bytes} (h : 0x3A ∉ behind) :
    splitAddress key (host ++ 0x3A :: behind) = match stoi behind with
      | .error _ =>
        .error ⟨ascii key ++ ascii " port is not a number: " ++ (host ++ 0x3A :: behind)⟩
      | .ok port => .ok (host, port) := by
  have hdrop : (host ++ 0x3A :: behind).drop (host.length + 1) = behind := by simp
  have htake : (host ++ 0x3A :: behind).take host.length = host := List.take_left
  rw [splitAddress, rfind_append_cons host h]
  dsimp only
  rw [hdrop, htake]

/-- Every address with a number is split, and nothing else is. -/
theorem splitAddress_ok_iff : (∃ r, splitAddress key addr = .ok r) ↔ HasNumber addr := by
  constructor
  · rintro ⟨⟨host, port⟩, h⟩
    cases hcolon : rfind 0x3A addr with
    | none =>
      rw [splitAddress, hcolon] at h
      cases h
    | some colon =>
      obtain ⟨host', behind, rfl, hbehind⟩ := exists_of_rfind hcolon
      rw [splitAddress_append key hbehind] at h
      cases hport : stoi behind with
      | error e =>
        rw [hport] at h
        cases h
      | ok n =>
        obtain ⟨⟨rest, hnumber⟩, hrange⟩ := stoi_eq_ok_iff.mp hport
        exact ⟨host', behind, n, rest, rfl, hbehind, hnumber, hrange⟩
  · rintro ⟨host, behind, n, rest, rfl, hbehind, hnumber, hrange⟩
    have hport : stoi behind = .ok n := stoi_eq_ok_iff.mpr ⟨⟨rest, hnumber⟩, hrange⟩
    rw [splitAddress_append key hbehind, hport]
    exact ⟨_, rfl⟩

theorem splitAddress_of_isAddress (h : IsAddress addr host port) :
    splitAddress key addr = .ok (host, port) := by
  obtain ⟨digits, rfl, hne, hdigits, rfl, hle⟩ := h
  have hcolon : 0x3A ∉ digits := fun hmem => absurd (hdigits _ hmem) (by decide)
  have hport : stoi digits = .ok (ofDecimal digits : ℤ) :=
    stoi_eq_ok_iff.mpr ⟨⟨[], numberAtFront_digits hne hdigits⟩, by omega, by omega⟩
  rw [splitAddress_append key hcolon, hport]

theorem IsAddress.last (h : IsAddress addr host port) : ∀ c ∈ addr.getLast?, isDigit c = true := by
  obtain ⟨digits, rfl, hne, hdigits, -, -⟩ := h
  intro c hc
  rw [List.getLast?_append, List.getLast?_cons_of_ne_nil hne,
    List.getLast?_eq_getLast_of_ne_nil hne, Option.some_or] at hc
  rw [← Option.some.inj hc]
  exact hdigits _ (List.getLast_mem hne)

theorem IsAddress.hasNumber (h : IsAddress addr host port) : HasNumber addr :=
  (splitAddress_ok_iff "BIND_ADDR").mp ⟨_, splitAddress_of_isAddress _ h⟩

end Split

/-- Exactly two addresses are accepted, and a configuration has their parts. -/
structure AcceptsAddresses (getenv : String → Option Bytes) (addr wsAddr : Bytes) : Prop where
  accepts : ∀ host port wsHost wsPort, IsAddress addr host port → IsAddress wsAddr wsHost wsPort →
    ∃ c, loadConfig getenv = .ok c ∧ c.bindHost = host ∧ c.bindPort = port ∧ c.wsHost = wsHost ∧
      c.wsPort = wsPort
  refuses : ¬((∃ host port, IsAddress addr host port) ∧ ∃ host port, IsAddress wsAddr host port) →
    ∃ e, loadConfig getenv = .error e

section Load
variable {getenv : String → Option Bytes} {addr wsAddr : Bytes}

theorem envOr_of_some {key : String} {v : Bytes} (h : getenv key = some v) (hne : v ≠ [])
    (fallback : String) : envOr getenv key fallback = v := by
  rw [envOr, h]
  exact if_neg hne

theorem loadConfig_eq (hbind : envOr getenv "BIND_ADDR" "0.0.0.0:8080" = addr)
    (hws : envOr getenv "WS_BIND_ADDR" "0.0.0.0:8081" = wsAddr) :
    loadConfig getenv = (splitAddress "BIND_ADDR" addr).bind fun bind =>
      (splitAddress "WS_BIND_ADDR" wsAddr).map fun ws =>
        ⟨bind.1, bind.2, ws.1, ws.2, envOr getenv "LEDGER_PATH" "./data/ledger.log",
          levelFrom (envOr getenv "LOG_LEVEL" "info")⟩ := by
  rw [loadConfig, hbind, hws]
  cases splitAddress "BIND_ADDR" addr with
  | error e => rfl
  | ok bind =>
    cases splitAddress "WS_BIND_ADDR" wsAddr with
    | error e => rfl
    | ok ws => rfl

theorem loadConfig_ok_iff (hbind : envOr getenv "BIND_ADDR" "0.0.0.0:8080" = addr)
    (hws : envOr getenv "WS_BIND_ADDR" "0.0.0.0:8081" = wsAddr) :
    (∃ c, loadConfig getenv = .ok c) ↔ HasNumber addr ∧ HasNumber wsAddr := by
  rw [loadConfig_eq hbind hws, ← splitAddress_ok_iff "BIND_ADDR",
    ← splitAddress_ok_iff "WS_BIND_ADDR"]
  cases splitAddress "BIND_ADDR" addr with
  | error e => simp [Except.bind]
  | ok bind =>
    cases splitAddress "WS_BIND_ADDR" wsAddr with
    | error e => simp [Except.bind, Except.map]
    | ok ws => simp [Except.bind, Except.map]

/-- The addresses are accepted as they should be exactly if both are well-formed, or one of them
has no number at all. -/
theorem bind_addresses_exact_iff (hbind : getenv "BIND_ADDR" = some addr) (hne : addr ≠ [])
    (hws : getenv "WS_BIND_ADDR" = some wsAddr) (hwsne : wsAddr ≠ []) :
    AcceptsAddresses getenv addr wsAddr ↔
      ((∃ host port, IsAddress addr host port) ∧ ∃ host port, IsAddress wsAddr host port) ∨
        ¬HasNumber addr ∨ ¬HasNumber wsAddr := by
  have hbind' := envOr_of_some hbind hne "0.0.0.0:8080"
  have hws' := envOr_of_some hws hwsne "0.0.0.0:8081"
  have hok := loadConfig_ok_iff hbind' hws'
  rw [← not_and_or, ← hok]
  constructor
  · intro h
    by_contra hnot
    obtain ⟨hnot, hread⟩ := not_or.mp hnot
    obtain ⟨c, hc⟩ := not_not.mp hread
    obtain ⟨e, he⟩ := h.refuses hnot
    rw [hc] at he
    cases he
  · rintro (⟨⟨host, port, haddr⟩, wsHost, wsPort, hwsAddr⟩ | hnot)
    · refine ⟨?_, fun hnot => absurd ⟨⟨host, port, haddr⟩, wsHost, wsPort, hwsAddr⟩ hnot⟩
      intro host port wsHost wsPort haddr hwsAddr
      rw [loadConfig_eq hbind' hws', splitAddress_of_isAddress _ haddr,
        splitAddress_of_isAddress _ hwsAddr]
      exact ⟨_, rfl, rfl, rfl, rfl, rfl⟩
    · constructor
      · intro host port wsHost wsPort haddr hwsAddr
        exact absurd (hok.mpr ⟨haddr.hasNumber, hwsAddr.hasNumber⟩) hnot
      · intro _
        cases hload : loadConfig getenv with
        | error e => exact ⟨e, rfl⟩
        | ok c => exact absurd ⟨c, hload⟩ hnot

end Load

def sampleEnv (addr wsAddr : String) : String → Option Bytes
  | "BIND_ADDR" => some (ascii addr)
  | "WS_BIND_ADDR" => some (ascii wsAddr)
  | _ => none

theorem bind_addresses_exact_iff_sample :
    AcceptsAddresses (sampleEnv "[::1]:8080" "ledger:08081") (ascii "[::1]:8080")
      (ascii "ledger:08081") := by
  refine (bind_addresses_exact_iff rfl (by decide) rfl (by decide)).mpr (Or.inl ⟨?_, ?_⟩)
  · exact ⟨ascii "[::1]", 8080, ascii "8080", by decide, by decide,
      forall_mem_of_all (by decide), by decide, by decide⟩
  · exact ⟨ascii "ledger", 8081, ascii "08081", by decide, by decide,
      forall_mem_of_all (by decide), by decide, by decide⟩

/-- What follows the number is not looked at. -/
theorem trailing_text_is_accepted :
    ¬∀ (getenv : String → Option Bytes) (addr wsAddr : Bytes), getenv "BIND_ADDR" = some addr →
      addr ≠ [] → getenv "WS_BIND_ADDR" = some wsAddr → wsAddr ≠ [] →
      AcceptsAddresses getenv addr wsAddr := by
  intro h
  have haccepts := h (sampleEnv "0.0.0.0:8080x" "0.0.0.0:8081") (ascii "0.0.0.0:8080x")
    (ascii "0.0.0.0:8081") rfl (by decide) rfl (by decide)
  have hload : loadConfig (sampleEnv "0.0.0.0:8080x" "0.0.0.0:8081") =
      .ok ⟨ascii "0.0.0.0", 8080, ascii "0.0.0.0", 8081, ascii "./data/ledger.log", .info⟩ := by
    decide
  have hnot : ¬∃ host port, IsAddress (ascii "0.0.0.0:8080x") host port := by
    rintro ⟨host, port, haddr⟩
    exact absurd (haddr.last 0x78 (by decide)) (by decide)
  obtain ⟨e, he⟩ := haccepts.refuses fun hboth => hnot hboth.1
  rw [hload] at he
  cases he

end Ledger

import Falach.Core.Registry
/-!
# Idle auto-lock

The controller that locks an idle session, and the timeout a vault may set for itself in `vaults.toml`.
-/

namespace Falach

open Keepass

/-! ## The controller -/

/-- A moment of the monotonic clock, and a time span, in nanoseconds. -/
abbrev Instant := Nat
abbrev Duration := Nat

def fromSecs (secs : Nat) : Duration := secs * 1000000000

inductive SecurityError where
  | invalidAutoLockConfig (detail : String)
deriving DecidableEq

structure AutoLockConfig where
  idleTimeout : Duration
deriving DecidableEq

namespace AutoLockConfig

def defaultIdleTimeoutSecs : Nat := 600

/-- `AutoLockConfig::default`. -/
def default : AutoLockConfig := ⟨fromSecs defaultIdleTimeoutSecs⟩

def validate (cfg : AutoLockConfig) : Except SecurityError Unit :=
  if cfg.idleTimeout = 0 then .error (.invalidAutoLockConfig "idle_timeout must be at least 1 second") else .ok ()

theorem validate_fromSecs {secs : Nat} : validate ⟨fromSecs secs⟩ = .ok () ↔ secs ≠ 0 := by
  have hzero : fromSecs secs = 0 ↔ secs = 0 := Nat.mul_eq_zero.trans (or_iff_left (by decide))
  unfold validate
  split
  · rename_i h
    exact ⟨nofun, fun hsecs => absurd (hzero.1 h) hsecs⟩
  · rename_i h
    exact ⟨fun _ hsecs => h (hzero.2 hsecs), fun _ => rfl⟩

end AutoLockConfig

inductive LockState where
  | active
  | expired
  | locked
deriving DecidableEq

/-- `SecurityEvent`; why the system locks is not looked at. -/
inductive SecurityEvent where
  | activity
  | osLock
  | manual
deriving DecidableEq

/-- `AutoLockController`; `events` is what the attached sources have sent. -/
structure AutoLockController where
  config : AutoLockConfig
  state : LockState := .active
  lastActivity : Option Instant := none
  events : List SecurityEvent := []
deriving DecidableEq

namespace AutoLockController

variable (c : AutoLockController) (now : Instant)

/-- `AutoLockController::new`. -/
def new (config : AutoLockConfig) : Except SecurityError AutoLockController := config.validate.map fun _ => { config }

def registerActivity : AutoLockController :=
  match c.state with
  | .active | .expired => { c with state := .active, lastActivity := some now }
  | .locked => c

def transitionToLocked : AutoLockController := { c with state := .locked }

/-- What `tick` does with an event it receives. -/
def receive (event : SecurityEvent) : AutoLockController :=
  match event with
  | .activity => c.registerActivity now
  | .osLock | .manual => c.transitionToLocked

def applyIdleLogic : AutoLockController :=
  match c.state with
  | .active =>
    match c.lastActivity with
    | some last => if c.config.idleTimeout ≤ now - last then { c with state := .expired } else c
    | none => c
  | .expired => { c with state := .locked }
  | .locked => c

def tick : LockState × AutoLockController :=
  let drained := c.events.foldl (fun c event => c.receive now event) { c with events := [] }
  let c := drained.applyIdleLogic now
  (c.state, c)

def unlock : AutoLockController := { c with state := .active, lastActivity := some now }

/-! Nothing that happens to a controller changes its timeout. -/

@[simp] theorem registerActivity_config : (c.registerActivity now).config = c.config := by
  unfold registerActivity
  split <;> rfl

@[simp] theorem applyIdleLogic_config : (c.applyIdleLogic now).config = c.config := by
  unfold applyIdleLogic
  repeat' split
  all_goals rfl

@[simp] theorem receive_config (event : SecurityEvent) : (c.receive now event).config = c.config := by
  cases event with
  | activity => exact c.registerActivity_config now
  | osLock => rfl
  | manual => rfl

@[simp] theorem tick_config : (c.tick now).2.config = c.config := by
  have drained : ∀ (events : List SecurityEvent) (c : AutoLockController),
      (events.foldl (fun c event => c.receive now event) c).config = c.config := by
    intro events
    induction events with
    | nil => exact fun _ => rfl
    | cons event events ih => exact fun c => (ih _).trans (c.receive_config now event)
  exact (applyIdleLogic_config _ now).trans (drained _ _)

@[simp] theorem unlock_config : (c.unlock now).config = c.config := rfl

end AutoLockController

/-! ## The timeout of a vault -/

/-- A value of a TOML file; `other` is one that is neither an integer nor a table, as it is written. -/
inductive TomlValue where
  | integer (i : Int)
  | table (entries : List (String × TomlValue))
  | other (text : String)

namespace TomlValue

def asTable : TomlValue → Option (List (String × TomlValue))
  | .table entries => some entries
  | _ => none

def asInteger : TomlValue → Option Int
  | .integer i => some i
  | _ => none

/-- `Table::insert`. -/
def insertKey (key : String) (value : TomlValue) (entries : List (String × TomlValue)) : List (String × TomlValue) :=
  if entries.any fun e => e.1 = key then entries.map fun e => if e.1 = key then (key, value) else e
  else entries ++ [(key, value)]

/-- `Table::remove`. -/
def removeKey (key : String) (entries : List (String × TomlValue)) : List (String × TomlValue) :=
  entries.filter fun e => e.1 ≠ key

end TomlValue

namespace VaultLockConfig

def lockTableKey : String := "lock"
def idleTimeoutKey : String := "idle_timeout_seconds"

/-- `idle_timeout_seconds_from_extra`: what is not a number of seconds counts as absent. -/
def idleTimeoutSecondsFromExtra (extra : Extra registeredVaultKeys TomlValue) : Option Nat := do
  let lock ← extra.table.lookup lockTableKey
  let entries ← lock.asTable
  let value ← entries.lookup idleTimeoutKey
  let i ← value.asInteger
  if 0 ≤ i then some i.toNat else none

/-- `apply_idle_timeout`; an `i64` ends at 2^63 - 1. -/
def applyIdleTimeout (timeout : Option Nat) (extra : Extra registeredVaultKeys TomlValue) :
    Extra registeredVaultKeys TomlValue :=
  let lock := ((extra.table.lookup lockTableKey).bind TomlValue.asTable).getD []
  let lock := match timeout with
    | some s => TomlValue.insertKey idleTimeoutKey (.integer (min s (2 ^ 63 - 1))) lock
    | none => TomlValue.removeKey idleTimeoutKey lock
  if lock = [] then extra.erase lockTableKey else extra.insert lockTableKey (.table lock) (by decide)

end VaultLockConfig

end Falach

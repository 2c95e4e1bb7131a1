import Falach.Security.AutoLock
import Falach.Sync.Configure
import Falach.Tui.Widgets
import Falach.Vault.Operations
/-!
# The application

What the terminal application keeps, what it asks of its surroundings, and what it only calls: the keymap, the input
library, and what the screens compute from a vault.
-/

namespace Falach.Tui

open Keepass Program

/-! ## What it works on -/

/-- The registry, over the values of a TOML file. -/
abbrev Registry := VaultRegistry TomlValue

/-- An unlocked vault. -/
structure Vault where
  path : String
  database : Database

inductive SyncTrigger where
  | manual
  | onUnlock
  | onLock
  | onQuit
deriving DecidableEq

structure SyncResult where
  vault : Vault
  registry : Registry
  outcome : Except SyncError SyncOutcome
  trigger : SyncTrigger

inductive SyncMsg where
  | activity
  | done (result : SyncResult)
  | workerLost

inductive EnterAction where
  | copy
  | «open»
deriving DecidableEq

/-- `UserConfig`, as far as the application reads it after its start. -/
structure UserConfig where
  defaultSort : SortOrder := .recentlyUsed
  syncOnUnlock : Bool := false
  syncOnLockQuit : Bool := false
  confirmQuit : Bool := false
  themeDark : String := "default-dark"
  themeLight : String := "default-light"
  searchDefaultScope : String := "all"
  enterAction : EnterAction := .copy
deriving DecidableEq

structure VaultUiState where
  pinned : List Uuid := []
  recents : List Uuid := []
deriving DecidableEq

/-- `TuiConfig`: the pins and recents of each vault. -/
abbrev TuiConfig := HashMap String VaultUiState

/-! ## Screens and overlays -/

inductive Phase where
  | unlockList
  | unlockPrompt (vaultName : String) (input : PasswordInput) (attempts : Nat)
  | lockScreen
  | workspace
deriving DecidableEq

inductive Focus where
  | tree
  | detail
deriving DecidableEq

inductive TreeMode where
  | normal
  | visual (anchor : Nat)
deriving DecidableEq

inductive SearchScope where
  | all
  | groupSubtree (group : Uuid)
  | tag (tag : String)
deriving DecidableEq

/-- What a search gives back when it is cancelled. -/
structure SavedView where
  selected : Option Uuid
  focus : Focus
  detailScroll : Nat
deriving DecidableEq

/-- `SearchState`; of a result row only the entry matters here. -/
structure SearchState where
  input : Input := {}
  results : List Uuid := []
  selected : Nat := 0
  scroll : Nat := 0
  scope : SearchScope
  saved : SavedView
deriving DecidableEq

inductive EntryKind where
  | credential
  | secureNote
  | totp
deriving DecidableEq

/-- What a form says of an entry. -/
structure EditValues where
  kind : EntryKind
  title : String
  username : String
  password : String
  url : String
  totpUri : String
  notes : String
  tags : List String
  custom : List CustomFieldDraft
  removedCustom : List String

/-- `EditState`; `form` holds its input fields. -/
structure EditState (Form : Type) where
  isNew : Bool
  target : Option Uuid
  group : Uuid
  form : Form

/-- `HistoryState`: the versions in the order they are shown. -/
structure HistoryState where
  snapshots : List Version
  selected : Nat := 0

structure GroupPickerState where
  groups : List Uuid
  selected : Nat := 0
  count : Nat
deriving DecidableEq

inductive TagAction where
  | add
  | remove
deriving DecidableEq

structure TagInputState where
  input : Input := {}
  action : TagAction
  count : Nat
deriving DecidableEq

structure SyncConfigState where
  endpoint : Input := {}
  region : Input := {}
  bucket : Input := {}
  key : Input := {}
  pathStyle : Bool := false
  accessKeyId : Input := {}
  secret : PasswordInput := {}
  master : PasswordInput := {}
  focus : Nat := 0
deriving DecidableEq

structure PaletteState where
  input : Input := {}
  selected : Nat := 0
  underlying : Context
deriving DecidableEq

inductive Overlay (Form : Type) where
  | search (state : SearchState)
  | edit (state : EditState Form)
  | history (state : HistoryState)
  | confirmDelete (entryUuid : Uuid)
  | confirmBulkDelete (uuids : List Uuid)
  | confirmQuit
  | groupPicker (state : GroupPickerState)
  | tagInput (state : TagInputState)
  | syncUnlock (input : PasswordInput) (pending : SyncTrigger)
  | syncConfig (state : SyncConfigState)
  | palette (state : PaletteState)

/-- A chord that is being typed. -/
structure PendingSeq where
  keys : List Key := []
  count : Option Nat := none
deriving DecidableEq

inductive Resolution where
  | command (cmd : Command) (count : Option Nat)
  | pending
  | none

/-- The fields of `App` that the screens and their keys work on. -/
structure View where
  tabs : TabBar := {}
  tree : TreeState := {}
  recents : Recents := {}
  jumpHistory : JumpHistory := {}
  treeMode : TreeMode := .normal
  marks : Finset Uuid := ∅
  focus : Focus := .tree
  revealPassword : Bool := false
  detailScroll : Nat := 0
  pendingSeq : PendingSeq := {}
  listIndex : Nat := 0
  settingsIndex : Nat := 0

/-- `App`; `inflight` is the channel of the worker that syncs. -/
structure App (Form : Type) where
  phase : Phase := .unlockList
  vault : Option Vault := none
  registry : Option Registry
  uiConfig : TuiConfig := ∅
  userConfig : UserConfig := {}
  controller : AutoLockController
  activeThemeIsLight : Bool := false
  mouseEnabled : Bool := true
  readOnly : Bool := false
  selectedVault : Option String := none
  view : View := {}
  overlay : Option (Overlay Form) := none
  inflight : Option Nat := none
  lockPending : Bool := false
  shouldQuit : Bool := false

/-! ## Its surroundings -/

/-- What random UUIDs, the wall clock and the order of hash maps have in store for one call of a vault. -/
structure Draw where
  entry : EntryId
  group : GroupId
  now : Nat → NaiveDateTime
  env : Env

/-- What has arrived on a channel, and whether its sender is gone. -/
structure Received where
  messages : List SyncMsg
  disconnected : Bool

/-- What the application asks for. -/
inductive AppOp where
  | now
  | draw
  | openVault (path : String) (password : Text)
  | saveVault (vault : Vault)
  | registry (op : RegistryOp)
  | updateUserConfig (update : UserConfig → UserConfig)
  | saveUiConfig (config : TuiConfig)
  | copy (text : String)
  | spawn (vault : Vault) (registry : Registry) (name : String) (password : Text) (trigger : SyncTrigger)
  | receive (channel : Nat)

@[reducible] def AppAnswer : AppOp → Type
  | .now => Instant
  | .draw => Draw
  | .openVault _ _ => Except VaultError Vault
  | .saveVault _ => Except VaultError Unit
  | .registry op => RegistryAnswer op
  | .updateUserConfig _ => Option UserConfig
  | .saveUiConfig _ => Unit
  | .copy _ => Bool
  | .spawn _ _ _ _ _ => Nat
  | .receive _ => Received

/-- What ends the application: the registry is asked for while it is away, or a call of a vault panics. -/
inductive Panic where
  | registryAway
  | fault (f : Fault)

abbrev Ui (α : Type) := Program AppOp AppAnswer Panic α

/-- What the application only calls. -/
structure Frontend (Form : Type) where
  /-- `Keymap::matches`. -/
  isBound : Command → Key → Bool
  /-- `Keymap::resolve`. -/
  resolve : Key → PendingSeq → Resolution × PendingSeq
  /-- A key typed into a `tui_input::Input`, if it changes anything. -/
  handle : Input → Key → Option Input
  /-- `entry_tree::build_rows`. -/
  buildRows : Database → TreeState → Recents → List TreeRow
  /-- `secrets::node_path`. -/
  nodePath : Database → Uuid → Option (List Uuid)
  /-- `Vault::search`, with the boosted entries. -/
  search : Database → Text → SearchScope → List Uuid → List Uuid
  /-- How many lines the detail pane has for an entry. -/
  detailLines : Database → Uuid → Bool → Option Nat
  /-- `collect_group_choices`. -/
  groupChoices : Database → List Uuid
  /-- The commands of the palette that match its filter, in order. -/
  paletteOrder : Text → List Command
  /-- `theme_names`. -/
  themeNames : List String
  /-- Whether the configuration, resolved in this terminal, is light. -/
  wantsLight : UserConfig → Bool
  /-- The form of a new entry, and of one that exists. -/
  newForm : Form
  formOf : Entry → Form
  /-- The panel that generates a password is open in the form. -/
  generating : Form → Bool
  /-- A key typed into the form, other than the ones that save or close it. -/
  typed : Form → Key → Form
  /-- `EditState::snapshot`. -/
  snapshot : Form → Option EditValues
  /-- `Totp::from_otpauth_uri`. -/
  fromOtpauthUri : String → Except VaultError Unit
  /-- `encrypt_credential`. -/
  encryptCredential : String → Text → Option String
  toml : Toml TomlValue
  codec : SyncCodec TomlValue TomlValue

end Falach.Tui

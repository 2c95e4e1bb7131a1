import Falach.Keepass.Database
/-!
# Commands

What a user can ask for, the contexts it is offered in, and which of it changes a vault.
-/

namespace Falach.Tui

inductive Command where
  | quit
  | lockNow
  | help
  | cancel
  | confirm
  | next
  | prev
  | parent
  | child
  | jumpBack
  | jumpForward
  | nextTab
  | prevTab
  | jumpToTab
  | cycleScope
  | quickSelect
  | openEntry
  | focusPane
  | search
  | addEntry
  | editEntry
  | deleteEntry
  | copyPassword
  | copyUsername
  | revealPassword
  | history
  | pinToggle
  | sortCycle
  | visualMode
  | moveToGroup
  | addTag
  | removeTag
  | sync
  | generate
deriving DecidableEq

/-- One bit of `Contexts`. -/
inductive Context where
  | unlockList
  | unlockPrompt
  | lockScreen
  | secretsTree
  | secretsDetail
  | pinnedTab
  | settingsTab
  | search
  | edit
  | history
  | confirm
  | palette
  | syncUnlock
  | syncConfig
deriving DecidableEq

inductive CmdState where
  | enabled
  | disabled
deriving DecidableEq

namespace Command

open Context in
def workspaceContexts : List Context := [secretsTree, secretsDetail, pinnedTab, settingsTab]

open Context in
def treeDetail : List Context := [secretsTree, secretsDetail]

open Context in
def treeDetailPinned : List Context := treeDetail ++ [pinnedTab]

/-- The `contexts` of the command in `COMMANDS`. -/
def contexts : Command → List Context
  | .quit => [.unlockList, .unlockPrompt, .lockScreen, .secretsTree, .secretsDetail, .pinnedTab, .settingsTab, .search,
      .edit, .history, .confirm, .palette, .syncUnlock, .syncConfig]
  | .lockNow | .nextTab | .prevTab | .jumpToTab => workspaceContexts
  | .help => workspaceContexts ++ [.unlockList, .lockScreen]
  | .cancel => [.secretsDetail, .unlockPrompt, .search, .edit, .history, .confirm, .syncUnlock, .syncConfig]
  | .confirm => [.secretsTree, .unlockList, .settingsTab, .search, .edit, .history, .confirm, .syncConfig]
  | .next | .prev => treeDetailPinned ++ [.unlockList, .settingsTab, .history, .search]
  | .parent | .child | .focusPane | .search | .addEntry | .editEntry | .deleteEntry | .copyPassword | .copyUsername
  | .pinToggle | .sortCycle | .sync => treeDetail
  | .jumpBack | .revealPassword | .history => treeDetailPinned
  | .jumpForward | .visualMode | .moveToGroup | .addTag | .removeTag => [.secretsTree]
  | .cycleScope | .quickSelect | .openEntry => [.search]
  | .generate => [.edit]

/-- `RO_MUTATING_COMMANDS`. -/
def roMutatingCommands : List Command := [addEntry, editEntry, deleteEntry, moveToGroup, addTag, removeTag, sync]

/-- `command_available_during_sync`. -/
def availableDuringSync : Command → Bool
  | .quit | .lockNow | .help | .nextTab | .prevTab | .jumpToTab => true
  | _ => false

end Command

end Falach.Tui

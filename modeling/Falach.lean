import Falach.Core.RegistryRuns
import Falach.Entry.Ranking
import Falach.Auth.Profile
import Falach.Entry.Tags
import Falach.Entry.Totp
import Falach.Cli.EntryList
import Falach.Core.AtomicRuns
import Falach.Genpw.Password
import Falach.S3.Authority
import Falach.S3.CompareAndSwap
import Falach.S3.Etags
import Falach.S3.SignedPath
import Falach.Sync.Clashes
import Falach.Sync.Convergence
import Falach.Sync.Deltas
import Falach.Sync.Foreign
import Falach.Sync.HistoryLoss
import Falach.Sync.LostUpdates
import Falach.Sync.Moves
import Falach.Sync.Newer
import Falach.Sync.NewestFirst
import Falach.Sync.Pointers
import Falach.Sync.Saving
import Falach.Sync.Targets
import Falach.Security.AutoLock
import Falach.Security.Clipboard
import Falach.Security.Locking
import Falach.Tui.Custody
import Falach.Tui.Bulk
import Falach.Tui.EditForm
import Falach.Tui.Keymap
import Falach.Tui.Chords
import Falach.Tui.OwnTimeouts
import Falach.Tui.ReadOnly
import Falach.Tui.JumpHistory
import Falach.Tui.KeySpelling
import Falach.Tui.TextArea
import Falach.Tui.Unsaved
import Falach.Vault.AttachmentEdits
import Falach.Vault.Create
import Falach.Vault.HistoryCap
import Falach.Vault.RecycleBin
import Falach.Vault.Update
import Falach.Entry.TotpCodes
import Falach.Format.Integrity
import Falach.Tui.RecentlyUsed
import Falach.Tui.TreeMoves
import Falach.Vault.Sessions
import Falach.Lib.Simulations
import Falach.Sync.Icons

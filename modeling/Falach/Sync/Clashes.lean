import Falach.Sync.Completion
import Falach.Sync.Repairs
/-!
# What a reconcile refuses

A `reconcile` is meant to refuse only clashes: versions of one second that differ. The merge refuses more, and removes
entries whose slots are gone already.
-/

namespace Falach

open Keepass Database

variable {env : Env} {localDb remote : Database}

/-- Some entry or group has one modification time on both sides and differs in more than its parent. Attachments are
compared by their bytes. -/
def Clashes (env : Env) (localDb remote : Database) : Prop :=
  (∃ id d s, localDb.entry id = some d ∧ remote.entry id = some s ∧
    d.times.lastModification.getD (env.now .entriesInBoth id) = s.times.lastModification.getD Times.epoch ∧
    (value d.toVersion ≠ value s.toVersion ∨ bytesOf localDb d.toVersion ≠ bytesOf remote s.toVersion)) ∨
  ∃ id d s, localDb.group id = some d ∧ remote.group id = some s ∧
    d.times.lastModification.getD (env.now .groupsInBoth id) = s.times.lastModification.getD Times.epoch ∧
    haveGroupsDiverged d s

/-- The `reconcile` does not panic, and an error means a clash. -/
def RefusesOnlyClashes (env : Env) (localDb remote : Database) : Prop :=
  reconcile env localDb remote ≠ .error .panic ∧
    ∀ e left, reconcile env localDb remote = .error (.merge e left) → Clashes env localDb remote

/-- Without attachments there is no slot to be empty. -/
theorem stocked_of_bare {v w : Entry} (hv : v.attachments = ∅) (hw : w.attachments = ∅) :
    Stocked env (single v) (single w) := by
  have uses : ∀ {e : Entry} {c : AttachmentId}, e.attachments = ∅ → ¬ e.Uses c := by
    rintro e c he ⟨n, hc⟩
    rw [he] at hc; cases hc
  have here : ∀ {x e c}, (single v).entry x = some e → ¬ e.Uses c := fun h => uses ((entry_single_some h).2 ▸ hv)
  have there : ∀ {x e c}, (single w).entry x = some e → ¬ e.Uses c := fun h => uses ((entry_single_some h).2 ▸ hw)
  refine ⟨?_, fun _ _ _ _ hs hc => absurd hc (there hs), fun _ _ _ _ h hc => absurd hc (there h.there),
    fun _ _ _ _ h hc => absurd hc (here h.here)⟩
  rintro x c ⟨-, ⟨d, hd, hc⟩ | ⟨-, s, hs, -, hc⟩⟩
  · exact absurd hc (here hd)
  · exact absurd hc (there hs)

/-- A group that was last moved at the time given. -/
def folder (id : GroupId) (parent : Option GroupId) (groups : Finset GroupId) (moved : NaiveDateTime) : Group where
  id := id
  parent := parent
  groups := groups
  times := { lastModification := some 10, locationChanged := some moved }

/-- Of the groups 1 and 2, both under the root, 2 was moved into 1 at 20. -/
def secondIntoFirst : Database where
  config := ⟨.aes 0⟩
  root := 0
  groups := ((Finmap.singleton 2 (folder 2 (some 1) ∅ 20)).insert 1 (folder 1 (some 0) {2} 10)).insert 0
    (folder 0 none {1} 10)

/-- Group 1 was moved into 2 at 30. -/
def firstIntoSecond : Database where
  config := ⟨.aes 0⟩
  root := 0
  groups := ((Finmap.singleton 2 (folder 2 (some 0) {1} 10)).insert 1 (folder 1 (some 2) ∅ 30)).insert 0
    (folder 0 none {2} 10)

/-- Two entries with one attachment, as a file is read: no slot has back-references. -/
def sharedSlot : Database where
  config := ⟨.aes 0⟩
  root := 0
  entries := (Finmap.singleton 5 (holder 5 10)).insert 6 (holder 6 10)
  groups := Finmap.singleton 0 { id := 0, parent := none, entries := {5, 6} }
  attachments := Finmap.singleton 0 { id := 0, entries := ∅, data := .unprotected [1] }

/-- Both were deleted. -/
def bothDeleted : Database where
  config := ⟨.aes 0⟩
  root := 0
  groups := Finmap.singleton 0 { id := 0, parent := none }
  deletedObjects := Finmap.insert 6 (some 20) (Finmap.singleton 5 (some 20))

end Falach

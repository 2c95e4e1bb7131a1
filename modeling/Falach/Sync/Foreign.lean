import Falach.Keepass.Totality
import Falach.Sync.Refusals
import Falach.Sync.Walk
/-!
# A foreign vault

What a run makes of a remote object that opens with the same key but is another vault: its root group has another
UUID.
-/

namespace Falach

open Keepass Program

namespace Machine

variable {encrypts : Database → Bytes → Prop} {openFromBytes : Bytes → Except SyncError Database}
  {sha256 : Bytes → String} {last : SyncPointers} {maxRetries : Nat} {m m' start : Machine} {s : ObjectSnapshot}
  {remote : Database}

/-- The transport holds the object `s` throughout the call; each of its calls may fail. -/
def Serves (s : ObjectSnapshot) : (m : Machine) → (op : Op) → Answer op → Machine → Prop
  | _, .head, .ok v, _ => v = some s.version
  | _, .fetchIfChanged prev, .ok r, _ => r = if prev = some s.version then none else some s
  | _, _, _, _ => True

/-- A request that merges, saves or uploads nothing. -/
def Harmless (m : Machine) : Op → Prop
  | .save | .putConditional _ _ => False
  | .reconcile remote => ∀ env, ∃ e, reconcile env m.database remote = .error (.merge e m.database)
  | _ => True

/-- Nothing is merged, saved or uploaded. -/
structure Intact (start m : Machine) : Prop where
  database : m.database = start.database
  file : m.file = start.file
  asked : ∀ op ∈ m.asked, op ≠ .save ∧ ∀ bytes ifMatch, op ≠ .putConditional bytes ifMatch

/-- The run ended with an error, and nothing was merged, saved or uploaded. -/
def Refused (start m : Machine) (r : Ending SyncError (SyncOutcome × SyncPointers)) : Prop :=
  (∃ e, r = .failed e) ∧ Intact start m

theorem Intact.ask (h : Intact start m) (op : Op) (ho : Harmless m op) : Intact start (m.ask op) := by
  refine ⟨h.database, h.file, fun op' hop => ?_⟩
  rcases List.mem_append.1 hop with hop | hop
  · exact h.asked op' hop
  · obtain rfl := List.mem_singleton.1 hop
    exact ⟨fun he => by subst he; exact ho, fun _ _ he => by subst he; exact ho⟩

theorem Intact.backedUp (h : Intact start m) (bytes : Bytes) : Intact start (m.backedUp bytes) :=
  ⟨h.database, by simpa using h.file, h.asked⟩

/-- From `m`, the program never returns, and asks for nothing that would merge, save or upload. -/
abbrev Refuses {α : Type} (encrypts : Database → Bytes → Prop) (s : ObjectSnapshot) (start m : Machine)
    (p : SyncRun α) :
    Prop :=
  Behaves encrypts (Serves s) (fun m op => Harmless m op) (fun _ _ => False) (fun m _ => Intact start m) m p

section

open SyncRun

/-- On this branch `replace_database` compares the roots. -/
theorem fastReplace_refuses {prevRemote : Option ObjectVersion} (h : Intact start m) (hp : prevRemote ≠ some s.version)
    (ho : openFromBytes s.bytes = .ok remote) (hr : start.database.root ≠ remote.root) :
    Refuses encrypts s start m (fastReplace openFromBytes sha256 last prevRemote) := by
  have hq := h.ask (.fetchIfChanged prevRemote) trivial
  refine fetchIfChanged_behaves trivial (fun r hs => ?_) fun _ => hq
  obtain rfl : r = some s := hs.trans (if_neg hp)
  dsimp only
  rw [ho]
  have hd := hq.ask .database trivial
  have hb := hd.ask .snapshotPreMerge trivial
  refine refuseOtherKdf_behaves trivial (fun _ => ?_) hd
  refine snapshotPreMerge_behaves trivial (fun bytes _ => ?_) (fun bytes _ _ => hb.backedUp bytes) fun _ => hb
  exact replaceDatabase_behaves trivial (fun he => absurd (h.database ▸ he) hr) fun _ =>
    (hb.backedUp bytes).ask (.replaceDatabase remote) trivial

/-- On this branch only the merge itself can refuse. -/
theorem mergeLoop_refuses {backupPath : String} {max left : Nat} (h : Intact start m)
    (ho : openFromBytes s.bytes = .ok remote)
    (hr : ∀ env, ∃ e, reconcile env start.database remote = .error (.merge e start.database)) :
    Refuses encrypts s start m (mergeLoop openFromBytes sha256 backupPath max left) := by
  cases left with
  | zero => exact h
  | succ left =>
    have hq := h.ask (.fetchIfChanged none) trivial
    refine fetchIfChanged_behaves trivial (fun r hs => ?_) fun _ => hq
    obtain rfl : r = some s := hs.trans (if_neg (by simp))
    dsimp only
    rw [ho]
    have hd := hq.ask .database trivial
    refine refuseOtherKdf_behaves trivial (fun _ => ?_) hd
    have harmless : Harmless ((m.ask (.fetchIfChanged none)).ask .database) (.reconcile remote) := by
      rw [Harmless, hd.database]; exact hr
    refine reconcile_behaves harmless (fun env merged delta he _ => ?_) fun env e left he _ => ?_
    · obtain ⟨e, hx⟩ := harmless env
      rw [hx] at he; cases he
    · obtain ⟨e', hx⟩ := harmless env
      rw [hx] at he; cases he
      exact hd.ask _ harmless

theorem pointer_iff (tag : Option String) (v : ObjectVersion) : tag.map ObjectVersion.mk = some v ↔
    tag = some v.tag := by
  cases tag with
  | none => simp
  | some tag => simp only [Option.map_some, Option.some.injEq]; exact ⟨fun h => by rw [← h], fun h => by rw [h]⟩

theorem runStateMachine_refuses {bytes : Bytes} (h : Intact start m) (hf : start.file = some bytes)
    (ho : openFromBytes s.bytes = .ok remote) (hr : start.database.root ≠ remote.root)
    (hv : last.remoteEtag ≠ some s.version.tag)
    (hl : some (sha256 bytes) = last.localSha256 ∨
      ∀ env, ∃ e, reconcile env start.database remote = .error (.merge e start.database)) :
    Refuses encrypts s start m (runStateMachine openFromBytes sha256 last maxRetries) := by
  have changed : last.remoteEtag.map ObjectVersion.mk ≠ some s.version := (pointer_iff _ _).not.2 hv
  have hh := h.ask .head trivial
  refine head_behaves trivial (fun v hs => ?_) fun _ => hh
  obtain rfl : v = some s.version := hs
  have hq := hh.ask .readVaultBytes trivial
  refine readVaultBytes_behaves trivial (fun read hb => ?_) fun _ => hq
  obtain rfl : read = bytes := by simpa [h.file, hf] using hb.symm
  dsimp only
  rw [decide_eq_true changed.symm]
  split
  · contradiction
  · contradiction
  · exact fastReplace_refuses hq changed ho hr
  · next hc =>
    rcases hl with hl | hl
    · simp [hl] at hc
    · have hb := hq.ask .snapshotPreMerge trivial
      exact snapshotPreMerge_behaves trivial (fun copy _ => mergeLoop_refuses (hb.backedUp copy) ho hl)
        (fun copy _ _ => hb.backedUp copy) fun _ => hb

/-- A run by way of the branch that the two comparisons choose. -/
theorem runStateMachine_runs {bytes : Bytes} {r : Ending SyncError (SyncOutcome × SyncPointers)}
    (hf : m.file = some bytes) {remoteChanged localChanged : Bool}
    (hr : decide (some s.version ≠ last.remoteEtag.map ObjectVersion.mk) = remoteChanged)
    (hl : decide (some (sha256 bytes) ≠ last.localSha256) = localChanged)
    (run : Runs (fun m op a m' => Exec encrypts m op a m' ∧ Serves s m op a m') Panics
      ((m.ask .head).ask .readVaultBytes)
      (match remoteChanged, localChanged with
        | false, false => return (.alreadyInSync, last)
        | false, true => pushOnly sha256 (last.remoteEtag.map ObjectVersion.mk) bytes
        | true, false => fastReplace openFromBytes sha256 last (last.remoteEtag.map ObjectVersion.mk)
        | true, true => do
          let backupPath ← snapshotPreMerge
          mergeLoop openFromBytes sha256 backupPath (max maxRetries 1) (max maxRetries 1)) m' r) :
    Runs (fun m op a m' => Exec encrypts m op a m' ∧ Serves s m op a m') Panics m
      (runStateMachine openFromBytes sha256 last maxRetries) m' r := by
  subst hr hl
  exact .ask ⟨.head (.ok (some s.version)), rfl⟩ (.ask ⟨.read hf, trivial⟩ run)

variable (encrypts sha256 maxRetries) in
/-- On the merge branch a run gets as far as `reconcile`, and unless that refuses outright the run panics, leaves
something merged behind or goes on to save. -/
theorem mergeBranch_proceeds {bytes : Bytes} {env : Env} (hf : m.file = some bytes) (hm : m.database = start.database)
    (ho : openFromBytes s.bytes = .ok remote) (hk : m.database.config.kdfConfig = remote.config.kdfConfig)
    (hr : ∀ e, reconcile env m.database remote ≠ .error (.merge e m.database)) :
    ∃ m' r, Runs (fun m op a m' => Exec encrypts m op a m' ∧ Serves s m op a m') Panics m
      (do
        let backupPath ← snapshotPreMerge
        mergeLoop openFromBytes sha256 backupPath (max maxRetries 1) (max maxRetries 1)) m' r ∧
          ¬Refused start m' r := by
  obtain ⟨k, hk'⟩ : ∃ k, max maxRetries 1 = k + 1 := ⟨max maxRetries 1 - 1, by omega⟩
  rw [hk']
  -- the requests up to `reconcile`, whatever comes after them
  obtain ⟨next, fails, saveFails, upTo⟩ : ∃ next : Except MergeError EntryDelta → SyncRun (SyncOutcome × SyncPointers),
      (∀ e l, Runs (fun m op a m' => Exec encrypts m op a m' ∧ Serves s m op a m') Panics l (next (.error e)) l
        (.failed (.unresolvable e (backupPathFor m.path)))) ∧
      (∀ delta l, Runs (fun m op a m' => Exec encrypts m op a m' ∧ Serves s m op a m') Panics l (next (.ok delta))
        (l.ask .save) (.failed (.vault (.other "")))) ∧
      ∀ {m' r}, Runs (fun m op a m' => Exec encrypts m op a m' ∧ Serves s m op a m') Panics
          (((((m.ask .snapshotPreMerge).backedUp bytes).ask (.fetchIfChanged none)).ask .database))
          (request Answer (.reconcile remote) >>= next) m' r →
        Runs (fun m op a m' => Exec encrypts m op a m' ∧ Serves s m op a m') Panics m
          (do
            let backupPath ← snapshotPreMerge
            mergeLoop openFromBytes sha256 backupPath (k + 1) (k + 1)) m' r := by
    apply Exists.intro
    refine ⟨?fails, ?saveFails, ?upTo⟩
    case upTo =>
      intro m' r run
      refine .ask ⟨.backup hf, trivial⟩ (.ask ⟨.fetch (.ok (some s)), by simp [Serves]⟩ ?_)
      change Runs _ _ _ (Program.ofExcept (openFromBytes s.bytes) >>= _) _ _
      rw [ho]
      refine .ask ⟨.database, trivial⟩ ?_
      change Runs _ _ _ ((if _ then _ else _) >>= _) _ _
      simp only [database_ask, database_backedUp, hk, ne_eq, not_true_eq_false, reduceIte]
      exact run
    case fails => exact fun _ _ => .fail
    case saveFails => exact fun _ _ => .ask ⟨.saveFails (.other ""), trivial⟩ .fail
  cases hrec : reconcile env m.database remote with
  | error fault =>
    cases fault with
    | panic => exact ⟨_, _, upTo (.panic ⟨remote, env, rfl, hrec⟩), fun h => by obtain ⟨⟨e, he⟩, -⟩ := h; cases he⟩
    | merge e left =>
      refine ⟨_, _, upTo (.ask ⟨.reconcileFails env hrec, trivial⟩ (fails e _)), fun h => hr e ?_⟩
      have hleft : left = start.database := h.2.database
      rw [hrec, hleft, hm]
  | ok result =>
    refine ⟨_, _, upTo (.ask ⟨.reconcile env hrec, trivial⟩ (saveFails result.2 _)), fun h => ?_⟩
    exact (h.2.asked .save (by simp)).1 rfl

end

/-- An empty vault of another root. -/
def foreign : Database := .withData ⟨.aes 1⟩ 9 0

end Machine

end Falach

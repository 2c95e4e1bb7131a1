import Falach.Core.Atomic
/-!
# Processes that write into one directory

Each cleans up, makes a temp file, writes it and renames it to its target, and the steps of all of them come in any
order. As long as a cleanup takes only files that nobody needs, every target is whole and no writer is hindered by
another.
-/

namespace Falach

open Keepass Program Kernel OpenFiles

variable {ι : Type}

/-! ## What writers are promised -/

/-- What is read from a file, if it is there. -/
def Directory.read (g : Directory) (name : String) : Option Bytes := (g.names name).map g.data

/-- A call of `write_atomic_with`. -/
structure WriteCall where
  target : String
  content : Content

/-- The programs of the calls that each process may make. -/
def programsOf (calls : ι → WriteCall → Prop) (i : ι) (p : AtomicRun Unit) : Prop :=
  ∃ c, calls i c ∧ p = writeAtomicWith c.target c.content

/-- The whole content of one of the calls for this target. -/
def Complete (calls : ι → WriteCall → Prop) (target : String) (bytes : Bytes) : Prop :=
  ∃ i c, calls i c ∧ c.target = target ∧ c.content.result = .ok () ∧ bytes = c.content.chunks.flatten

/-- An error that does not come of other writers: not of a file that is gone, nor of one that is locked. -/
def Unhindered (calls : ι → WriteCall → Prop) (e : FileError) : Prop :=
  (∃ code path, e = .io (.other code) path) ∨
    ∃ i c, calls i c ∧ ((∃ code, e = c.content.failed (.other code)) ∨ c.content.result = .error e)

abbrev Writers (ι : Type) := Kernel.State AtomicOp AtomicAnswer FileError Unit Directory OpenFiles ι

/-- Every target holds what it held before or all that one call has written, the temp file of every writer is where it
made it, and a call fails only for reasons of its own. -/
structure Intact (start : Directory) (calls : ι → WriteCall → Prop) (s : Writers ι) : Prop where
  targets : ∀ i c, calls i c → s.shared.read c.target = start.read c.target ∨
    ∃ bytes, s.shared.read c.target = some bytes ∧ Complete calls c.target bytes
  temps : ∀ i, ∀ t ∈ (s.held i).temp, s.shared.names t.name = some t.inode
  failures : ∀ i e, s.running i = some (.fail e) → Unhindered calls e

/-- The file that a cleanup gets the lock of is still the one under its name, and no writer's temp file: its writer is
gone. -/
def TakesStale (g : Directory) (held : ι → OpenFiles) (i : ι) (op : AtomicOp) (a : AtomicAnswer op) : Prop :=
  match op, a with
  | .lockProbe, .ok () => ∀ p ∈ (held i).probe, g.names p.name = some p.inode ∧ ∀ j, ∀ t ∈ (held j).temp,
      t.inode ≠ p.inode
  | _, _ => True

/-! ## What holds between the steps -/

structure WritersInv (start : Directory) (calls : ι → WriteCall → Prop) (g : Directory) (held : ι → OpenFiles) :
    Prop where
  probed : ∀ i, ∀ p ∈ (held i).probe, IsTemp p.name
  allocated : ∀ i, ∀ p ∈ (held i).probe, p.locked = true → p.inode < g.next
  stale : ∀ i, ∀ p ∈ (held i).probe, p.locked = true →
    (p.removed = false → g.names p.name = some p.inode) ∧ ∀ j, ∀ t ∈ (held j).temp, t.inode ≠ p.inode
  alone : ∀ i j, ∀ p ∈ (held i).probe, ∀ q ∈ (held j).probe, p.locked = true → q.locked = true → p.inode = q.inode →
    i = j
  there : ∀ i, ∀ t ∈ (held i).temp, IsTemp t.name ∧ g.names t.name = some t.inode ∧
    ∀ name, g.names name = some t.inode → name = t.name
  written : ∀ i, ∀ t ∈ (held i).temp, g.data t.inode = t.written
  own : ∀ i j, ∀ t ∈ (held i).temp, ∀ u ∈ (held j).temp, t.inode = u.inode → i = j
  kept : ∀ i, ∀ x ∈ (held i).kept, x < g.next ∧ ∀ j, ∀ t ∈ (held j).temp, t.inode ≠ x
  content : ∀ target, ¬ IsTemp target → g.read target = start.read target ∨
    ∃ bytes, g.read target = some bytes ∧ Complete calls target bytes

/-- What a call may ask for. -/
def MayRequest (calls : ι → WriteCall → Prop) (l : OpenFiles) : AtomicOp → Prop
  | .openProbe name => IsTemp name
  | .removeFile name => ∃ p ∈ l.probe, p.locked = true ∧ p.removed = false ∧ p.name = name
  | .lockTemp => ∃ t ∈ l.temp, t.locked = false
  | .persist target => ¬ IsTemp target ∧ ∃ t ∈ l.temp, Complete calls target t.written
  | _ => True

variable {start g g' : Directory} {calls : ι → WriteCall → Prop} {held held' : ι → OpenFiles} {i j : ι} {l : OpenFiles}

/-- Files that are let go of break nothing, nor do files that are looked at without a lock. -/
theorem WritersInv.release (h : WritersInv start calls g held) (hprobed : ∀ j, ∀ p ∈ (held' j).probe, IsTemp p.name)
    (hprobe : ∀ j, ∀ p ∈ (held' j).probe, p.locked = true → p ∈ (held j).probe)
    (htemp : ∀ j, ∀ t ∈ (held' j).temp, t ∈ (held j).temp) (hkept : ∀ j, ∀ x ∈ (held' j).kept, x ∈ (held j).kept) :
    WritersInv start calls g held' where
  probed := hprobed
  allocated j p hp hlocked := h.allocated j p (hprobe j p hp hlocked) hlocked
  stale j p hp hlocked := by
    obtain ⟨hname, hother⟩ := h.stale j p (hprobe j p hp hlocked) hlocked
    exact ⟨hname, fun k t ht => hother k t (htemp k t ht)⟩
  alone j k p hp q hq hlp hlq := h.alone j k p (hprobe j p hp hlp) q (hprobe k q hq hlq) hlp hlq
  there j t ht := h.there j t (htemp j t ht)
  written j t ht := h.written j t (htemp j t ht)
  own j k t ht u hu := h.own j k t (htemp j t ht) u (htemp k u hu)
  kept j x hx := by
    obtain ⟨hlt, hother⟩ := h.kept j x (hkept j x hx)
    exact ⟨hlt, fun k t ht => hother k t (htemp k t ht)⟩
  content := h.content

/-- A file that nobody works on may go from the directory. -/
theorem WritersInv.unlink (h : WritersInv start calls g held) {name : String} (hname : IsTemp name)
    (hprobe : ∀ j, ∀ p ∈ (held j).probe, p.locked = true → p.removed = false → p.name ≠ name)
    (htemp : ∀ j, ∀ t ∈ (held j).temp, t.name ≠ name) : WritersInv start calls (g.unlink name) held where
  probed := h.probed
  allocated := h.allocated
  stale j p hp hlocked := by
    obtain ⟨hthere, hother⟩ := h.stale j p hp hlocked
    refine ⟨fun hremoved => ?_, hother⟩
    rw [Directory.names_unlink, if_neg (hprobe j p hp hlocked hremoved)]
    exact hthere hremoved
  alone := h.alone
  there j t ht := by
    obtain ⟨htname, hthere, honly⟩ := h.there j t ht
    rw [Directory.names_unlink, if_neg (htemp j t ht)]
    refine ⟨htname, hthere, fun n hn => honly n ?_⟩
    rw [Directory.names_unlink] at hn
    exact (Option.ite_none_left_eq_some.1 hn).2
  written := h.written
  own := h.own
  kept := h.kept
  content target ht := by
    have hread : (g.unlink name).read target = g.read target := by
      have hne : target ≠ name := fun heq => ht (heq.symm ▸ hname)
      rw [Directory.read, Directory.names_unlink, if_neg hne]
      rfl
    rw [hread]
    exact h.content target ht

/-- What is written to a temp file is not in any target. -/
theorem WritersInv.rewrite (h : WritersInv start calls g held) (hnames : g'.names = g.names) (hnext : g'.next = g.next)
    (hdata : ∀ x, (∀ j, ∀ t ∈ (held j).temp, t.inode ≠ x) → g'.data x = g.data x)
    (hprobe : ∀ j, (held' j).probe = (held j).probe) (hkept : ∀ j, (held' j).kept = (held j).kept)
    (htemp : ∀ j, ∀ t ∈ (held' j).temp, g'.data t.inode = t.written ∧
      ∃ u ∈ (held j).temp, u.name = t.name ∧ u.inode = t.inode) : WritersInv start calls g' held' where
  probed j p hp := h.probed j p (hprobe j ▸ hp)
  allocated j p hp hlocked := hnext ▸ h.allocated j p (hprobe j ▸ hp) hlocked
  stale j p hp hlocked := by
    obtain ⟨hthere, hother⟩ := h.stale j p (hprobe j ▸ hp) hlocked
    refine ⟨fun hremoved => hnames ▸ hthere hremoved, fun k t ht => ?_⟩
    obtain ⟨-, u, hu, -, hinode⟩ := htemp k t ht
    exact hinode ▸ hother k u hu
  alone j k p hp q hq := h.alone j k p (hprobe j ▸ hp) q (hprobe k ▸ hq)
  there j t ht := by
    obtain ⟨-, u, hu, hname, hinode⟩ := htemp j t ht
    rw [← hname, ← hinode, hnames]
    exact h.there j u hu
  written j t ht := (htemp j t ht).1
  own j k t ht u hu heq := by
    obtain ⟨-, t', ht', -, hinode⟩ := htemp j t ht
    obtain ⟨-, u', hu', -, hinode'⟩ := htemp k u hu
    exact h.own j k t' ht' u' hu' (hinode.trans (heq.trans hinode'.symm))
  kept j x hx := by
    obtain ⟨hlt, hother⟩ := h.kept j x (hkept j ▸ hx)
    refine ⟨hnext ▸ hlt, fun k t ht => ?_⟩
    obtain ⟨-, u, hu, -, hinode⟩ := htemp k t ht
    exact hinode ▸ hother k u hu
  content target ht := by
    have hread : g'.read target = g.read target := by
      rw [Directory.read, Directory.read, hnames]
      cases hx : g.names target with
      | none => rfl
      | some x =>
        refine congrArg some (hdata x fun j t htj heq => ht ?_)
        obtain ⟨hname, -, honly⟩ := h.there j t htj
        exact honly target (heq ▸ hx) ▸ hname
    rw [hread]
    exact h.content target ht

section

variable [DecidableEq ι]

theorem mem_update {β : Type} (f : OpenFiles → Option β) {x : β} :
    x ∈ f (Function.update held i l j) ↔ (j = i ∧ x ∈ f l) ∨ (j ≠ i ∧ x ∈ f (held j)) := by
  by_cases hj : j = i
  · subst hj
    simp
  · simp [hj]

/-- A part of what is held that the update leaves alone. -/
theorem update_same {β : Type} (held : ι → OpenFiles) (i : ι) (l : OpenFiles) (f : OpenFiles → Option β)
    (h : f l = f (held i)) (j : ι) :
    f (Function.update held i l j) = f (held j) := by
  by_cases hj : j = i
  · subst hj
    rw [Function.update_self, h]
  · rw [Function.update_of_ne hj]

theorem WritersInv.lockProbe (h : WritersInv start calls g held) {p : Probe} (hp : p ∈ (held i).probe)
    (hfree : ¬ Locked held p.inode) (hthere : g.names p.name = some p.inode)
    (hother : ∀ j, ∀ t ∈ (held j).temp, t.inode ≠ p.inode) :
    WritersInv start calls g (Function.update held i { held i with probe := some { p with locked := true } }) := by
  let l : OpenFiles := { held i with probe := some { p with locked := true } }
  have htemp := update_same held i l (·.temp) rfl
  have hkept := update_same held i l (·.kept) rfl
  have hfree' : ∀ j, ∀ q ∈ (held j).probe, q.locked = true → q.inode ≠ p.inode := fun j q hq hl heq =>
    hfree ⟨j, .inl ⟨q, hq, heq, hl⟩⟩
  refine ⟨fun j q hq => ?_, fun j q hq hl => ?_, fun j q hq hl => ?_, fun j k q hq r hr hlq hlr heq => ?_,
    fun j t ht => h.there j t (htemp j ▸ ht), fun j t ht => h.written j t (htemp j ▸ ht),
    fun j k t ht u hu => h.own j k t (htemp j ▸ ht) u (htemp k ▸ hu), fun j x hx => ?_, h.content⟩
  · rcases (mem_update (·.probe)).1 hq with ⟨rfl, hq⟩ | ⟨-, hq⟩
    · obtain rfl := Option.some.inj hq
      exact h.probed j p hp
    · exact h.probed j q hq
  · rcases (mem_update (·.probe)).1 hq with ⟨rfl, hq⟩ | ⟨-, hq⟩
    · obtain rfl := Option.some.inj hq
      exact g.bounded p.name p.inode hthere
    · exact h.allocated j q hq hl
  · rcases (mem_update (·.probe)).1 hq with ⟨rfl, hq⟩ | ⟨-, hq⟩
    · obtain rfl := Option.some.inj hq
      exact ⟨fun _ => hthere, fun k t ht => hother k t (htemp k ▸ ht)⟩
    · obtain ⟨hname, hrest⟩ := h.stale j q hq hl
      exact ⟨hname, fun k t ht => hrest k t (htemp k ▸ ht)⟩
  · rcases (mem_update (·.probe)).1 hq with ⟨hj, hq⟩ | ⟨hj, hq⟩
    · rcases (mem_update (·.probe)).1 hr with ⟨hk, hr⟩ | ⟨hk, hr⟩
      · exact hj.trans hk.symm
      · obtain rfl := Option.some.inj hq
        exact absurd heq.symm (hfree' k r hr hlr)
    · rcases (mem_update (·.probe)).1 hr with ⟨hk, hr⟩ | ⟨hk, hr⟩
      · obtain rfl := Option.some.inj hr
        exact absurd heq (hfree' j q hq hlq)
      · exact h.alone j k q hq r hr hlq hlr heq
  · obtain ⟨hlt, hrest⟩ := h.kept j x (hkept j ▸ hx)
    exact ⟨hlt, fun k t ht => hrest k t (htemp k ▸ ht)⟩

theorem WritersInv.removeFile (h : WritersInv start calls g held) {p : Probe} (hp : p ∈ (held i).probe)
    (hlocked : p.locked = true) (hthere : g.names p.name = some p.inode) :
    WritersInv start calls (g.unlink p.name)
      (Function.update held i { held i with probe := (held i).probe.map fun p => { p with removed := true } }) := by
  let l : OpenFiles := { held i with probe := (held i).probe.map fun p => { p with removed := true } }
  have hl : l.probe = some { p with removed := true } := congrArg (Option.map _) hp
  have htemp := update_same held i l (·.temp) rfl
  have hkept := update_same held i l (·.kept) rfl
  have hprobe : ∀ j, ∀ q ∈ (Function.update held i l j).probe, ∃ r ∈ (held j).probe,
      r.name = q.name ∧ r.inode = q.inode ∧ r.locked = q.locked ∧ (q.removed = false → j ≠ i ∧ r.removed = false) := by
    intro j q hq
    rcases (mem_update (·.probe)).1 hq with ⟨rfl, hq⟩ | ⟨hj, hq⟩
    · obtain rfl := Option.some.inj (hl.symm.trans hq)
      exact ⟨p, hp, rfl, rfl, rfl, fun hno => by cases hno⟩
    · exact ⟨q, hq, rfl, rfl, rfl, fun hno => ⟨hj, hno⟩⟩
  -- the probe that has removed its file no longer says that the file is there
  have held' : WritersInv start calls g (Function.update held i l) := by
    refine ⟨fun j q hq => ?_, fun j q hq hlq => ?_, fun j q hq hlq => ?_, fun j k q hq r hr hlq hlr heq => ?_,
      fun j t ht => h.there j t (htemp j ▸ ht), fun j t ht => h.written j t (htemp j ▸ ht),
      fun j k t ht u hu => h.own j k t (htemp j ▸ ht) u (htemp k ▸ hu), fun j x hx => ?_, h.content⟩
    · obtain ⟨r, hr, hname, -⟩ := hprobe j q hq
      exact hname ▸ h.probed j r hr
    · obtain ⟨r, hr, -, hinode, hlock, -⟩ := hprobe j q hq
      exact hinode ▸ h.allocated j r hr (hlock.trans hlq)
    · obtain ⟨r, hr, hname, hinode, hlock, hremoved⟩ := hprobe j q hq
      obtain ⟨hstill, hother⟩ := h.stale j r hr (hlock.trans hlq)
      rw [← hname, ← hinode]
      exact ⟨fun hno => hstill (hremoved hno).2, fun k t ht => hother k t (htemp k ▸ ht)⟩
    · obtain ⟨q', hq', -, hinode, hlock, -⟩ := hprobe j q hq
      obtain ⟨r', hr', -, hinode', hlock', -⟩ := hprobe k r hr
      exact h.alone j k q' hq' r' hr' (hlock.trans hlq) (hlock'.trans hlr) (hinode.trans (heq.trans hinode'.symm))
    · obtain ⟨hlt, hrest⟩ := h.kept j x (hkept j ▸ hx)
      exact ⟨hlt, fun k t ht => hrest k t (htemp k ▸ ht)⟩
  refine held'.unlink (h.probed i p hp) (fun j q hq hlq hremoved heq => ?_) fun j t ht heq => ?_
  · obtain ⟨r, hr, hname, hinode, hlock, hstill⟩ := hprobe j q hq
    obtain ⟨hj, hno⟩ := hstill hremoved
    have hsame : g.names r.name = some r.inode := (h.stale j r hr (hlock.trans hlq)).1 hno
    rw [hname, heq, hthere] at hsame
    exact hj (h.alone j i r hr p hp (hlock.trans hlq) hlocked (Option.some.inj hsame).symm)
  · have hsame := (h.there j t (htemp j ▸ ht)).2.1
    rw [heq, hthere] at hsame
    exact (h.stale i p hp hlocked).2 j t (htemp j ▸ ht) (Option.some.inj hsame).symm

theorem WritersInv.createTemp (h : WritersInv start calls g held) {name : String} (hname : IsTemp name)
    (hnew : g.names name = none) : WritersInv start calls (g.create name)
      (Function.update held i { held i with temp := some ⟨name, g.next, false, []⟩ }) := by
  let l : OpenFiles := { held i with temp := some ⟨name, g.next, false, []⟩ }
  have hprobe := update_same held i l (·.probe) rfl
  have hkept := update_same held i l (·.kept) rfl
  have htemp : ∀ j, ∀ t ∈ (Function.update held i l j).temp, (j = i ∧ t = ⟨name, g.next, false, []⟩) ∨
    t ∈ (held j).temp := by
    intro j t ht
    rcases (mem_update (·.temp)).1 ht with ⟨hj, ht⟩ | ⟨-, ht⟩
    · exact .inl ⟨hj, (Option.some.inj ht).symm⟩
    · exact .inr ht
  -- the new file gets an inode that nobody holds and a name that nothing had
  have fresh : ∀ j, ∀ t ∈ (held j).temp, t.inode < g.next := fun j t ht => g.bounded _ _ (h.there j t ht).2.1
  have old : ∀ {n x}, g.names n = some x → (g.create name).names n = some x := by
    intro n x hx
    have hne : n ≠ name := fun heq => by
      rw [heq, hnew] at hx
      cases hx
    rw [Directory.names_create, if_neg hne, hx]
  refine ⟨fun j p hp => h.probed j p (hprobe j ▸ hp),
    fun j p hp hlocked => Nat.lt_succ_of_lt (h.allocated j p (hprobe j ▸ hp) hlocked), fun j p hp hlocked => ?_,
    fun j k p hp q hq => h.alone j k p (hprobe j ▸ hp) q (hprobe k ▸ hq), fun j t ht => ?_, fun j t ht => ?_,
    fun j k t ht u hu heq => ?_, fun j x hx => ?_, fun target hno => ?_⟩
  · obtain ⟨hthere, hother⟩ := h.stale j p (hprobe j ▸ hp) hlocked
    refine ⟨fun hremoved => old (hthere hremoved), fun k t ht => ?_⟩
    rcases htemp k t ht with ⟨-, rfl⟩ | ht
    · exact (h.allocated j p (hprobe j ▸ hp) hlocked).ne'
    · exact hother k t ht
  · rcases htemp j t ht with ⟨-, rfl⟩ | ht
    · refine ⟨hname, by simp, fun n hn => ?_⟩
      by_contra hne
      rw [Directory.names_create, if_neg hne] at hn
      exact absurd (g.bounded n _ hn) (lt_irrefl _)
    · obtain ⟨hisTemp, hthere, honly⟩ := h.there j t ht
      refine ⟨hisTemp, old hthere, fun n hn => ?_⟩
      by_cases hne : n = name
      · rw [hne, Directory.names_create, if_pos rfl] at hn
        exact absurd (Option.some.inj hn) (fresh j t ht).ne'
      · rw [Directory.names_create, if_neg hne] at hn
        exact honly n hn
  · rcases htemp j t ht with ⟨-, rfl⟩ | ht
    · simp
    · rw [Directory.data_create, if_neg (fresh j t ht).ne]
      exact h.written j t ht
  · rcases htemp j t ht with ⟨hj, rfl⟩ | ht
    · rcases htemp k u hu with ⟨hk, rfl⟩ | hu
      · exact hj.trans hk.symm
      · exact absurd heq (fresh k u hu).ne'
    · rcases htemp k u hu with ⟨hk, rfl⟩ | hu
      · exact absurd heq (fresh j t ht).ne
      · exact h.own j k t ht u hu heq
  · obtain ⟨hlt, hother⟩ := h.kept j x (hkept j ▸ hx)
    refine ⟨Nat.lt_succ_of_lt hlt, fun k t ht => ?_⟩
    rcases htemp k t ht with ⟨-, rfl⟩ | ht
    · exact hlt.ne'
    · exact hother k t ht
  · have hread : (g.create name).read target = g.read target := by
      have hne : target ≠ name := fun heq => hno (heq.symm ▸ hname)
      rw [Directory.read, Directory.read, Directory.names_create, if_neg hne]
      cases hx : g.names target with
      | none => rfl
      | some x =>
        refine congrArg some ?_
        rw [Directory.data_create, if_neg (g.bounded target x hx).ne]
    rw [hread]
    exact h.content target hno

theorem WritersInv.lockTemp (h : WritersInv start calls g held) {t : Temp} (ht : t ∈ (held i).temp) :
    WritersInv start calls g (Function.update held i { held i with temp := some { t with locked := true } }) := by
  let l : OpenFiles := { held i with temp := some { t with locked := true } }
  refine h.rewrite rfl rfl (fun _ _ =>
    rfl) (update_same held i l (·.probe) rfl) (update_same held i l (·.kept) rfl) fun j u hu => ?_
  rcases (mem_update (·.temp)).1 hu with ⟨rfl, hu⟩ | ⟨-, hu⟩
  · obtain rfl := Option.some.inj hu
    exact ⟨h.written j t ht, t, ht, rfl, rfl⟩
  · exact ⟨h.written j u hu, u, hu, rfl, rfl⟩

/-- What is written, all of it or a part. -/
theorem WritersInv.write (h : WritersInv start calls g held) {t : Temp} (ht : t ∈ (held i).temp) (bytes : Bytes) :
    WritersInv start calls (g.append t.inode bytes)
      (Function.update held i { held i with temp := some { t with written := t.written ++ bytes } }) := by
  let l : OpenFiles := { held i with temp := some { t with written := t.written ++ bytes } }
  refine h.rewrite rfl rfl (fun x hx => ?_) (update_same held i l (·.probe) rfl)
    (update_same held i l (·.kept) rfl) fun j u hu => ?_
  · rw [Directory.data_append, if_neg (hx i t ht).symm]
  · rcases (mem_update (·.temp)).1 hu with ⟨rfl, hu⟩ | ⟨hj, hu⟩
    · obtain rfl := Option.some.inj hu
      refine ⟨?_, t, ht, rfl, rfl⟩
      rw [Directory.data_append, if_pos rfl, h.written j t ht]
    · refine ⟨?_, u, hu, rfl, rfl⟩
      rw [Directory.data_append, if_neg fun heq => hj (h.own j i u hu t ht heq)]
      exact h.written j u hu

/-- A temp file that is dropped, removed or not. -/
theorem WritersInv.dropped (h : WritersInv start calls g held) :
    WritersInv start calls g (Function.update held i { held i with temp := none }) := by
  have hprobe := update_same held i { held i with temp := none } (·.probe) rfl
  refine h.release (fun j p hp => h.probed j p (hprobe j ▸ hp)) (fun j p hp _ => hprobe j ▸ hp) (fun j t ht => ?_)
    fun j x hx => update_same held i { held i with temp := none } (·.kept) rfl j ▸ hx
  rcases (mem_update (·.temp)).1 ht with ⟨-, ht⟩ | ⟨-, ht⟩
  · cases ht
  · exact ht

theorem WritersInv.dropTemp (h : WritersInv start calls g held) {t : Temp} (ht : t ∈ (held i).temp) :
    WritersInv start calls (g.unlink t.name) (Function.update held i { held i with temp := none }) := by
  have hprobe := update_same held i { held i with temp := none } (·.probe) rfl
  obtain ⟨hname, hthere, -⟩ := h.there i t ht
  refine h.dropped.unlink hname (fun j p hp hlocked hremoved heq => ?_) fun j u hu heq => ?_
  · obtain ⟨hstill, hother⟩ := h.stale j p (hprobe j ▸ hp) hlocked
    have hsame := hstill hremoved
    rw [heq, hthere] at hsame
    exact hother i t ht (Option.some.inj hsame)
  · rcases (mem_update (·.temp)).1 hu with ⟨-, hu⟩ | ⟨hj, hu⟩
    · cases hu
    · have hsame := (h.there j u hu).2.1
      rw [heq, hthere] at hsame
      exact hj (h.own j i u hu t ht (Option.some.inj hsame).symm)

theorem WritersInv.persist (h : WritersInv start calls g held) {t : Temp} (ht : t ∈ (held i).temp) {target : String}
    (hno : ¬ IsTemp target) (hwhole : Complete calls target t.written) {x : Inode} (hx : g.names t.name = some x) :
    WritersInv start calls (g.rename t.name target x hx)
      (Function.update held i { held i with temp := none, kept := if t.locked then some t.inode else none }) := by
  let l : OpenFiles := { held i with temp := none, kept := if t.locked then some t.inode else none }
  have hprobe := update_same held i l (·.probe) rfl
  obtain ⟨hname, hthere, honly⟩ := h.there i t ht
  obtain rfl : t.inode = x := Option.some.inj (hthere.symm.trans hx)
  have htemp : ∀ j, ∀ u ∈ (Function.update held i l j).temp, u ∈ (held j).temp ∧ u.inode ≠ t.inode := by
    intro j u hu
    rcases (mem_update (·.temp)).1 hu with ⟨-, hu⟩ | ⟨hj, hu⟩
    · cases hu
    · exact ⟨hu, fun heq => hj (h.own j i u hu t ht heq)⟩
  -- no other temporary file is at the two names that change
  have other : ∀ {n}, IsTemp n → g.names n ≠ some t.inode → (g.rename t.name target t.inode hx).names n =
    g.names n := by
    intro n hn hne
    have hntarget : n ≠ target := fun heq => hno (heq ▸ hn)
    have hnsource : n ≠ t.name := fun heq => hne (heq ▸ hx)
    rw [Directory.names_rename, if_neg hntarget, if_neg hnsource]
  refine ⟨fun j p hp => h.probed j p (hprobe j ▸ hp), fun j p hp => h.allocated j p (hprobe j ▸ hp),
    fun j p hp hlocked => ?_,
    fun j k p hp q hq => h.alone j k p (hprobe j ▸ hp) q (hprobe k ▸ hq), fun j u hu => ?_,
    fun j u hu => h.written j u (htemp j u hu).1, fun j k u hu v hv => h.own j k u (htemp j u hu).1 v (htemp k v hv).1,
    fun j y hy => ?_, fun other ho => ?_⟩
  · obtain ⟨hstill, hother⟩ := h.stale j p (hprobe j ▸ hp) hlocked
    refine ⟨fun hremoved => ?_, fun k u hu => hother k u (htemp k u hu).1⟩
    have hp' := hstill hremoved
    rw [other (h.probed j p (hprobe j ▸ hp)) fun heq => hother i t ht (Option.some.inj (heq.symm.trans hp'))]
    exact hp'
  · obtain ⟨hu, hne⟩ := htemp j u hu
    obtain ⟨huname, huthere, huonly⟩ := h.there j u hu
    rw [other huname fun heq => hne (Option.some.inj (huthere.symm.trans heq))]
    refine ⟨huname, huthere, fun n hn => ?_⟩
    rw [Directory.names_rename] at hn
    split at hn
    · exact absurd (Option.some.inj hn).symm hne
    · exact huonly n (Option.ite_none_left_eq_some.1 hn).2
  · rcases (mem_update (·.kept)).1 hy with ⟨-, hy⟩ | ⟨-, hy⟩
    · obtain rfl : t.inode = y := Option.some.inj (Option.ite_none_right_eq_some.1 hy).2
      exact ⟨g.bounded _ _ hx, fun k u hu => (htemp k u hu).2⟩
    · obtain ⟨hlt, hrest⟩ := h.kept j y hy
      exact ⟨hlt, fun k u hu => hrest k u (htemp k u hu).1⟩
  · -- the target reads as what was written to the end; the old name is no vault path
    by_cases hot : other = target
    · refine .inr ⟨t.written, ?_, hot ▸ hwhole⟩
      rw [Directory.read, Directory.names_rename, if_pos hot]
      exact congrArg some (h.written i t ht)
    · have hsource : other ≠ t.name := fun heq => ho (heq.symm ▸ hname)
      have hread : (g.rename t.name target t.inode hx).read other = g.read other := by
        rw [Directory.read, Directory.names_rename, if_neg hot, if_neg hsource]
        rfl
      rw [hread]
      exact h.content other ho

/-- A request keeps the invariant. -/
theorem writersInv_exec (h : WritersInv start calls g held) {op : AtomicOp} {a : AtomicAnswer op}
    (hask : MayRequest calls (held i) op)
    (hstale : TakesStale g held i op a) (hexec : Exec g held i op a g' l) :
    WritersInv start calls g' (Function.update held i l) := by
  have same : WritersInv start calls g (Function.update held i (held i)) := by rwa [Function.update_eq_self]
  -- an answer that fails changes nothing, but for a write (a part of the bytes is there) and a drop (the file stays)
  cases hexec with
  | readDir _ _ => exact same
  | readDirFails _ => exact same
  | @openProbe name x hx =>
    let l : OpenFiles := { held i with probe := some ⟨name, x, false, false⟩ }
    have htemp := update_same held i l (·.temp) rfl
    have hkept := update_same held i l (·.kept) rfl
    refine h.release (fun j p hp => ?_) (fun j p hp hlocked => ?_) (fun j t ht => htemp j ▸ ht) fun j x hx =>
      hkept j ▸ hx
    · rcases (mem_update (·.probe)).1 hp with ⟨-, hp⟩ | ⟨-, hp⟩
      · obtain rfl := Option.some.inj hp
        exact hask
      · exact h.probed j p hp
    · rcases (mem_update (·.probe)).1 hp with ⟨-, hp⟩ | ⟨-, hp⟩
      · obtain rfl := Option.some.inj hp
        cases hlocked
      · exact hp
  | openProbeGone _ => exact same
  | openProbeFails _ => exact same
  | @lockProbe p hp hfree =>
    obtain ⟨hthere, hother⟩ := hstale p hp
    exact h.lockProbe hp hfree hthere hother
  | lockProbeHeld _ _ => exact same
  | lockProbeFails _ => exact same
  | removeFile hx =>
    obtain ⟨p, hp, hlocked, hremoved, rfl⟩ := hask
    exact h.removeFile hp hlocked ((h.stale i p hp hlocked).1 hremoved)
  | removeFileGone _ => exact same
  | removeFileFails _ => exact same
  | closeProbe =>
    let l : OpenFiles := { held i with probe := none }
    have htemp := update_same held i l (·.temp) rfl
    have hkept := update_same held i l (·.kept) rfl
    have hprobe : ∀ j, ∀ p ∈ (Function.update held i l j).probe, p ∈ (held j).probe := by
      intro j p hp
      rcases (mem_update (·.probe)).1 hp with ⟨-, hp⟩ | ⟨-, hp⟩
      · cases hp
      · exact hp
    exact h.release (fun j p hp => h.probed j p (hprobe j p hp)) (fun j p hp _ => hprobe j p hp) (fun j t ht =>
      htemp j ▸ ht)
      fun j x hx => hkept j ▸ hx
  | createTemp hname hnew => exact h.createTemp hname hnew
  | createTempFails _ => exact same
  | lockTemp ht _ => exact h.lockTemp ht
  | lockTempHeld _ _ => exact same
  | lockTempFails _ => exact same
  | write ht => exact h.write ht _
  | writeFails _ ht _ => exact h.write ht _
  | syncTemp => exact same
  | syncTempFails _ => exact same
  | persist ht hx =>
    obtain ⟨hno, t, ht', hwhole⟩ := hask
    obtain rfl := Option.some.inj (ht.symm.trans ht')
    exact h.persist ht hno hwhole hx
  | persistGone _ _ => exact same
  | persistFails _ => exact same
  | dropTemp ht => exact h.dropTemp ht
  | dropTempFails => exact h.dropped
  | syncParentDir => exact same
  | syncParentDirFails _ => exact same

/-- A process that ends leaves its files behind, closed. -/
theorem WritersInv.stop (h : WritersInv start calls g held) (i : ι) :
    WritersInv start calls g (Function.update held i {}) := by
  have nothing : ∀ {β : Type} (f : OpenFiles → Option β), f {} = none → ∀ j, ∀ x ∈ f (Function.update held i {} j),
    x ∈ f (held j) := by
    intro β f hf j x hx
    rcases (mem_update f).1 hx with ⟨-, hx⟩ | ⟨-, hx⟩
    · cases hf.symm.trans hx
    · exact hx
  exact h.release (fun j p hp => h.probed j p (nothing (·.probe) rfl j p hp)) (fun j p hp _ =>
    nothing (·.probe) rfl j p hp)
    (nothing (·.temp) rfl) (nothing (·.kept) rfl)

end

/-- A lock on a temp file is one that its writer has. -/
theorem WritersInv.locked (h : WritersInv start calls g held) {t : Temp} (ht : t ∈ (held i).temp)
    (hlocked : Locked held t.inode) :
    t.locked = true := by
  obtain ⟨j, ⟨p, hp, heq, hl⟩ | ⟨u, hu, heq, hl⟩ | hx⟩ := hlocked
  · exact absurd heq.symm ((h.stale j p hp hl).2 i t ht)
  · obtain rfl := h.own j i u hu t ht heq
    obtain rfl := Option.some.inj (hu.symm.trans ht)
    exact hl
  · exact absurd rfl ((h.kept j _ hx).2 i t ht)

/-! ## What a call asks for -/

/-- What a process sees of a request while the invariant holds, if cleanups take only stale files. -/
abbrev SeenBy (start : Directory) (calls : ι → WriteCall → Prop) (l : OpenFiles) (op : AtomicOp) (a : AtomicAnswer op)
    (l' : OpenFiles) : Prop :=
  ((fileSystem ι).restrict TakesStale).Seen (WritersInv start calls) l op a l'

/-- What a request of a call may be answered, and what the process holds then. -/
def MaySee (l : OpenFiles) (op : AtomicOp) (a : AtomicAnswer op) (l' : OpenFiles) : Prop :=
  match op, a with
  | .readDir, .ok entries => ∀ e, .error e ∈ entries → ∃ code, e = .other code
  | .openProbe name, .ok () => ∃ x, l'.probe = some ⟨name, x, false, false⟩
  | .openProbe _, .error e => e = .notFound ∨ ∃ code, e = .other code
  | .lockProbe, .ok () => ∃ p ∈ l.probe, l'.probe = some { p with locked := true }
  | .lockProbe, .error e => e = .wouldBlock ∨ ∃ code, e = .other code
  | .createTemp, .ok () => ∃ t, l'.temp = some t ∧ t.locked = false ∧ t.written = []
  | .lockTemp, .ok () => ∃ t ∈ l.temp, l'.temp = some { t with locked := true }
  | .write chunk, .ok () => ∃ t ∈ l.temp, l'.temp = some { t with written := t.written ++ chunk }
  | .syncTemp, .ok () => l' = l
  | .removeFile _, .ok () | .persist _, .ok () | .syncParentDir, .ok () | .closeProbe, () | .dropTemp, () => True
  | .readDir, .error e | .removeFile _, .error e | .createTemp, .error e | .lockTemp, .error e | .write _, .error e
  | .syncTemp, .error e | .persist _, .error e | .syncParentDir, .error e => ∃ code, e = .other code

theorem maySee {op : AtomicOp} {a : AtomicAnswer op} {l l' : OpenFiles} (hask : MayRequest calls l op)
    (hseen : SeenBy start calls l op a l') : MaySee l op a l' := by
  obtain ⟨g, held, i, g', h, rfl, -, hexec⟩ := hseen
  cases hexec with
  | readDir _ hentries => exact hentries
  | readDirFails code => exact ⟨code, rfl⟩
  | openProbe _ => exact ⟨_, rfl⟩
  | openProbeGone _ => exact .inl rfl
  | openProbeFails code => exact .inr ⟨code, rfl⟩
  | lockProbe hp _ => exact ⟨_, hp, rfl⟩
  | lockProbeHeld _ _ => exact .inl rfl
  | lockProbeFails code => exact .inr ⟨code, rfl⟩
  | removeFile _ => trivial
  | removeFileGone hgone =>
    -- a locked probe is still there
    obtain ⟨p, hp, hlocked, hremoved, rfl⟩ := hask
    cases hgone.symm.trans ((h.stale i p hp hlocked).1 hremoved)
  | removeFileFails code => exact ⟨code, rfl⟩
  | closeProbe => trivial
  | createTemp _ _ => exact ⟨_, rfl, rfl, rfl⟩
  | createTempFails code => exact ⟨code, rfl⟩
  | lockTemp ht _ => exact ⟨_, ht, rfl⟩
  | lockTempHeld ht hlocked =>
    -- nobody else may have locked it
    obtain ⟨u, hu, hfree⟩ := hask
    obtain rfl := Option.some.inj (hu.symm.trans ht)
    cases hfree.symm.trans (h.locked ht hlocked)
  | lockTempFails code => exact ⟨code, rfl⟩
  | write ht => exact ⟨_, ht, rfl⟩
  | writeFails code _ _ => exact ⟨code, rfl⟩
  | syncTemp => rfl
  | syncTempFails code => exact ⟨code, rfl⟩
  | persist _ _ => trivial
  | persistGone ht hgone => cases hgone.symm.trans (h.there i _ ht).2.1
  | persistFails code => exact ⟨code, rfl⟩
  | dropTemp _ => trivial
  | dropTempFails => trivial
  | syncParentDir => trivial
  | syncParentDirFails code => exact ⟨code, rfl⟩

/-- The program asks only for what it may, fails for reasons of its own, and otherwise ends with `Q`. -/
def Behaves (start : Directory) (calls : ι → WriteCall → Prop) {α : Type} (Q : OpenFiles → α → Prop) (l : OpenFiles)
    (p : AtomicRun α) : Prop :=
  p.Upholds (MayRequest calls) (SeenBy start calls) Q (fun _ e => Unhindered calls e) l

section

variable {α β : Type} {Q : OpenFiles → β → Prop} {l : OpenFiles}

theorem Behaves.ask {op : AtomicOp} {f : AtomicAnswer op → AtomicRun β} (hask : MayRequest calls l op)
    (h : ∀ a l', MaySee l op a l' → Behaves start calls Q l' (f a)) :
    Behaves start calls Q l (request AtomicAnswer op >>= f) :=
  ⟨hask, fun a l' hseen => h a l' (maySee hask hseen)⟩

theorem Behaves.bind {R : OpenFiles → α → Prop} {p : AtomicRun α} {f : α → AtomicRun β} (h : Behaves start calls R l p)
    (hf : ∀ l a, R l a → Behaves start calls Q l (f a)) : Behaves start calls Q l (p >>= f) :=
  Upholds.bind (Upholds.mono hf h)

theorem Behaves.failed {e : FileError} (h : Unhindered calls e) : Behaves start calls Q l (fail e) := h

/-- An error of the file system is nobody's fault. -/
theorem unhindered_io (calls : ι → WriteCall → Prop) {e : IoError} (h : ∃ code, e = .other code) (path : String) :
    Unhindered calls (.io e path) := by
  obtain ⟨code, rfl⟩ := h
  exact .inl ⟨code, path, rfl⟩

theorem cleanupEntry_behaves (name : String) : Behaves start calls (fun _ _ => True) l (cleanupEntry name) := by
  rw [cleanupEntry]
  by_cases hname : IsTemp name
  · rw [if_pos hname]
    refine .ask hname fun a l' hopen => ?_
    cases a with
    | error e =>
      rcases hopen with rfl | ⟨code, rfl⟩
      · exact trivial
      · exact .failed (.inl ⟨code, name, rfl⟩)
    | ok _ =>
      obtain ⟨x, hprobe⟩ := hopen
      refine .ask trivial fun a l'' hlock => ?_
      cases a with
      | error e =>
        rcases hlock with rfl | ⟨code, rfl⟩
        · exact .ask trivial fun _ _ _ => trivial
        · exact .ask trivial fun _ _ _ => .failed (.inl ⟨code, name, rfl⟩)
      | ok _ =>
        obtain ⟨p, hp, hlocked⟩ := hlock
        obtain rfl := Option.some.inj (hprobe.symm.trans hp)
        refine .ask ⟨_, hlocked, rfl, rfl, rfl⟩ fun removed _ hremove => .ask trivial fun _ _ _ => ?_
        cases removed with
        | error e => exact .failed (unhindered_io calls hremove name)
        | ok _ => exact trivial
  · rw [if_neg hname]
    exact trivial

theorem cleanupEntries_behave {entries : List (Except IoError String)}
    (h : ∀ e, .error e ∈ entries → ∃ code, e = .other code) :
    Behaves start calls (fun _ _ => True) l (cleanupEntries entries) := by
  induction entries generalizing l with
  | nil => exact trivial
  | cons entry entries ih =>
    cases entry with
    | error e => exact .failed (unhindered_io calls (h e List.mem_cons_self) parentPath)
    | ok name => exact (cleanupEntry_behaves name).bind fun l _ _ => ih fun e he => h e (List.mem_cons_of_mem _ he)

theorem cleanup_behaves : Behaves start calls (fun _ _ => True) l cleanupStaleTempFiles := by
  refine .ask trivial fun a l' hread => ?_
  cases a with
  | error e => exact .failed (unhindered_io calls hread parentPath)
  | ok entries => exact cleanupEntries_behave hread

theorem orDrop_behaves {R : OpenFiles → Unit → Prop} {report : IoError → FileError} {a : Except IoError Unit}
    (hok : a = .ok () → R l ()) (herror : ∀ e, a = .error e → Unhindered calls (report e)) :
    Behaves start calls R l (orDrop report a) := by
  cases a with
  | ok _ => exact hok rfl
  | error e => exact .ask trivial fun _ _ _ => .failed (herror e rfl)

theorem writeChunks_behaves {failed : IoError → FileError} (hfailed : ∀ code, Unhindered calls (failed (.other code)))
    (chunks : List Bytes) {t : Temp} (ht : t ∈ l.temp) :
    Behaves start calls (fun l' _ => ∃ u ∈ l'.temp, u.written = t.written ++ chunks.flatten) l
      (writeChunks failed chunks) := by
  induction chunks generalizing l t with
  | nil => exact ⟨t, ht, (List.append_nil _).symm⟩
  | cons chunk chunks ih =>
    refine .bind (R := fun l' _ => ∃ u ∈ l'.temp, u.written = t.written ++ chunk) (.ask trivial fun a l' hwrite =>
      ?_) ?_
    · refine orDrop_behaves (fun hok => ?_) fun e he => ?_
      · subst hok
        obtain ⟨u, hu, hl'⟩ := hwrite
        obtain rfl := Option.some.inj (ht.symm.trans hu)
        exact ⟨_, hl', rfl⟩
      · subst he
        obtain ⟨code, rfl⟩ := hwrite
        exact hfailed code
    · rintro l' - ⟨u, hu, hwritten⟩
      have hrest := ih hu
      rw [hwritten, List.append_assoc, ← List.flatten_cons] at hrest
      exact hrest

/-- The closure ends with all of its content in the temp file, if it does not fail. -/
theorem writeContent_behaves {c : WriteCall} (hc : calls i c) {t : Temp} (ht : t ∈ l.temp) (hnew : t.written = []) :
    Behaves start calls (fun l' _ => ∃ u ∈ l'.temp, Complete calls c.target u.written) l (writeContent c.content) := by
  refine (writeChunks_behaves (fun code => .inr ⟨i, c, hc, .inl ⟨code, rfl⟩⟩) c.content.chunks ht).bind ?_
  rintro l' - ⟨u, hu, hwritten⟩
  rw [hnew, List.nil_append] at hwritten
  cases hresult : c.content.result with
  | ok _ => exact ⟨u, hu, i, c, hc, rfl, hresult, hwritten⟩
  | error e => exact .ask trivial fun _ _ _ => .failed (.inr ⟨i, c, hc, .inr hresult⟩)

/-- A call asks only for what it may, and fails for reasons of its own. -/
theorem writeAtomicWith_behaves {c : WriteCall} (hc : calls i c) (htarget : ¬ IsTemp c.target) :
    Behaves start calls (fun _ _ => True) l (writeAtomicWith c.target c.content) := by
  refine cleanup_behaves.bind fun l _ _ => .ask trivial fun a l hcreate => ?_
  cases a with
  | error e => exact .failed (unhindered_io calls hcreate parentPath)
  | ok _ =>
    obtain ⟨t, ht, hfree, hnew⟩ := hcreate
    refine .bind (R := fun l' _ => ∃ u ∈ l'.temp, u.written = []) (.ask ⟨t, ht, hfree⟩ fun a l' hlock => ?_) ?_
    · refine orDrop_behaves (fun hok => ?_) fun e he => ?_
      · subst hok
        obtain ⟨u, hu, hl'⟩ := hlock
        obtain rfl := Option.some.inj (ht.symm.trans hu)
        exact ⟨_, hl', hnew⟩
      · subst he
        exact unhindered_io calls hlock c.target
    rintro l - ⟨t, ht, hnew⟩
    refine (writeContent_behaves hc ht hnew).bind fun l _ hwhole => ?_
    refine .bind (R := fun l' _ => ∃ u ∈ l'.temp, Complete calls c.target u.written) (.ask trivial fun a l' hsync =>
      ?_) ?_
    · refine orDrop_behaves (fun hok => ?_) fun e he => ?_
      · subst hok
        obtain rfl : l' = l := hsync
        exact hwhole
      · subst he
        exact unhindered_io calls hsync c.target
    rintro l - hwhole
    refine .bind (R := fun _ _ => True) (.ask ⟨htarget, hwhole⟩ fun a l' hpersist => ?_) fun l _ _ => ?_
    · refine orDrop_behaves (fun _ => trivial) fun e he => ?_
      subst he
      exact unhindered_io calls hpersist c.target
    refine .ask trivial fun a l' hsync => ?_
    cases a with
    | error e => exact .failed (unhindered_io calls hsync parentPath)
    | ok _ => exact trivial

end

/-- Before anyone has started, every target holds what it holds. -/
theorem writersInv_start (start : Directory) (calls : ι → WriteCall → Prop) : WritersInv start calls start fun _ =>
    {} where
  probed _ _ hp := by cases hp
  allocated _ _ hp := by cases hp
  stale _ _ hp := by cases hp
  alone _ _ _ hp := by cases hp
  there _ _ ht := by cases ht
  written _ _ ht := by cases ht
  own _ _ _ ht := by cases ht
  kept _ _ hx := by cases hx
  content _ _ := .inl rfl

/-- As long as cleanups take only files that were left behind, writers do not get into each other's way: however their
steps are mixed and wherever any of them ends. -/
theorem writes_atomic_if_stale [DecidableEq ι] {calls : ι → WriteCall → Prop}
    (htarget : ∀ i c, calls i c → ¬ IsTemp c.target)
    (start : Directory) {s : Writers ι}
    (run : Reachable ((fileSystem ι).restrict TakesStale) (programsOf calls) (.start (fileSystem ι) start) s) :
    Intact start calls s := by
  have pf : Kernel.Proof ((fileSystem ι).restrict TakesStale) (programsOf calls) (WritersInv start calls)
    (MayRequest calls)
      (fun _ _ => True) fun _ e => Unhindered calls e := by
    refine ⟨fun h hask hexec => writersInv_exec h hask hexec.1 hexec.2, fun i h => h.stop i, fun {i p} hp => ?_⟩
    obtain ⟨c, hc, rfl⟩ := hp
    exact writeAtomicWith_behaves hc (htarget i c hc)
  have holds := pf.reachable (writersInv_start start calls) run
  exact ⟨fun i c hc => holds.inv.content c.target (htarget i c hc), fun i t ht => (holds.inv.there i t ht).2.1,
    fun i e he => holds.running i _ he⟩

/-- A vault in an otherwise empty directory. -/
def vaultDirectory : Directory where
  names name := if name = "vault.kdbx" then some 0 else none
  data _ := [0]
  next := 1
  bounded name x h := by
    obtain rfl := (Option.some.inj (Option.ite_none_right_eq_some.1 h).2)
    exact Nat.one_pos

def leftName : String := ".falach-tmp-a"

/-- A writer that crashed has left its temp file. -/
def leftBehind : Directory := vaultDirectory.create leftName

/-- Two processes that write a byte each into the vault. -/
def twoCalls (i : Bool) (c : WriteCall) : Prop :=
  c = ⟨"vault.kdbx", [[if i then 2 else 1]], (.io · "vault.kdbx"), .ok ()⟩

abbrev TwoReach (K : Kernel AtomicOp AtomicAnswer Directory OpenFiles Bool) (start : Directory) : Writers Bool → Prop :=
  Reachable K (programsOf twoCalls) (.start (fileSystem Bool) start)

/-- A writer removes what was left behind, and its byte is in the vault. -/
theorem left_behind_is_removed : ∃ s : Writers Bool, TwoReach ((fileSystem Bool).restrict TakesStale) leftBehind s ∧
    s.shared.names leftName = none ∧ s.shared.read "vault.kdbx" = some [2] ∧ Intact leftBehind twoCalls s := by
  have run : TwoReach ((fileSystem Bool).restrict TakesStale) leftBehind (.start (fileSystem Bool) leftBehind) := .start
  have run := run.step (.begin true rfl ⟨_, rfl, rfl⟩)
  have run := run.step (.request true rfl ⟨trivial, .readDir [.ok leftName] (by simp)⟩)
  have run := run.step (.request true rfl ⟨trivial, .openProbe (show _ = some 1 by decide +kernel)⟩)
  have run := run.step (.request true rfl
    ⟨show TakesStale _ _ true .lockProbe (.ok ()) from fun p hp => ?_, .lockProbe rfl (by decide +kernel)⟩)
  have run := run.step (.request true rfl ⟨trivial, .removeFile (show _ = some 1 by decide +kernel)⟩)
  have run := run.step (.request true rfl ⟨trivial, .closeProbe⟩)
  have run := run.step (.request true rfl ⟨trivial,
    .createTemp (show IsTemp ".falach-tmp-b" by decide +kernel) (by decide +kernel)⟩)
  have run := run.step (.request true rfl ⟨trivial, .lockTemp rfl (by decide +kernel)⟩)
  have run := run.step (.request true rfl ⟨trivial, .write rfl⟩)
  have run := run.step (.request true rfl ⟨trivial, .syncTemp⟩)
  have run := run.step (.request true rfl ⟨trivial, .persist rfl (show _ = some 2 by decide +kernel)⟩)
  refine ⟨_, run, by decide +kernel, by decide +kernel, ?_⟩
  · have hno : ¬ IsTemp "vault.kdbx" := by decide +kernel
    exact writes_atomic_if_stale (fun i c hc => by rw [hc]; exact hno) leftBehind run
  · obtain rfl := Option.some.inj hp
    refine ⟨by decide +kernel, fun j t ht => ?_⟩
    cases j with
    | false => cases ht
    | true => cases ht

/-- Between the creation of a temp file and its lock, the cleanup of another process takes it for one that was left
behind. Its writer fails then. -/
theorem temp_is_taken_from_writer :
    (∃ s, TwoReach (fileSystem Bool) vaultDirectory s ∧ ∃ t ∈ (s.held false).temp, s.shared.names t.name = none) ∧
    (∃ s, TwoReach (fileSystem Bool) vaultDirectory s ∧ s.running false = some (.fail (.io .notFound "vault.kdbx"))) ∧
    ¬ ∀ s, TwoReach (fileSystem Bool) vaultDirectory s → Intact vaultDirectory twoCalls s := by
  have run : TwoReach (fileSystem Bool) vaultDirectory (.start (fileSystem Bool) vaultDirectory) := .start
  have run := run.step (.begin false rfl ⟨_, rfl, rfl⟩)
  have run := run.step (.request false rfl (.readDir [] (fun _ h => by cases h)))
  have run := run.step (.request false rfl (.createTemp (show IsTemp leftName by decide +kernel) (by decide +kernel)))
  have run := run.step (.begin true rfl ⟨_, rfl, rfl⟩)
  have run := run.step (.request true rfl (.readDir [.ok leftName] (by simp)))
  have run := run.step (.request true rfl (.openProbe (show _ = some 1 by decide +kernel)))
  have run := run.step (.request true rfl (.lockProbe rfl (by decide +kernel)))
  have gone := run.step (.request true rfl (.removeFile (show _ = some 1 by decide +kernel)))
  have run := gone.step (.request true rfl .closeProbe)
  -- the writer gets its lock, but its file has no name any more
  have run := run.step (.request false rfl (.lockTemp rfl (by decide +kernel)))
  have run := run.step (.request false rfl (.write rfl))
  have run := run.step (.request false rfl .syncTemp)
  have run := run.step (.request false rfl (.persistGone rfl (by decide +kernel)))
  have run := run.step (.request false rfl .dropTempFails)
  refine ⟨⟨_, gone, _, rfl, by decide +kernel⟩, ⟨_, run, rfl⟩, fun claim => ?_⟩
  have temps := (claim _ gone).temps false _ rfl
  revert temps
  decide +kernel

end Falach

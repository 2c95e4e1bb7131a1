import Falach.Lib.Loops
import Falach.S3.Transport
/-!
# Compare and swap

What an upload does to a bucket that others write to between its requests. On a backend that honours `If-Match` it
replaces the version it names or nothing; on one that does not it replaces whatever is there.
-/

namespace Falach

open Keepass Program S3Run

/-! ## The bucket -/

structure S3Object where
  etag : Text
  bytes : Bytes
deriving DecidableEq

/-- A PUT: the object it met, and the ETag of the one it wrote. -/
structure PutRecord where
  key : Text
  ifMatch : Option Text
  met : Option S3Object
  wrote : Option Text

/-- The objects of a bucket. `puts` and `heads` are recorded for the proofs: what the requests of the transport met. -/
structure Bucket where
  objects : Text → Option S3Object
  puts : List PutRecord := []
  heads : List (Text × Option S3Object) := []

/-- What a backend is like: whether it looks at `If-Match`, what it answers when there is no object to match, and
whether all requests are answered. -/
structure Backend where
  honours : Bool
  absentStatus : Nat
  reliable : Bool
  absent : absentStatus = 404 ∨ absentStatus = 412

/-- The ETags are none a server would not give. -/
def Possible (objects : Text → Option S3Object) : Prop :=
  ∀ key o, objects key = some o → o.etag ≠ [] ∧ o.etag ≠ S3Transport.probeIfMatch

/-- A PUT with this header over this object is carried out. -/
def Backend.Accepts (b : Backend) (met : Option S3Object) (ifMatch : Option Text) : Prop :=
  b.honours = true → ∀ h ∈ ifMatch, ∃ o ∈ met, Etag.toHeaderValue o.etag = h

/-- An answer to a PUT that wrote an object with the ETag `n`: if it is a success it names no other. -/
def Backend.Acknowledges (b : Backend) (n : Text) (a : Except S3Error HttpResponse) : Prop :=
  (b.reliable = true → a = .ok { status := 200, etag := some (Etag.toHeaderValue n) }) ∧
    ∀ r, a = .ok r → r.status = 200 → ∀ m, parseEtag r = .ok m → m = n

/-- The answer to a PUT that the precondition stops. -/
def Backend.refusal (b : Backend) (met : Option S3Object) : HttpResponse :=
  { status := if met.isSome then 412 else b.absentStatus }

/-- A failure, as an answer. -/
def Unsuccessful (a : Except S3Error HttpResponse) : Prop := ∀ r, a = .ok r → r.status ≠ 200

/-- What a request does; before it, others may have changed the bucket in any way. -/
inductive Backend.Exec (b : Backend) : Bucket → (op : S3Op) → S3Answer op → Bucket → Prop where
  | put {w key bytes h a} (objects n) : Possible objects → n ≠ [] → n ≠ S3Transport.probeIfMatch →
      b.Accepts (objects key) h → b.Acknowledges n a → Exec b w (.put key bytes h) a
        { w with
          objects := Function.update objects key (some ⟨n, bytes⟩)
          puts := ⟨key, h, objects key, some n⟩ :: w.puts }
  | putRefused {w key bytes h} (objects) : Possible objects → ¬ b.Accepts (objects key) h →
      Exec b w (.put key bytes h) (.ok (b.refusal (objects key)))
        { w with objects := objects, puts := ⟨key, h, objects key, none⟩ :: w.puts }
  | putFails {w key bytes h a} (objects) : Possible objects → b.reliable = false → Unsuccessful a →
      Exec b w (.put key bytes h) a { w with objects := objects, puts := ⟨key, h, objects key, none⟩ :: w.puts }
  | headFound {w key} (objects o) : Possible objects → objects key = some o →
      Exec b w (.head key) (.ok { status := 200, etag := some (Etag.toHeaderValue o.etag) })
        { w with objects := objects, heads := (key, some o) :: w.heads }
  | headAbsent {w key} (objects) : Possible objects → objects key = none →
      Exec b w (.head key) (.ok { status := 404 }) { w with objects := objects, heads := (key, none) :: w.heads }
  | headFails {w key a} (objects) : Possible objects → b.reliable = false → Unsuccessful a →
      Exec b w (.head key) a { w with objects := objects }
  | getFound {w key h} (objects o) : Possible objects → objects key = some o →
      h ≠ some (Etag.toHeaderValue o.etag) → Exec b w (.get key h)
        (.ok { status := 200, etag := some (Etag.toHeaderValue o.etag), body := o.bytes }) { w with objects := objects }
  | getUnchanged {w key} (objects o) : Possible objects → objects key = some o →
      Exec b w (.get key (some (Etag.toHeaderValue o.etag))) (.ok { status := 304 }) { w with objects := objects }
  | getAbsent {w key h} (objects) : Possible objects → objects key = none →
      Exec b w (.get key h) (.ok { status := 404 }) { w with objects := objects }
  | getFails {w key h a} (objects) : Possible objects → b.reliable = false → Unsuccessful a →
      Exec b w (.get key h) a { w with objects := objects }
  | delete {w key} (objects) : Possible objects →
      Exec b w (.delete key) (.ok { status := 204 }) { w with objects := Function.update objects key none }
  | deleteFails {w key a} (objects) : Possible objects → b.reliable = false →
      Exec b w (.delete key) a { w with objects := objects }

/-- Whatever others do, the program ends with `Q`. -/
abbrev Backend.Ends {α : Type} (b : Backend) (Q : Bucket → α → Prop) (w : Bucket) (p : S3Run α) : Prop :=
  p.Upholds (fun _ _ => True) b.Exec Q (fun _ e => e.elim) w

variable {b : Backend} {w w' : Bucket} {key : Text} {bytes : Bytes} {h : Option Text} {t : S3Transport}

/-! ## One upload -/

/-- What the PUTs of one upload met and wrote, and what the upload made of the answers. -/
structure Sent (b : Backend) (key : Text) (h : Option Text) (puts : List PutRecord) (r : Except S3Error Text) :
    Prop where
  put : ∀ p ∈ puts, p.key = key ∧ p.ifMatch = h
  possible : ∀ p ∈ puts, ∀ o ∈ p.met, o.etag ≠ S3Transport.probeIfMatch
  accepted : ∀ p ∈ puts, p.wrote.isSome → b.Accepts p.met p.ifMatch
  wrote : ∀ n, r = .ok n → ∃ p ∈ puts, p.wrote = some n
  answered : b.reliable = true → ∃ p, puts = [p] ∧
    ((b.Accepts p.met p.ifMatch ∧ ∃ n, p.wrote = some n ∧ r = .ok n) ∨
      (¬ b.Accepts p.met p.ifMatch ∧ p.wrote = none ∧ r = putResult (b.refusal p.met)))

theorem putResult_ok {r : HttpResponse} {n : Text} (hr : putResult r = .ok n) :
    r.status = 200 ∧ parseEtag r = .ok n := by
  unfold putResult at hr
  split at hr
  · exact ⟨by assumption, hr⟩
  · split at hr <;> cases hr

theorem refusal_status (met : Option S3Object) : (b.refusal met).status = 412 ∨ (b.refusal met).status = 404 := by
  unfold Backend.refusal
  cases met with
  | none => exact b.absent.symm
  | some o => exact .inl rfl

/-- One PUT. It is not answered with a 503 if all requests are answered. -/
theorem put_exec {a : S3Answer (.put key bytes h)} (hx : b.Exec w (.put key bytes h) a w') :
    ∃ p, w'.puts = p :: w.puts ∧ w'.heads = w.heads ∧ Sent b key h [p] (a.bind putResult) ∧
      (b.reliable = true → ∀ r, a = .ok r → r.status ≠ 503) := by
  cases hx with
  | put objects n hpossible hn hprobe haccepts hack =>
    refine ⟨_, rfl, rfl, ⟨by simp, fun p hp o ho => ?_, fun p hp _ => ?_, fun m hm => ?_, fun hreliable => ?_⟩,
      fun hreliable r hr => ?_⟩
    · rw [List.mem_singleton.1 hp] at ho
      exact (hpossible key o ho).2
    · rw [List.mem_singleton.1 hp]
      exact haccepts
    · obtain ⟨r, rfl, hr⟩ := Loop.bind_ok.1 hm
      obtain ⟨hstatus, hparse⟩ := putResult_ok hr
      exact ⟨_, List.mem_singleton_self _, by rw [hack.2 r rfl hstatus m hparse]⟩
    · refine ⟨_, rfl, .inl ⟨haccepts, n, rfl, ?_⟩⟩
      rw [hack.1 hreliable]
      change putResult { status := 200, etag := some (Etag.toHeaderValue n) } = .ok n
      simp [putResult, parseEtag, Etag.parse_toHeaderValue hn, Except.mapError]
    · cases (hack.1 hreliable).symm.trans hr
      simp
  | putRefused objects hpossible hrefuses =>
    refine ⟨_, rfl, rfl, ⟨by simp, fun p hp o ho => ?_, fun p hp hw => ?_, fun m hm => ?_, fun _ => ?_⟩,
      fun _ r hr => ?_⟩
    · rw [List.mem_singleton.1 hp] at ho
      exact (hpossible key o ho).2
    · rw [List.mem_singleton.1 hp] at hw
      cases hw
    · have hstatus := (putResult_ok (n := m) hm).1
      rcases refusal_status (b := b) (objects key) with h | h <;> omega
    · exact ⟨_, rfl, .inr ⟨hrefuses, rfl, rfl⟩⟩
    · cases hr
      rcases refusal_status (b := b) (objects key) with h | h <;> omega
  | putFails objects hpossible hreliable hfails =>
    refine ⟨_, rfl, rfl, ⟨by simp, fun p hp o ho => ?_, fun p hp hw => ?_, fun m hm => ?_, fun hr => ?_⟩, fun hr => ?_⟩
    · rw [List.mem_singleton.1 hp] at ho
      exact (hpossible key o ho).2
    · rw [List.mem_singleton.1 hp] at hw
      cases hw
    · obtain ⟨r, rfl, hr⟩ := Loop.bind_ok.1 hm
      exact absurd (putResult_ok hr).1 (hfails r rfl)
    · cases hreliable.symm.trans hr
    · cases hreliable.symm.trans hr

theorem Sent.retry {p q : PutRecord} {r r' : Except S3Error Text} (hp : Sent b key h [p] r) (hq : Sent b key h [q] r')
    (hreliable : b.reliable ≠ true) : Sent b key h [q, p] r' where
  put x hx := by
    rcases List.mem_cons.1 hx with rfl | hx
    · exact hq.put x (List.mem_singleton_self x)
    · exact hp.put x hx
  possible x hx := by
    rcases List.mem_cons.1 hx with rfl | hx
    · exact hq.possible x (List.mem_singleton_self x)
    · exact hp.possible x hx
  accepted x hx := by
    rcases List.mem_cons.1 hx with rfl | hx
    · exact hq.accepted x (List.mem_singleton_self x)
    · exact hp.accepted x hx
  wrote n hn := by
    obtain ⟨x, hx, hw⟩ := hq.wrote n hn
    exact ⟨x, List.mem_cons.2 (.inl (List.mem_singleton.1 hx)), hw⟩
  answered hr := absurd hr hreliable

section Requests

variable {α : Type} {Q : Bucket → α → Prop}

/-- A request that is tried again is one more request. -/
theorem signedRequest_spec {op : S3Op} {f : Except S3Error HttpResponse → S3Run α}
    (once : ∀ a w', b.Exec w op a w' → (∀ r, a = .ok r → r.status ≠ 503) → b.Ends Q w' (f a))
    (twice : ∀ r w' a w'', b.Exec w op (.ok r) w' → r.status = 503 → b.Exec w' op a w'' → b.Ends Q w'' (f a)) :
    b.Ends Q w (signedRequest op >>= f) := by
  refine .bind ⟨trivial, fun a w' hx => ?_⟩
  cases a with
  | error e => exact once (.error e) w' hx nofun
  | ok response =>
    change b.Ends (fun w a => b.Ends Q w (f a)) w'
      (if response.status = 503 then request S3Answer op else pure (.ok response))
    split
    · rename_i hstatus
      exact ⟨trivial, fun a' w'' hx' => twice response w' a' w'' hx hstatus hx'⟩
    · rename_i hstatus
      exact once (.ok response) w' hx fun r hr => by cases hr; exact hstatus

theorem putObject_spec {ifMatch : Option Text} {f : Except S3Error Text → S3Run α}
    (next : ∀ w' puts r, w'.puts = puts ++ w.puts → w'.heads = w.heads → Sent b key (ifMatch.map Etag.quote) puts r →
      b.Ends Q w' (f r)) : b.Ends Q w (putObject key bytes ifMatch >>= f) := by
  refine .bind (signedRequest_spec (fun a w' hx _ => ?_) fun response w' a w'' hx hstatus hx' => ?_)
  · obtain ⟨p, hputs, hheads, hsent, -⟩ := put_exec hx
    exact next w' [p] _ hputs hheads hsent
  · obtain ⟨p, hputs, hheads, hsent, h503⟩ := put_exec hx
    obtain ⟨q, hputs', hheads', hsent', -⟩ := put_exec hx'
    refine next w'' [q, p] _ ?_ (hheads'.trans hheads) (hsent.retry hsent' fun hr => h503 hr response rfl hstatus)
    rw [hputs', hputs]
    rfl

/-- A HEAD that succeeds has found an object with the ETag it returns. -/
theorem head_exec {a : S3Answer (.head key)} (hx : b.Exec w (.head key) a w') : w'.puts = w.puts ∧
    (∀ n, a.bind headResult = .ok n → ∃ o, (key, some o) ∈ w'.heads ∧ o.etag = n) ∧
    (b.reliable = true → (∀ r, a = .ok r → r.status ≠ 503) ∧ ∃ o, w'.heads = (key, o) :: w.heads ∧
      a.bind headResult = match o with
        | some o => .ok o.etag
        | none => .error .notFound) := by
  cases hx with
  | headFound objects o hpossible ho =>
    have hresult : headResult { status := 200, etag := some (Etag.toHeaderValue o.etag) } = .ok o.etag := by
      simp [headResult, parseEtag, Etag.parse_toHeaderValue (hpossible key o ho).1, Except.mapError]
    refine ⟨rfl, fun n hn => ⟨o, List.mem_cons_self, ?_⟩, fun _ => ⟨fun r hr => ?_, some o, rfl, hresult⟩⟩
    · exact Except.ok.inj (hresult.symm.trans hn)
    · cases hr
      simp
  | headAbsent objects hpossible ho =>
    refine ⟨rfl, fun n hn => ?_, fun _ => ⟨fun r hr => ?_, none, rfl, rfl⟩⟩
    · cases hn
    · cases hr
      simp
  | headFails objects hpossible hreliable hfails =>
    refine ⟨rfl, fun n hn => ?_, fun hr => ?_⟩
    · obtain ⟨r, rfl, hr⟩ := Loop.bind_ok.1 hn
      have hstatus := hfails r rfl
      simp [headResult, hstatus] at hr
    · cases hreliable.symm.trans hr

/-- What a HEAD, tried again or not, came to. -/
structure Looked (b : Backend) (key : Text) (w w' : Bucket) (r : Except S3Error Text) : Prop where
  puts : w'.puts = w.puts
  found : ∀ n, r = .ok n → ∃ o, (key, some o) ∈ w'.heads ∧ o.etag = n
  answered : b.reliable = true → ∃ o, w'.heads = (key, o) :: w.heads ∧
    r = match o with
      | some o => .ok o.etag
      | none => .error .notFound

theorem headObject_spec {f : Except S3Error Text → S3Run α} (next : ∀ w' r, Looked b key w w' r → b.Ends Q w' (f r)) :
    b.Ends Q w (headObject key >>= f) := by
  refine .bind (signedRequest_spec (fun a w' hx _ => ?_) fun response w' a w'' hx hstatus hx' => ?_)
  · obtain ⟨hputs, hfound, hanswered⟩ := head_exec hx
    exact next w' _ ⟨hputs, hfound, fun hr => (hanswered hr).2⟩
  · obtain ⟨hputs, -, hanswered⟩ := head_exec hx
    obtain ⟨hputs', hfound, -⟩ := head_exec hx'
    exact next w'' _ ⟨hputs'.trans hputs, hfound, fun hr => absurd hstatus ((hanswered hr).1 response rfl)⟩

theorem delete_exec {a : S3Answer (.delete key)} (hx : b.Exec w (.delete key) a w') :
    w'.puts = w.puts ∧ w'.heads = w.heads := by
  cases hx <;> exact ⟨rfl, rfl⟩

theorem deleteObject_spec {f : Except S3Error Unit → S3Run α}
    (next : ∀ w' r, w'.puts = w.puts → w'.heads = w.heads → b.Ends Q w' (f r)) :
    b.Ends Q w (deleteObject key >>= f) := by
  refine .bind (signedRequest_spec (fun a w' hx _ => ?_) fun response w' a w'' hx hstatus hx' => ?_)
  · obtain ⟨hputs, hheads⟩ := delete_exec hx
    exact next w' _ hputs hheads
  · obtain ⟨hputs, hheads⟩ := delete_exec hx
    obtain ⟨hputs', hheads'⟩ := delete_exec hx'
    exact next w'' _ (hputs'.trans hputs) (hheads'.trans hheads)

end Requests

/-! ## The probe -/

theorem probeKey_ne {suffix : Text} : t.probeKey suffix ≠ t.key := by
  intro heq
  have hlength := congrArg List.length heq
  simp [S3Transport.probeKey] at hlength

/-- The probe leaves the object of the transport alone, and does not mistake what a backend does with `If-Match`. -/
structure Probed (b : Backend) (t : S3Transport) (w w' : Bucket) (t' : S3Transport) : Prop where
  key : t'.key = t.key
  puts : ∃ puts, w'.puts = puts ++ w.puts ∧ ∀ p ∈ puts, p.key ≠ t.key
  heads : w'.heads = w.heads
  honoured : b.honours = true → t.ifMatchSupported ≠ .degraded → t'.ifMatchSupported ≠ .degraded
  ignored : b.honours = false → b.reliable = true → t'.ifMatchSupported = .degraded

theorem probed_supported {suffix : Text} {puts : List PutRecord} {r : Except S3Error Text}
    (hsent : Sent b (t.probeKey suffix) (some (Etag.quote S3Transport.probeIfMatch)) puts r) :
    (b.honours = true → ∀ n, r ≠ .ok n) ∧ (b.honours = false → b.reliable = true → ∃ n, r = .ok n) := by
  refine ⟨fun hhonours n hn => ?_, fun hignores hreliable => ?_⟩
  · obtain ⟨p, hp, hwrote⟩ := hsent.wrote n hn
    have hmatch := hsent.accepted p hp (by simp [hwrote]) hhonours _ (hsent.put p hp).2
    obtain ⟨o, ho, hetag⟩ := hmatch
    have hprobe : Etag.quote S3Transport.probeIfMatch = Etag.toHeaderValue S3Transport.probeIfMatch := by decide
    exact hsent.possible p hp o ho (Etag.toHeaderValue_inj.1 (hetag.trans hprobe))
  · obtain ⟨p, -, ⟨-, n, -, hn⟩ | ⟨hrefuses, -, -⟩⟩ := hsent.answered hreliable
    · exact ⟨n, hn⟩
    · exact absurd (fun h => by cases hignores.symm.trans h) hrefuses

section Transport

variable {α : Type} {Q : Bucket → α → Prop} {suffix : Text}

theorem probe_spec {f : S3Transport → S3Run α} (next : ∀ w' t', Probed b t w w' t' → b.Ends Q w' (f t')) :
    b.Ends Q w (t.probeIfMatchSupport suffix >>= f) := by
  refine .bind (putObject_spec fun w' puts r hputs hheads hsent => ?_)
  refine deleteObject_spec fun w'' _ hputs' hheads' => ?_
  obtain ⟨honoured, ignored⟩ := probed_supported hsent
  have hother : ∃ puts, w''.puts = puts ++ w.puts ∧ ∀ p ∈ puts, p.key ≠ t.key :=
    ⟨puts, hputs'.trans hputs, fun p hp => (hsent.put p hp).1 ▸ probeKey_ne⟩
  have hheads := hheads'.trans hheads
  cases r with
  | ok n =>
    refine next w'' _ ⟨rfl, hother, hheads, fun hhonours _ => absurd rfl (honoured hhonours n), fun _ _ => rfl⟩
  | error e =>
    have hreliable : b.honours = false → b.reliable = true → False := fun hi hr => by
      obtain ⟨n, hn⟩ := ignored hi hr
      cases hn
    cases hclass : S3Transport.classify (.error e) with
    | none => exact next w'' _ ⟨rfl, hother, hheads, fun _ h => h, fun hi hr => (hreliable hi hr).elim⟩
    | some support =>
      have hsupported : support = .supported := by
        cases e <;> simp_all [S3Transport.classify]
      subst hsupported
      exact next w'' _ ⟨rfl, hother, hheads, fun _ _ => nofun, fun hi hr => (hreliable hi hr).elim⟩

/-! ## The upload -/

/-- The PUTs to the object of the transport. -/
def S3Transport.own (t : S3Transport) (w : Bucket) : List PutRecord := w.puts.filter fun p => p.key = t.key

/-- The in-memory transport that holds the object. -/
def memoryOf (o : Option S3Object) : MemoryTransport := { state := o.map fun o => (.ofEtag o.etag, o.bytes) }

/-- The upload replaces the version it names, or nothing; where all requests are answered it does as the in-memory
transport would with the object it met. -/
structure Swaps (b : Backend) (t : S3Transport) (v : ObjectVersion) (bytes : Bytes) (w : Bucket)
    (r : Except S3Error ObjectVersion) : Prop where
  replaced : ∀ p ∈ t.own w, p.wrote.isSome → ∃ o ∈ p.met, ObjectVersion.ofEtag o.etag = v
  wrote : ∀ n, r = .ok n → ∃ p ∈ t.own w, ∃ etag ∈ p.wrote, n = .ofEtag etag
  answered : b.reliable = true → ∃ p, t.own w = [p] ∧ p.wrote.isSome = r.isOk ∧
    r.isOk = ((memoryOf p.met).putConditional bytes (some v)).isOk ∧
    ∀ e, r = .error e → p.met.isSome ∨ b.absentStatus = 412 → e.isPreconditionFailed

/-- The upload replaces whatever it meets, and succeeds only if its own object is there when it looks. -/
structure Looks (b : Backend) (t : S3Transport) (w : Bucket) (r : Except S3Error ObjectVersion) : Prop where
  unconditional : ∀ p ∈ t.own w, p.ifMatch = none
  wrote : ∀ n, r = .ok n → ∃ etag, n = .ofEtag etag ∧ (∃ p ∈ t.own w, p.wrote = some etag) ∧
    ∃ o, (t.key, some o) ∈ w.heads ∧ o.etag = etag
  answered : b.reliable = true → ∃ p etag o, t.own w = [p] ∧ p.wrote = some etag ∧ w.heads = [(t.key, o)] ∧
    ∀ found ∈ o, r = if found.etag = etag then .ok (.ofEtag etag) else .error .concurrentWriteDetected

theorem ofEtag_eq_iff {etag : Text} {v : ObjectVersion} : ObjectVersion.ofEtag etag = v ↔ etag = v.etag := by
  constructor
  · rintro rfl
    exact String.toList_ofList.symm
  · rintro rfl
    exact congrArg ObjectVersion.mk String.ofList_toList

theorem own_of_puts {puts rest : List PutRecord} (hputs : w.puts = puts ++ rest) (hown : ∀ p ∈ puts, p.key = t.key)
    (hrest : ∀ p ∈ rest, p.key ≠ t.key) : t.own w = puts := by
  rw [S3Transport.own, hputs, List.filter_append, List.filter_eq_self.2 fun p hp => by simpa using hown p hp,
    List.filter_eq_nil_iff.2 fun p hp => by simpa using hrest p hp, List.append_nil]

/-- A backend that honours `If-Match` accepts it over the version it names. -/
theorem accepts_iff {v : ObjectVersion} (hhonours : b.honours = true)
    (hv : Etag.quote v.etag = Etag.toHeaderValue v.etag) {met : Option S3Object} :
    b.Accepts met (some (Etag.quote v.etag)) ↔ ∃ o ∈ met, ObjectVersion.ofEtag o.etag = v := by
  constructor
  · intro h
    obtain ⟨o, ho, hetag⟩ := h hhonours _ rfl
    exact ⟨o, ho, ofEtag_eq_iff.2 (Etag.toHeaderValue_inj.1 (hetag.trans hv))⟩
  · rintro ⟨o, ho, hetag⟩ _ header hheader
    obtain rfl : Etag.quote v.etag = header := Option.some.inj hheader
    exact ⟨o, ho, by rw [hv, ofEtag_eq_iff.1 hetag]⟩

theorem memory_isOk {v : ObjectVersion} {met : Option S3Object} :
    ((memoryOf met).putConditional bytes (some v)).isOk = true ↔ ∃ o ∈ met, ObjectVersion.ofEtag o.etag = v := by
  cases met with
  | none => simp [memoryOf, MemoryTransport.putConditional, Except.isOk, Except.toBool]
  | some o =>
    by_cases h : ObjectVersion.ofEtag o.etag = v
    · simp [memoryOf, MemoryTransport.putConditional, h, Except.isOk, Except.toBool]
    · simp [memoryOf, MemoryTransport.putConditional, h, Except.isOk, Except.toBool]

theorem refused_precondition {met : Option S3Object} (h : met.isSome ∨ b.absentStatus = 412) :
    putResult (b.refusal met) = .error .preconditionFailed := by
  have hstatus : (b.refusal met).status = 412 := by
    cases met with
    | some o => rfl
    | none =>
      rcases h with h | h
      · cases h
      · exact h
  rw [putResult, hstatus]
  rfl

theorem refused_error (b : Backend) (met : Option S3Object) : ∃ e, putResult (b.refusal met) = .error e := by
  cases hresult : putResult (b.refusal met) with
  | error e => exact ⟨e, rfl⟩
  | ok n =>
    have hstatus := (putResult_ok hresult).1
    rcases refusal_status (b := b) met with h | h <;> omega

/-- What an upload with `If-Match` comes to on a backend that honours it. -/
theorem Sent.swaps {v : ObjectVersion} {puts rest : List PutRecord} {r : Except S3Error Text}
    (hhonours : b.honours = true) (hv : Etag.quote v.etag = Etag.toHeaderValue v.etag)
    (hsent : Sent b t.key (some (Etag.quote v.etag)) puts r) (hputs : w.puts = puts ++ rest)
    (hrest : ∀ p ∈ rest, p.key ≠ t.key) : Swaps b t v bytes w (t.uploaded r).1 := by
  have hown := own_of_puts (t := t) hputs (fun p hp => (hsent.put p hp).1) hrest
  refine ⟨fun p hp hwrote => ?_, fun n hn => ?_, fun hreliable => ?_⟩
  · rw [hown] at hp
    have haccepts := hsent.accepted p hp hwrote
    rw [(hsent.put p hp).2] at haccepts
    exact (accepts_iff hhonours hv).1 haccepts
  · rw [hown]
    cases r with
    | error e => cases hn
    | ok etag =>
      obtain ⟨p, hp, hwrote⟩ := hsent.wrote etag rfl
      exact ⟨p, hp, etag, hwrote, (Except.ok.inj hn).symm⟩
  · obtain ⟨p, rfl, hcases⟩ := hsent.answered hreliable
    rw [(hsent.put p (List.mem_singleton_self p)).2] at hcases
    refine ⟨p, hown, ?_⟩
    rcases hcases with ⟨haccepts, n, hwrote, rfl⟩ | ⟨hrefuses, hwrote, rfl⟩
    · refine ⟨by rw [hwrote]; rfl, ?_, fun e he => by cases he⟩
      exact (memory_isOk.2 ((accepts_iff hhonours hv).1 haccepts)).symm
    · obtain ⟨e, he⟩ := refused_error b p.met
      rw [he]
      refine ⟨by rw [hwrote]; rfl, ?_, fun e' he' hmet => ?_⟩
      · have hmemory : ((memoryOf p.met).putConditional bytes (some v)).isOk = false :=
          Bool.eq_false_iff.2 fun h => hrefuses ((accepts_iff hhonours hv).2 (memory_isOk.1 h))
        rw [hmemory]
        rfl
      · cases he'
        rw [refused_precondition hmet] at he
        cases he
        rfl

/-- The upload, when `If-Match` is sent to a backend that honours it. -/
theorem putClassified_swaps {v : ObjectVersion} {rest : List PutRecord} (hhonours : b.honours = true)
    (hclass : t.ifMatchSupported ≠ .degraded) (hv : Etag.quote v.etag = Etag.toHeaderValue v.etag)
    (hputs : w.puts = rest) (hrest : ∀ p ∈ rest, p.key ≠ t.key) :
    b.Ends (fun w r => Swaps b t v bytes w r.1) w (t.putClassified bytes v) := by
  have upload : b.Ends (fun w r => Swaps b t v bytes w r.1) w
      (putObject t.key bytes (some v.etag) >>= fun r => pure (t.uploaded r)) := by
    refine putObject_spec fun w' puts r hputs' _ hsent => ?_
    rw [hputs] at hputs'
    exact hsent.swaps hhonours hv hputs' hrest
  unfold S3Transport.putClassified
  cases hsupport : t.ifMatchSupported with
  | degraded => exact absurd hsupport hclass
  | supported => exact upload
  | unknown => exact upload

/-- The upload without `If-Match`, and the look at what is there then. -/
theorem putDegraded_looks {rest : List PutRecord} (hputs : w.puts = rest) (hrest : ∀ p ∈ rest, p.key ≠ t.key)
    (hheads : w.heads = []) : b.Ends (fun w r => Looks b t w r.1) w (t.putDegraded bytes) := by
  refine putObject_spec fun w' puts r hputs' hheads' hsent => ?_
  rw [hputs] at hputs'
  have hown := own_of_puts (t := t) hputs' (fun p hp => (hsent.put p hp).1) hrest
  have hnone : ∀ p ∈ t.own w', p.ifMatch = none := fun p hp => (hsent.put p (hown ▸ hp)).2
  have hsingle : b.reliable = true → ∃ p etag, puts = [p] ∧ p.wrote = some etag ∧ r = .ok etag := fun hreliable => by
    obtain ⟨p, rfl, ⟨-, etag, hwrote, hr⟩ | ⟨hrefuses, -⟩⟩ := hsent.answered hreliable
    · exact ⟨p, etag, rfl, hwrote, hr⟩
    · rw [(hsent.put p (List.mem_singleton_self p)).2] at hrefuses
      exact absurd (fun _ header hheader => by cases hheader) hrefuses
  -- only an upload that went through is looked at
  cases r with
  | error e =>
    refine ⟨hnone, nofun, fun hreliable => ?_⟩
    obtain ⟨_, _, _, _, h⟩ := hsingle hreliable
    cases h
  | ok putEtag =>
    refine headObject_spec fun w'' r hlooked => ?_
    have hown' : t.own w'' = puts := by rw [S3Transport.own, hlooked.puts]; exact hown
    have hnone' : ∀ p ∈ t.own w'', p.ifMatch = none := fun p hp => hnone p (by rw [hown]; exact hown' ▸ hp)
    have hanswered : b.reliable = true → ∃ p o, t.own w'' = [p] ∧ p.wrote = some putEtag ∧ w''.heads = [(t.key, o)] ∧
        r = match o with
          | some o => .ok o.etag
          | none => .error .notFound := fun hreliable => by
      obtain ⟨p, etag, hp, hwrote, hr⟩ := hsingle hreliable
      obtain ⟨o, ho, hr'⟩ := hlooked.answered hreliable
      cases hr
      exact ⟨p, o, hown'.trans hp, hwrote, by rw [ho, hheads', hheads], hr'⟩
    cases r with
    | error e =>
      refine ⟨hnone', nofun, fun hreliable => ?_⟩
      obtain ⟨p, o, hp, hwrote, ho, hr⟩ := hanswered hreliable
      cases o with
      | some o => cases hr
      | none => exact ⟨p, putEtag, none, hp, hwrote, ho, nofun⟩
    | ok headEtag =>
      change b.Ends (fun w r => Looks b t w r.1) w''
        (if headEtag ≠ putEtag then pure (.error .concurrentWriteDetected, t) else pure (t.uploaded (.ok putEtag)))
      by_cases hetag : headEtag = putEtag
      · rw [if_neg (not_not.2 hetag)]
        subst hetag
        refine ⟨hnone', fun n hn => ?_, fun hreliable => ?_⟩
        · obtain ⟨p, hp, hwrote⟩ := hsent.wrote headEtag rfl
          exact ⟨headEtag, (Except.ok.inj hn).symm, ⟨p, hown'.symm ▸ hp, hwrote⟩, hlooked.found headEtag rfl⟩
        · obtain ⟨p, o, hp, hwrote, ho, hr⟩ := hanswered hreliable
          refine ⟨p, headEtag, o, hp, hwrote, ho, fun found hfound => ?_⟩
          obtain rfl : o = some found := hfound
          rw [if_pos (Except.ok.inj hr).symm]
          rfl
      · rw [if_pos hetag]
        refine ⟨hnone', nofun, fun hreliable => ?_⟩
        obtain ⟨p, o, hp, hwrote, ho, hr⟩ := hanswered hreliable
        refine ⟨p, putEtag, o, hp, hwrote, ho, fun found hfound => ?_⟩
        obtain rfl : o = some found := hfound
        rw [if_neg fun h => hetag ((Except.ok.inj hr).trans h)]

theorem Swaps.of_key {t' : S3Transport} {v : ObjectVersion} {r : Except S3Error ObjectVersion} (hkey : t'.key = t.key)
    (h : Swaps b t' v bytes w r) : Swaps b t v bytes w r := by
  have hown : t'.own w = t.own w := by rw [S3Transport.own, S3Transport.own, hkey]
  exact ⟨hown ▸ h.replaced, hown ▸ h.wrote, hown ▸ h.answered⟩

theorem Looks.of_key {t' : S3Transport} {r : Except S3Error ObjectVersion} (hkey : t'.key = t.key)
    (h : Looks b t' w r) : Looks b t w r := by
  have hown : t'.own w = t.own w := by rw [S3Transport.own, S3Transport.own, hkey]
  exact ⟨hown ▸ h.unconditional, hown ▸ hkey ▸ h.wrote, hown ▸ hkey ▸ h.answered⟩

/-- Nothing panics in a transport. -/
def NoPanic (_ : Bucket) (_ : S3Op) : Prop := False

/-- On a backend that honours `If-Match` an upload is a compare and swap; where the transport takes it that the backend
does not, or finds so, the upload replaces whatever is there and then looks. -/
theorem putConditional_swaps_or_looks (b : Backend) (t : S3Transport) (v : ObjectVersion) (suffix : Text)
    (bytes : Bytes)
    (w : Bucket) (hputs : w.puts = []) (hheads : w.heads = []) :
    (Etag.quote v.etag = Etag.toHeaderValue v.etag → b.honours = true → t.ifMatchSupported ≠ .degraded → ∀ w' r t',
      Runs b.Exec NoPanic w (t.putConditional suffix bytes (some v)) w' (.returned (r, t')) → Swaps b t v bytes w' r) ∧
    (t.ifMatchSupported = .degraded ∨ (t.ifMatchSupported = .unknown ∧ b.honours = false ∧ b.reliable = true) →
      ∀ w' r t',
      Runs b.Exec NoPanic w (t.putConditional suffix bytes (some v)) w' (.returned (r, t')) → Looks b t w' r) := by
  have probed : ∀ {Q : Bucket → Except S3Error ObjectVersion × S3Transport → Prop}, t.ifMatchSupported = .unknown →
      (∀ w' t', Probed b t w w' t' → b.Ends Q w' (t'.putClassified bytes v)) →
      b.Ends Q w (t.putConditional suffix bytes (some v)) := fun hunknown next => by
    simp only [S3Transport.putConditional, hunknown, if_true]
    exact probe_spec next
  have direct : t.ifMatchSupported ≠ .unknown →
      t.putConditional suffix bytes (some v) = t.putClassified bytes v := fun hknown => by
    simp only [S3Transport.putConditional, hknown, if_false]
  constructor
  · intro hv hhonours hclass w' r t' run
    suffices h : b.Ends (fun w r => Swaps b t v bytes w r.1) w
      (t.putConditional suffix bytes (some v)) from h.returned run
    by_cases hunknown : t.ifMatchSupported = .unknown
    · refine probed hunknown fun w' t' h => ?_
      obtain ⟨puts, hputs', hother⟩ := h.puts
      rw [hputs, List.append_nil] at hputs'
      refine (putClassified_swaps hhonours (h.honoured hhonours hclass) hv hputs' ?_).mono fun w r hr => hr.of_key h.key
      rwa [h.key]
    · rw [direct hunknown]
      exact putClassified_swaps hhonours hclass hv hputs nofun
  · intro hclass w' r t' run
    suffices h : b.Ends (fun w r => Looks b t w r.1) w (t.putConditional suffix bytes (some v)) from h.returned run
    rcases hclass with hdegraded | ⟨hunknown, hignores, hreliable⟩
    · rw [direct (by rw [hdegraded]; decide), S3Transport.putClassified, hdegraded]
      exact putDegraded_looks hputs nofun hheads
    · refine probed hunknown fun w' t' h => ?_
      obtain ⟨puts, hputs', hother⟩ := h.puts
      rw [hputs, List.append_nil] at hputs'
      rw [S3Transport.putClassified, h.ignored hignores hreliable]
      refine (putDegraded_looks hputs' ?_ (h.heads.trans hheads)).mono fun w r hr => hr.of_key h.key
      rwa [h.key]

/-! ## A backend that ignores `If-Match` -/

/-- A plain success acknowledges the object that was written. -/
theorem acknowledges_success {n : Text} (hn : n ≠ []) :
    b.Acknowledges n (.ok { status := 200, etag := some (Etag.toHeaderValue n) }) := by
  refine ⟨fun _ => rfl, ?_⟩
  rintro r hr - m hm
  cases hr
  simp only [parseEtag, Etag.parse_toHeaderValue hn, Except.mapError] at hm
  exact (Except.ok.inj hm).symm

theorem possible_const {o : S3Object} (h : o.etag ≠ [] ∧ o.etag ≠ S3Transport.probeIfMatch) :
    Possible fun _ => some o := by
  rintro key found hfound
  cases hfound
  exact h

/-- An object, the one somebody else has put in its place, and the one that is uploaded. -/
def objectOne : S3Object := ⟨"one".toList, [1]⟩
def objectTwo : S3Object := ⟨"two".toList, [2]⟩
def objectNew : S3Object := ⟨"new".toList, [3]⟩

/-- A backend that looks at `If-Match` and one that does not, with a transport that knows. -/
def honouring : Backend := { honours := true, absentStatus := 404, reliable := true, absent := .inl rfl }
def ignoring : Backend := { honours := false, absentStatus := 404, reliable := true, absent := .inl rfl }
def transportOn (support : IfMatchSupport) : S3Transport := { key := "vault.kdbx".toList, ifMatchSupported := support }

/-- The PUT of an upload to the bucket that holds `o` under every key. -/
def putOver (o : S3Object) (ifMatch : Option Text) : PutRecord :=
  { key := "vault.kdbx".toList, ifMatch := ifMatch, met := some o, wrote := some objectNew.etag }

/-- An upload over the version it names, to a backend that honours `If-Match`. -/
theorem run_honouring : ∃ w' t', w'.puts = [putOver objectOne (some (Etag.quote objectOne.etag))] ∧
    Runs honouring.Exec NoPanic { objects := fun _ => some objectOne }
      ((transportOn .supported).putConditional [] objectNew.bytes (some (.ofEtag objectOne.etag))) w'
      (.returned (.ok (.ofEtag objectNew.etag), t')) := by
  refine ⟨_, _, rfl, .ask (.put (fun _ => some objectOne) objectNew.etag (possible_const (by decide)) (by decide)
    (by decide) ?_ (acknowledges_success (by decide))) .done⟩
  rintro _ header hheader
  cases hheader
  exact ⟨objectOne, rfl, by decide +kernel⟩

/-- An upload that names the first version, over the second, to a backend that ignores `If-Match`. -/
theorem run_ignoring : ∃ w' t', w'.puts = [putOver objectTwo none] ∧
    Runs ignoring.Exec NoPanic { objects := fun _ => some objectTwo }
      ((transportOn .degraded).putConditional [] objectNew.bytes (some (.ofEtag objectOne.etag))) w'
      (.returned (.ok (.ofEtag objectNew.etag), t')) := by
  refine ⟨_, _, rfl, .ask (.put (fun _ => some objectTwo) objectNew.etag (possible_const (by decide)) (by decide)
    (by decide) nofun (acknowledges_success (by decide))) (.ask (.headFound (fun _ => some objectNew) objectNew
    (possible_const (by decide)) rfl) .done)⟩

theorem putConditional_at_version : ∃ w₁ w₂,
    w₁.puts = [putOver objectOne (some (Etag.quote objectOne.etag))] ∧
      Swaps honouring (transportOn .supported) (.ofEtag objectOne.etag) objectNew.bytes w₁
        (.ok (.ofEtag objectNew.etag)) ∧
    w₂.puts = [putOver objectTwo none] ∧ Looks ignoring (transportOn .degraded) w₂ (.ok (.ofEtag objectNew.etag)) := by
  obtain ⟨w₁, t₁, hputs₁, run₁⟩ := run_honouring
  obtain ⟨w₂, t₂, hputs₂, run₂⟩ := run_ignoring
  refine ⟨w₁, w₂, hputs₁, ?_, hputs₂, ?_⟩
  · exact (putConditional_swaps_or_looks honouring _ _ [] _ _ rfl rfl).1 (by decide +kernel) rfl (by decide) _ _ _ run₁
  · exact (putConditional_swaps_or_looks ignoring _ _ [] _ _ rfl rfl).2 (.inl rfl) _ _ _ run₂

/-- A success over another version than the one the upload names. -/
theorem degraded_not_swap : ¬ ∀ (b : Backend) (t : S3Transport) (v : ObjectVersion) (suffix : Text) (bytes : Bytes)
    (w w' : Bucket) (n : ObjectVersion) (t' : S3Transport), w.puts = [] → b.reliable = true →
    Etag.quote v.etag = Etag.toHeaderValue v.etag →
    Runs b.Exec NoPanic w (t.putConditional suffix bytes (some v)) w' (.returned (.ok n, t')) →
    ∀ p ∈ t.own w', p.wrote.isSome → ∃ o ∈ p.met, ObjectVersion.ofEtag o.etag = v := by
  intro claim
  obtain ⟨w', t', hputs, run⟩ := run_ignoring
  have hown : putOver objectTwo none ∈ (transportOn .degraded).own w' := by
    rw [S3Transport.own, hputs]
    exact List.mem_cons_self
  obtain ⟨o, ho, hetag⟩ := claim _ _ _ _ _ _ _ _ _ rfl rfl (by decide +kernel) run _ hown rfl
  cases ho
  exact absurd hetag (by decide +kernel)

end Transport

end Falach

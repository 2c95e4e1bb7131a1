import Falach.S3.Client
import Falach.Sync.SyncNow
/-!
# The S3 transport

A backend may ignore `If-Match`. The transport asks for the ETag that no object has, once, to find out, and where it is
ignored it looks at the object after an upload.
-/

namespace Falach

open Keepass Program S3Run

/-- `S3Transport`: the key of its object, the last version it saw, and what it knows of the backend. -/
structure S3Transport where
  key : Text
  cachedRemoteVersion : Option ObjectVersion := none
  ifMatchSupported : IfMatchSupport := .unknown
deriving DecidableEq

/-- The version with this ETag. -/
def ObjectVersion.ofEtag (etag : Text) : ObjectVersion := ⟨String.ofList etag⟩

/-- The ETag of the version. -/
def ObjectVersion.etag (v : ObjectVersion) : Text := v.tag.toList

namespace S3Transport

def probeIfMatch : Text := "00000000000000000000000000000000".toList
def probeBytes : Bytes := "falach-probe".toList.map Char.toUInt8

/-- The key of the probe object; `suffix` is what `probe_suffix` mints. -/
def probeKey (t : S3Transport) (suffix : Text) : Text := t.key ++ ".falach-probe-".toList ++ suffix

/-- What the answer to the probe says of the backend. -/
def classify : Except S3Error Text → Option IfMatchSupport
  | .error .preconditionFailed | .error .notFound => some .supported
  | .ok _ => some .degraded
  | .error _ => none

/-- `probe_if_match_support`. -/
def probeIfMatchSupport (t : S3Transport) (suffix : Text) : S3Run S3Transport := do
  let probe ← putObject (t.probeKey suffix) probeBytes (some probeIfMatch)
  let _ ← deleteObject (t.probeKey suffix)
  return match classify probe with
    | some support => { t with ifMatchSupported := support }
    | none => t

/-- The version an upload returned is cached. -/
def uploaded (t : S3Transport) : Except S3Error Text → Except S3Error ObjectVersion × S3Transport
  | .error e => (.error e, t)
  | .ok etag => (.ok (.ofEtag etag), { t with cachedRemoteVersion := some (.ofEtag etag) })

def head (t : S3Transport) : S3Run (Except S3Error (Option ObjectVersion) × S3Transport) := do
  match ← headObject t.key with
  | .ok etag => return (.ok (some (.ofEtag etag)), { t with cachedRemoteVersion := some (.ofEtag etag) })
  | .error .notFound => return (.ok none, { t with cachedRemoteVersion := none })
  | .error e => return (.error e, t)

def fetchIfChanged (t : S3Transport) (prevVersion : Option ObjectVersion) :
    S3Run (Except S3Error (Option ObjectSnapshot) × S3Transport) := do
  match ← getObject t.key (prevVersion.map (·.etag)) with
  | .error e => return (.error e, t)
  | .ok .notModified => return (.ok none, t)
  | .ok (.body etag bytes) =>
    return (.ok (some ⟨.ofEtag etag, bytes⟩), { t with cachedRemoteVersion := some (.ofEtag etag) })

/-- The upload to a backend that ignores `If-Match`: the object is looked at afterwards. -/
def putDegraded (t : S3Transport) (bytes : Bytes) : S3Run (Except S3Error ObjectVersion × S3Transport) := do
  match ← putObject t.key bytes none with
  | .error e => return (.error e, t)
  | .ok putEtag =>
    match ← headObject t.key with
    | .error e => return (.error e, t)
    | .ok headEtag =>
      if headEtag ≠ putEtag then return (.error .concurrentWriteDetected, t) else return t.uploaded (.ok putEtag)

/-- The upload once the backend is classified, as far as it can be. -/
def putClassified (t : S3Transport) (bytes : Bytes) (prev : ObjectVersion) :
    S3Run (Except S3Error ObjectVersion × S3Transport) := do
  match t.ifMatchSupported with
  | .supported | .unknown => return t.uploaded (← putObject t.key bytes (some prev.etag))
  | .degraded => t.putDegraded bytes

/-- `put_conditional`. -/
def putConditional (t : S3Transport) (suffix : Text) (bytes : Bytes) (ifMatch : Option ObjectVersion) :
    S3Run (Except S3Error ObjectVersion × S3Transport) := do
  match ifMatch with
  | none => return t.uploaded (← putObject t.key bytes none)
  | some prev =>
    if t.ifMatchSupported = .unknown then
      let t ← t.probeIfMatchSupport suffix
      t.putClassified bytes prev
    else t.putClassified bytes prev

end S3Transport

end Falach

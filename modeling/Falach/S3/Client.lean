import Falach.Lib.Programs
import Falach.Sync.Transport
/-!
# The S3 client

ETags, and the four operations of the client, each a request that is sent once more after a 503. Between two requests
others may change the bucket.
-/

namespace Falach

open Keepass Program

/-! ## ETags -/

inductive EtagError where
  | unquoted
  | weak
  | empty
deriving DecidableEq

def EtagError.display : EtagError → String
  | .unquoted => "ETag is missing the enclosing quotes"
  | .weak => "ETag is a weak validator (W/\"...\"); strong validator required"
  | .empty => "ETag is empty"

namespace Etag

def quoteMark : Char := Char.ofNat 34

/-- `Etag::parse`. -/
def parse (s : Text) : Except EtagError Text :=
  let trimmed := Text.trim s
  if trimmed = [] then .error .empty
  else if "W/".toList.isPrefixOf trimmed then .error .weak
  else if trimmed.head? ≠ some quoteMark ∨ trimmed.getLast? ≠ some quoteMark ∨ trimmed.length < 2 then .error .unquoted
  else
    let inner := (trimmed.drop 1).dropLast
    if inner = [] then .error .empty else .ok inner

/-- `Etag::to_header_value`. -/
def toHeaderValue (etag : Text) : Text := quoteMark :: (etag ++ [quoteMark])

/-- `quote_etag`. -/
def quote (s : Text) : Text :=
  let trimmed := Text.trim s
  if trimmed.head? = some quoteMark ∧ trimmed.getLast? = some quoteMark ∧ 2 ≤ trimmed.length then trimmed
  else toHeaderValue trimmed

theorem toHeaderValue_inj {a b : Text} : toHeaderValue a = toHeaderValue b ↔ a = b := by simp [toHeaderValue]

theorem parse_toHeaderValue {etag : Text} (h : etag ≠ []) : parse (toHeaderValue etag) = .ok etag := by
  have hquote : Text.isWhitespace quoteMark = false := by decide
  have hweak : "W/".toList.isPrefixOf (quoteMark :: (etag ++ [quoteMark])) = false := rfl
  have hlast : (quoteMark :: (etag ++ [quoteMark])).getLast? = some quoteMark := by
    rw [← List.cons_append, List.getLast?_concat]
  simp only [parse, toHeaderValue, Text.trim_eq hquote, hweak, hlast]
  simp [h]

end Etag

/-! ## Requests -/

/-- A request for an object of the bucket. -/
inductive S3Op where
  | head (key : Text)
  | get (key : Text) (ifNoneMatch : Option Text)
  | put (key : Text) (bytes : Bytes) (ifMatch : Option Text)
  | delete (key : Text)

structure HttpResponse where
  status : Nat
  etag : Option Text := none
  body : Bytes := []

/-- A response, or the error of a request that was not signed, not sent or not answered. -/
@[reducible] def S3Answer : S3Op → Type
  | _ => Except S3Error HttpResponse

abbrev S3Run (α : Type) := Program S3Op S3Answer Empty α

inductive GetResult where
  | notModified
  | body (etag : Text) (bytes : Bytes)

namespace S3Run

/-- `Client::signed_request`: a 503 is tried again, once. -/
def signedRequest (op : S3Op) : S3Run (Except S3Error HttpResponse) := do
  match ← request S3Answer op with
  | .error e => return .error e
  | .ok response => if response.status = 503 then request S3Answer op else return .ok response

/-- `parse_etag`. -/
def parseEtag (response : HttpResponse) : Except S3Error Text :=
  match response.etag with
  | none => .error (.unexpected response.status "response missing ETag header")
  | some raw => (Etag.parse raw).mapError fun e => .malformedEtag e.display

/-- The errors of the statuses that stand for no success. -/
def statusError (method : String) (status : Nat) : S3Error :=
  if status = 404 then .notFound
  else if status = 403 then .authFailed
  else if status = 503 then .remoteUnreachable "S3 503 Service Unavailable after retry"
  else .unexpected status (method ++ " returned " ++ toString status)

/-- What a response to a HEAD means. -/
def headResult (response : HttpResponse) : Except S3Error Text :=
  if response.status = 200 then parseEtag response else .error (statusError "HEAD" response.status)

def getResult (response : HttpResponse) : Except S3Error GetResult :=
  if response.status = 200 then (parseEtag response).map fun etag => .body etag response.body
  else if response.status = 304 then .ok .notModified
  else .error (statusError "GET" response.status)

def putResult (response : HttpResponse) : Except S3Error Text :=
  if response.status = 200 then parseEtag response
  else if response.status = 412 then .error .preconditionFailed
  else .error (statusError "PUT" response.status)

def deleteResult (response : HttpResponse) : Except S3Error Unit :=
  if response.status = 200 ∨ response.status = 204 then .ok () else .error (statusError "DELETE" response.status)

def headObject (key : Text) : S3Run (Except S3Error Text) := do
  return (← signedRequest (.head key)).bind headResult

def getObject (key : Text) (ifNoneMatch : Option Text) : S3Run (Except S3Error GetResult) := do
  return (← signedRequest (.get key (ifNoneMatch.map Etag.quote))).bind getResult

def putObject (key : Text) (bytes : Bytes) (ifMatch : Option Text) : S3Run (Except S3Error Text) := do
  return (← signedRequest (.put key bytes (ifMatch.map Etag.quote))).bind putResult

def deleteObject (key : Text) : S3Run (Except S3Error Unit) := do
  return (← signedRequest (.delete key)).bind deleteResult

end S3Run

end Falach

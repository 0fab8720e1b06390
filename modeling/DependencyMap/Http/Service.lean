import DependencyMap.Http.Message
import DependencyMap.Json.Encoding
import DependencyMap.Json.Value
import DependencyMap.Wire

/-!
# The HTTP service

Two endpoints: one analyzes the request in its body, the other says that the service is up. A path
with slashes after that of an endpoint is redirected; a line feed at the end of a path counts as
part of it. A body that is no request gets an error response. Three things are beyond the service,
and the server answers for it: an integer of more than 4300 digits in the body, arrays and objects
that are nested too deep in the body, and a result that holds a surrogate and so cannot be written
as UTF-8.
-/

namespace DependencyMap

namespace Http

open Json

/-- Why the service has no response to a call. -/
inductive Fault
  | longInteger (digits : Nat)
  | tooDeep
  | unwritable (fault : Utf8.EncodeFault)
deriving DecidableEq

inductive Endpoint
  | analyze
  | health
deriving DecidableEq

namespace Endpoint

def path : Endpoint → Text
  | .analyze => "/api/bridge/analyze"
  | .health => "/api/health"

def methods : Endpoint → List Text
  | .analyze => ["OPTIONS", "POST"]
  | .health => ["GET", "HEAD"]

def isAt (e : Endpoint) (path : Text) : Bool := path = e.path || path = e.path ++ "\n"

def find? (path : Text) : Option Endpoint := [analyze, health].find? fun e => e.isAt path

end Endpoint

def plain (status : Nat) (headers : Headers) (body : Text) : Response :=
  { status, headers := headers ++ [(contentType, plainText)],
    body := Utf8.encodeLoosely body }

/-- The headers of every response of the analysis. -/
def analysisHeaders : Headers := [
  (allowOrigin, "*"), (allowMethods, "POST, OPTIONS"), (allowHeaders, "Content-Type")]

/-- A JSON response, which fails where the value holds a surrogate. -/
def jsonResponse (status : Nat) (headers : Headers) (v : Value) : Except Fault Response :=
  match Utf8.encode v.toCompact with
  | .error fault => .error (.unwritable fault)
  | .ok body =>
    .ok { status, headers := headers ++ [(contentType, Text.ofString "application/json")], body }

def invalidBody : Value := .object [("error", .text "Invalid request body")]

def analysisResponse (a : Analysis) : Except Fault Response :=
  jsonResponse 200 analysisHeaders a.toJson

/-- The response to a body that is sent for analysis, in which `room` arrays and objects may stand
in one another. -/
def analyzeBody (room : Option Nat) (body : Bytes) : Except Fault Response :=
  match Json.decode room body with
  | .error (.unread (.longInteger digits)) => .error (.longInteger digits)
  | .error (.unread .tooDeep) => .error .tooDeep
  | .error _ => jsonResponse 400 analysisHeaders invalidBody
  | .ok v =>
    match Request.ofJson v with
    | .error _ => jsonResponse 400 analysisHeaders invalidBody
    | .ok request => analysisResponse request.analyze

/-- The response of an endpoint to a method that it knows. -/
def Endpoint.respond (room : Option Nat) (e : Endpoint) (c : Call) : Except Fault Response :=
  match e with
  | .analyze =>
    if c.method = "OPTIONS" then .ok { status := 200, headers := analysisHeaders, body := [] }
    else analyzeBody room c.body
  | .health => jsonResponse 200 [] (.object [("status", .text "ok")])

/-- The path without the slashes at its end. -/
def withoutEndSlashes (path : Text) : Text :=
  (path.reverse.dropWhile fun c : CodePoint => c = '/').reverse

/-- The response to a call that is no preflight, before it is shared. -/
def route (room : Option Nat) (c : Call) : Except Fault Response :=
  match Endpoint.find? c.path with
  | some e =>
    if e.methods.contains c.method then e.respond room c
    else .ok (plain 405 [("allow", Text.listed e.methods)] "Method Not Allowed")
  | none =>
    if c.path.endsWith "/" ∧ (Endpoint.find? (withoutEndSlashes c.path)).isSome = true then
      .ok { status := 307, headers := [], body := [] }
    else .ok (plain 404 [] "Not Found")

/-- What the server answers where the service has no response. No other origin may see it. -/
def serverError : Response := plain 500 [] "Internal Server Error"

/-- A response, and the fault of the service if it is the server that answers. -/
structure Reply where
  response : Response
  fault? : Option Fault

/-- The reply to a call. -/
def respond (room : Option Nat) (c : Call) : Reply :=
  match preflight? c with
  | some p => ⟨p.response, none⟩
  | none =>
    match route room c with
    | .ok r => ⟨if c.headers.contains "origin" then shared r else r, none⟩
    | .error fault => ⟨serverError, some fault⟩

end Http

end DependencyMap

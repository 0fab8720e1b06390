import DependencyMap.PathMap
import DependencyMap.Text.Utf8

/-!
# HTTP messages

Calls and responses. Names of headers are compared without regard to the case of ASCII letters.

Browsers of every origin may call the service. A preflight, that is an `OPTIONS` call that names its
origin and the method it asks for, is answered here for every path; every other call that names its
origin gets the permission added to its response.
-/

namespace DependencyMap

namespace Http

abbrev Headers := Members Text

namespace Headers

/-- The value of the first header of the given name, which is in small letters. -/
def value? (headers : Headers) (name : Text) : Option Text :=
  (List.find? (fun h => h.1.map CodePoint.toLower = name) headers).map (·.2)

def contains (headers : Headers) (name : Text) : Bool := (value? headers name).isSome

end Headers

def contentType : Text := "content-type"

def plainText : Text := "text/plain; charset=utf-8"

structure Call where
  method : Text
  path : Text
  headers : Headers
  body : Bytes

structure Response where
  status : Nat
  headers : Headers
  body : Bytes

/-! ### Sharing with other origins -/

def allowOrigin : Text := "access-control-allow-origin"

def allowMethods : Text := "access-control-allow-methods"

def allowHeaders : Text := "access-control-allow-headers"

def sharedMethods : List Text := ["POST", "OPTIONS"]

def sharedHeaders : List Text := ["Accept", "Accept-Language", "Content-Language", "Content-Type"]

/-- Whether each header of a list separated by commas may be sent. -/
def headersAllowed (requested : Text) : Bool :=
  (requested.splitOn (CodePoint.ofChar ',')).all fun name =>
    (sharedHeaders.map fun shared => shared.map CodePoint.toLower).contains
      (Text.strip (name.map CodePoint.toLower))

/-- What a preflight asks for. -/
structure Preflight where
  method : Text
  /-- The names of headers, separated by commas. -/
  headers : Option Text
  /-- Whether the caller wants to come in from a less private network. -/
  privateNetwork : Bool

/-- What a preflight asks for and does not get. -/
def Preflight.refusals (p : Preflight) : List Text :=
  let unlessAllowed (allowed : Bool) (what : String) : List Text := if allowed then [] else [what]
  unlessAllowed (sharedMethods.contains p.method) "method" ++
    unlessAllowed ((p.headers.map headersAllowed).getD true) "headers" ++
    unlessAllowed (!p.privateNetwork) "private-network"

def preflight? (c : Call) : Option Preflight :=
  if c.method = "OPTIONS" ∧ c.headers.contains "origin" = true then
    (c.headers.value? "access-control-request-method").map fun method =>
      { method
        headers := c.headers.value? "access-control-request-headers"
        privateNetwork := c.headers.contains "access-control-request-private-network" }
  else none

def Preflight.response (p : Preflight) : Response :=
  let refused := p.refusals
  { status := if refused.isEmpty then 200 else 400
    headers := [
      (allowOrigin, "*"), (allowMethods, Text.listed sharedMethods),
      ("access-control-max-age", "600"), (allowHeaders, Text.listed sharedHeaders),
      (contentType, plainText)]
    body := Utf8.encodeLoosely
      (if refused.isEmpty then "OK" else "Disallowed CORS " ++ Text.listed refused) }

/-- The response to a call that names its origin. -/
def shared (r : Response) : Response := { r with headers := Members.set allowOrigin "*" r.headers }

end Http

end DependencyMap

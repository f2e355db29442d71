import KinQuery.Json.Reader
import KinQuery.Service.Basic
import KinQuery.Service.MediaType

/-! Queries over HTTP: a POST of a JSON document with a term to `/v1/query`.

A request that does not get as far as a query takes no number. -/
namespace KinQuery.Http

structure Request where
  method : String
  /-- The path, perhaps with a query part after it. -/
  target : String
  contentType : Option String
  body : String

/-- A status and a document; without one, the body is empty or plain text. -/
structure Response where
  status : Nat
  body : Option Json

/-! ### Reading requests -/

/-- Why a body is refused. -/
inductive BodyFault where
  /-- It is no JSON. -/
  | broken
  /-- It is JSON, but no object with a term. -/
  | misshapen
  deriving DecidableEq

/-- Why a value that begins here, and is neither an array nor an object, is no term. -/
def scalarFault (cs : List Char) : BodyFault :=
  match Json.takeScalar cs with
  | none => .broken
  | some (.flawed, _) => .broken
  | some _ => .misshapen

/-- Reads the term itself, which has to be a text. -/
def takeTerm (cs : List Char) : Except BodyFault (String × List Char) :=
  match Json.skipSpace cs with
  | '"' :: cs =>
    match Json.takeText cs with
    | some (some term, rest) => .ok (term, rest)
    | _ => .error .broken
  | '[' :: _ => .error .misshapen
  | '\x7b' :: _ => .error .misshapen
  | cs => .error (scalarFault cs)

/-- Reads one member of an object. The term may not be given twice; the value of any other
member is skipped. -/
def takeMember (found : Option String) (cs : List Char) :
    Except BodyFault (Option String × List Char) :=
  match Json.skipSpace cs with
  | '"' :: cs =>
    match Json.takeText cs with
    | some (some key, rest) =>
      if key = "term" && found.isSome then .error .misshapen
      else match Json.skipSpace rest with
        | ':' :: rest =>
          if key = "term" then (takeTerm rest).map fun (term, rest) => (some term, rest)
          else match Json.takeValue (Json.depthFor rest) rest with
            | some (_, rest) => .ok (found, rest)
            | none => .error .broken
        | _ => .error .broken
    | _ => .error .broken
  | _ => .error .broken

/-- Reads the members of an object and stops at its end. The first fault counts, and what
follows the object is not looked at. -/
def takeMembers (found : Option String) : (bound : Nat) → List Char → Except BodyFault String
  | 0, _ => .error .broken
  | bound + 1, cs =>
    match takeMember found cs with
    | .error fault => .error fault
    | .ok (found, rest) =>
      match Json.skipSpace rest, found with
      | ',' :: rest, found => takeMembers found bound rest
      | '\x7d' :: _, some term => .ok term
      | '\x7d' :: _, none => .error .misshapen
      | _, _ => .error .broken

/-- The term of a body: the member of an object, or the only item of an array. -/
def readBody (body : String) : Except BodyFault String :=
  match Json.skipSpace body.toList with
  | '\x7b' :: cs =>
    match Json.skipSpace cs with
    | '\x7d' :: _ => .error .misshapen
    | cs => takeMembers none (cs.length + 1) cs
  | '[' :: cs =>
    match Json.skipSpace cs with
    | ']' :: _ => .error .misshapen
    | cs =>
      match takeTerm cs with
      | .error fault => .error fault
      | .ok (term, rest) =>
        match Json.skipSpace rest with
        | ']' :: _ => .ok term
        | _ => .error .broken
  | cs => .error (scalarFault cs)

/-! ### Answers -/

def refusal (status : Nat) : Response :=
  ⟨status, none⟩

/-- The status of a failed query: a bad query is the caller's fault. -/
def failureStatus (halt : Halt) : Nat :=
  if halt.isLanguage then 400 else 500

def document (reply : Reply) : Json :=
  let id := ("id", Json.number (.integer reply.id))
  match reply.result with
  | .ok v => .object [id, ("status", .text "ok"), ("kind", .text v.kind.name),
    ("value", .text v.text), ("term", .text v.term)]
  | .error halt => .object [id, ("status", .text "error"), ("error", .text halt.message)]

def response (reply : Reply) : Response :=
  match reply.result with
  | .ok _ => ⟨200, some (document reply)⟩
  | .error halt => ⟨failureStatus halt, some (document reply)⟩

/-- What follows the scheme and the host of a target. -/
def afterHost : List Char → List Char
  | ':' :: '/' :: '/' :: cs => cs.dropWhile (· ≠ '/')
  | _ :: cs => afterHost cs
  | [] => []

/-- The path of a target, without its query part, and without a scheme and a host, which it may
begin with. -/
def path (target : String) : String :=
  let cs := target.toList.takeWhile fun c => c ≠ '?' && c ≠ '#'
  .ofList (if cs.head? = some '/' then cs else afterHost cs)

/-- The most bytes that a body may have. -/
def bodyLimit : Nat := 2 * 1024 * 1024

/-- Answers a request. Browsers may ask beforehand with OPTIONS what they are allowed. -/
def answer (depth : Nat) (request : Request) (s : Service) : Response × Service :=
  if request.method = "OPTIONS" then (refusal 200, s)
  else if path request.target ≠ "/v1/query" then (refusal 404, s)
  else if request.method ≠ "POST" then (refusal 405, s)
  else if !(request.contentType.map MediaType.isJson).getD false then (refusal 415, s)
  else if bodyLimit < request.body.utf8ByteSize then (refusal 413, s)
  else match readBody request.body with
    | .error .broken => (refusal 400, s)
    | .error .misshapen => (refusal 422, s)
    | .ok term =>
      let (reply, s) := s.run depth term
      (response reply, s)

end KinQuery.Http

import NagoWss.Core.Search
import NagoWss.Core.Text
import NagoWss.Proto.Digest

/-!
# The opening handshake

The HTTP of the upgrade: finding the end of a head, parsing a request or a
response out of it, and building either side's head. A client and a server agree
when each accepts what the other builds.
-/

namespace NagoWss

/-- Why an upgrade was not acceptable. -/
inductive UpgradeError
  /-- The head was not valid HTTP, or a header line had no colon. -/
  | malformed
  /-- The method was not `GET`. -/
  | notGet
  /-- `Upgrade: websocket` or `Connection: Upgrade` was missing. -/
  | notAnUpgrade
  /-- `Sec-WebSocket-Version` was absent or not 13. -/
  | wrongVersion
  /-- `Sec-WebSocket-Key` was absent or not sixteen bytes of base64. -/
  | badKey
  /-- The head was longer than the limit. -/
  | headTooLarge
  deriving DecidableEq, Repr

/-- The largest request head that is parsed. -/
def DEFAULT_MAX_HEAD : Nat := 16 * 1024

/-- The largest number of header lines a head may contain. -/
def MAX_HEADERS : Nat := 128

/-- The method on the request line. -/
inductive Method
  | get
  | options
  | head
  /-- Any other method, as it appeared on the request line. -/
  | other (name : List Char)
  deriving DecidableEq, Repr

/-- A header line: its name and its value. -/
abbrev HeaderLine := List Char × List Char

/-- What a server needs out of a client's request. -/
structure Request where
  /-- The method, which decides whether an upgrade was even possible. -/
  method : Method
  /-- The path requested. -/
  path : List Char
  /-- The handshake key, empty on a request that was not an upgrade. -/
  key : Bytes
  /-- The subprotocols offered, in order of preference. -/
  protocols : List (List Char)
  /-- Every header line in the order it arrived. -/
  headers : List HeaderLine
  deriving DecidableEq, Repr

/-- A parsed request head, and whether it asked for a WebSocket. -/
inductive Parsed
  /-- A well formed upgrade. -/
  | upgrade (request : Request)
  /-- A well formed request that did not ask to be upgraded. -/
  | plain (request : Request)
  deriving DecidableEq, Repr

/-- The blank line that ends a head: carriage return and line feed twice. -/
def CRLFCRLF : Bytes := [13, 10, 13, 10]

/-- The bare line feed pair that is tolerated as well. -/
def LFLF : Bytes := [10, 10]

/-- The offset just past the blank line that ends an HTTP head. -/
def headEnd (input : Bytes) : Option Nat :=
  match (Search.firstIndex CRLFCRLF input).map (· + 4) with
  | some stop => some stop
  | none => (Search.firstIndex LFLF input).map (· + 2)

/-- What the header lines of a request have said so far. -/
structure Fields where
  /-- The last `Upgrade` header named `websocket`. -/
  upgradeSeen : Bool := false
  /-- The last `Connection` header listed `upgrade`. -/
  connectionSeen : Bool := false
  /-- The last `Sec-WebSocket-Version` header was 13. -/
  versionOk : Bool := false
  /-- The value of the last `Sec-WebSocket-Key` header. -/
  key : Option Bytes := none
  /-- The subprotocols offered. -/
  protocols : List (List Char) := []
  /-- Every header line. -/
  headers : List HeaderLine := []

/-- The non-empty tokens of a comma separated list. -/
def tokens (value : List Char) : List (List Char) :=
  ((value.splitOn ',').map Text.trim).filter (!·.isEmpty)

/-- Interpret one header of a request. -/
def Fields.interpret (f : Fields) (name value : List Char) : Fields :=
  if Text.eqIgnoreAsciiCase name "upgrade".toList then
    { f with upgradeSeen := Text.eqIgnoreAsciiCase value "websocket".toList }
  else if Text.eqIgnoreAsciiCase name "connection".toList then
    { f with connectionSeen := (value.splitOn ',').any fun token =>
        Text.eqIgnoreAsciiCase (Text.trim token) "upgrade".toList }
  else if Text.eqIgnoreAsciiCase name "sec-websocket-version".toList then
    { f with versionOk := value == "13".toList }
  else if Text.eqIgnoreAsciiCase name "sec-websocket-key".toList then
    { f with key := some (Utf8.encode value) }
  else if Text.eqIgnoreAsciiCase name "sec-websocket-protocol".toList then
    { f with protocols := f.protocols ++ tokens value }
  else f

/-- Read one line of a request behind the request line. -/
def Fields.line (f : Fields) (line : List Char) : Except UpgradeError Fields :=
  if line.isEmpty then .ok f
  else
    match Text.splitOnce ':' line with
    | none => .error .malformed
    | some (name, value) =>
      let value := Text.trim value
      let f := f.interpret name value
      if f.headers.length = MAX_HEADERS then .error .headTooLarge
      else .ok { f with headers := f.headers ++ [(name, value)] }

/-- The method a word of the request line names. -/
def Method.named (word : List Char) : Method :=
  if Text.eqIgnoreAsciiCase word "GET".toList then .get
  else if Text.eqIgnoreAsciiCase word "OPTIONS".toList then .options
  else if Text.eqIgnoreAsciiCase word "HEAD".toList then .head
  else .other word

/-- Decide what a request with these fields asked for. -/
def Fields.conclude (f : Fields) (method : Method) (path : List Char) :
    Except UpgradeError Parsed :=
  let request : Request := ⟨method, path, [], f.protocols, f.headers⟩
  if request.method ≠ .get || !f.upgradeSeen || !f.connectionSeen then .ok (.plain request)
  else if !f.versionOk then .error .wrongVersion
  else
    match f.key with
    | none => .error .badKey
    | some key =>
      if !isValidKey key then .error .badKey else .ok (.upgrade { request with key := key })

/-- Parse a client's request head. -/
def parseRequest (input : Bytes) (maxHead : Nat) : Except UpgradeError Parsed :=
  if input.length > maxHead then .error .headTooLarge
  else
    match Utf8.decode input with
    | none => .error .malformed
    | some text =>
      match Text.lines text with
      | [] => .error .malformed
      | start :: lines =>
        match start.splitOn ' ' with
        | method :: path :: _ => do
          let f ← lines.foldlM Fields.line {}
          f.conclude (Method.named method) path
        | _ => .error .malformed

/-- Header lines as they are written. -/
def writeHeaders (headers : List HeaderLine) : List Char :=
  headers.flatMap fun (name, value) => name ++ ": ".toList ++ value ++ "\r\n".toList

/-- The 101 response that completes the handshake. -/
def buildResponse (key : Bytes) (protocol : Option (List Char)) (extra : List HeaderLine) : Bytes :=
  Utf8.encode <|
    "HTTP/1.1 101 Switching Protocols\r\n".toList ++
    "Upgrade: websocket\r\n".toList ++
    "Connection: Upgrade\r\n".toList ++
    "Sec-WebSocket-Accept: ".toList ++ acceptFor key ++ "\r\n".toList ++
    (match protocol with
      | some protocol => "Sec-WebSocket-Protocol: ".toList ++ protocol ++ "\r\n".toList
      | none => []) ++
    writeHeaders extra ++ "\r\n".toList

/-- The plain HTTP refusal of a request that cannot be upgraded. -/
def buildRejection (error : UpgradeError) (extra : List HeaderLine) : Bytes :=
  let (status, reason) := match error with
    | .wrongVersion => ("426 Upgrade Required".toList, "Sec-WebSocket-Version: 13\r\n".toList)
    | .headTooLarge => ("431 Request Header Fields Too Large".toList, [])
    | _ => ("400 Bad Request".toList, [])
  Utf8.encode <|
    "HTTP/1.1 ".toList ++ status ++ "\r\n".toList ++ reason ++ "Connection: close\r\n".toList ++
    "Content-Length: 0\r\n".toList ++ writeHeaders extra ++ "\r\n".toList

/-- A client's upgrade request. -/
def buildRequest (path host key : List Char) (protocols : List (List Char))
    (extra : List HeaderLine) : Bytes :=
  Utf8.encode <|
    "GET ".toList ++ path ++ " HTTP/1.1\r\nHost: ".toList ++ host ++
    "\r\nUpgrade: websocket\r\nConnection: Upgrade\r\nSec-WebSocket-Key: ".toList ++ key ++
    "\r\nSec-WebSocket-Version: 13\r\n".toList ++
    (if protocols.isEmpty then []
      else "Sec-WebSocket-Protocol: ".toList ++ List.intercalate ", ".toList protocols ++
        "\r\n".toList) ++
    writeHeaders extra ++ "\r\n".toList

/-- What the header lines of a response have said so far. -/
structure Answer where
  /-- The last `Sec-WebSocket-Accept` header was the expected one. -/
  acceptOk : Bool := false
  /-- The last subprotocol named. -/
  protocol : Option (List Char) := none

/-- Read one line of a response behind the status line. -/
def Answer.line (expected : List Char) (a : Answer) (line : List Char) : Answer :=
  if line.isEmpty then a
  else
    match Text.splitOnce ':' line with
    | none => a
    | some (name, value) =>
      let value := Text.trim value
      if Text.eqIgnoreAsciiCase name "sec-websocket-accept".toList then
        { a with acceptOk := value == expected }
      else if Text.eqIgnoreAsciiCase name "sec-websocket-protocol".toList then
        { a with protocol := some value }
      else a

/-- Check a server's response against the key that was sent. -/
def checkResponse (input : Bytes) (key : List Char) :
    Except UpgradeError (Option (List Char)) :=
  match Utf8.decode input with
  | none => .error .malformed
  | some text =>
    match Text.lines text with
    | [] => .error .malformed
    | status :: lines =>
      if ¬"101".toList <:+: status then .error .notAnUpgrade
      else
        let a := lines.foldl (Answer.line (acceptFor (Utf8.encode key))) {}
        if !a.acceptOk then .error .badKey else .ok a.protocol

end NagoWss

import ZoraVM.Unix.TextProc

namespace ZoraVM.Network

open Foundation
open Unix (scanInt)

def colon : UInt8 := 58

-- The ints of the policy, read as the code reads them: true when not 0.
structure VirtualNetwork where
  virtualInterfaceUp : Bool
  natEnabled : Bool
  allowOutbound : Bool
  allowHttp : Bool
  allowHttps : Bool
  allowDns : Bool
  blockDangerousPorts : Bool
  deriving DecidableEq, Repr

-- What lies outside: the answers of the socket library.
structure Winsock where
  socket : Bool
  getaddrinfo : Bytes → Option Int → Option Bytes
  connect : Bytes → Bool
  send : Bytes → Bool

section Policy

variable (vnet : Option VirtualNetwork)

def dangerousPorts : List Int := [23, 135, 139, 445, 593, 1433, 1434, 3389, 5900, 6129]

def networkIsPortAllowed (port : Int) : Bool :=
  match vnet with
  | none => true
  | some net =>
    if !net.blockDangerousPorts then true
    else if port ∈ dangerousPorts then false
    else if port = 80 ∨ port = 443 ∨ port = 53 ∨ port = 22 then true
    else if port < 1024 then false
    else true

-- The dotted address, cut to the caller's buffer.
def networkResolveDns (w : Winsock) (hostname : Bytes) (ipSize : Nat) : Option Bytes :=
  match vnet with
  | none => none
  | some net => if !net.allowDns then none else (w.getaddrinfo hostname none).map (clip ipSize)

def networkSimulateConnect (w : Winsock) (host : Bytes) (port _protocol : Int) : Int :=
  match vnet with
  | none => -1
  | some net =>
    if !net.virtualInterfaceUp then -1
    else if !networkIsPortAllowed vnet port then -1
    else
      match networkResolveDns vnet w host 16 with
      | none => -1
      | some _ => 0

end Policy

section Url

-- atoi stops at the ends of the range of an int.
def atoi (text : Bytes) : Int :=
  match scanInt text with
  | none => 0
  | some (n, _) => max (-2 ^ 31) (min n (2 ^ 31 - 1))

def isHttps (url : Bytes) : Bool := (str "https://").isPrefixOf url
def isHttp (url : Bytes) : Bool := (str "http://").isPrefixOf url

def urlStart (url : Bytes) : Bytes := url.drop (if isHttps url then 8 else 7)

def defaultPort (url : Bytes) : Int := if isHttps url then 443 else 80

def hasPort (start : Bytes) : Bool := colon ∈ start.takeWhile (· ≠ slash)

def requestPort (url : Bytes) : Int :=
  let start := urlStart url
  if hasPort start then atoi (start.drop ((start.takeWhile (· ≠ colon)).length + 1))
  else defaultPort url

-- host_len is an int; the comparison with sizeof(host) is made on size_t.
def clippedLength (n : Nat) : Nat := if 256 ≤ n % 2 ^ 32 then 255 else n % 2 ^ 32

def requestHost (url : Bytes) : Bytes :=
  let start := urlStart url
  let length :=
    if hasPort start then (start.takeWhile (· ≠ colon)).length
    else (start.takeWhile (· ≠ slash)).length
  start.take (clippedLength length)

def requestPath (url : Bytes) : Bytes :=
  let start := urlStart url
  if slash ∈ start then clip 512 (start.dropWhile (· ≠ slash)) else [slash]

def crlf : Bytes := [13, 10]

def requestText (method path host : Bytes) : Bytes :=
  method ++ str " " ++ path ++ str " HTTP/1.1" ++ crlf ++ str "Host: " ++ host ++ crlf ++
    str "User-Agent: ZoraVM/3.12" ++ crlf ++ str "Connection: close" ++ crlf ++ crlf

end Url

section Request

variable (vnet : Option VirtualNetwork) (w : Winsock)

-- The calls of connect, with the host and the port they are made for, and the answer.
structure Reply where
  connects : List (Bytes × Int)
  answer : Outcome Int
  deriving DecidableEq

def refused : Reply := ⟨[], .ok (-1)⟩

-- request has 2048 bytes.
def sendRequest (url method : Bytes) : Outcome Int :=
  let request := requestText method (requestPath url) (requestHost url)
  if 2048 ≤ request.length then .error .bufferOverflow
  else .ok (if w.send request then 0 else -1)

def networkHttpRequest (url method : Bytes) : Reply :=
  match vnet with
  | none => refused
  | some net =>
    if !net.natEnabled then refused
    else if isHttps url && !net.allowHttps then refused
    else if isHttp url && !net.allowHttp then refused
    else if !isHttp url && !isHttps url then refused
    else if !w.socket then refused
    else
      match w.getaddrinfo (requestHost url) (some (requestPort url)) with
      | none => refused
      | some address =>
        ⟨[(requestHost url, requestPort url)],
          if w.connect address then sendRequest w url method else .ok (-1)⟩

end Request

end ZoraVM.Network

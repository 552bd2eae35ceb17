import ZoraVM.Foundation.Run
import ZoraVM.Foundation.SlotTable

namespace ZoraVM.Kernel

open Foundation

def sockStream : Int := 1
def sockDgram : Int := 2

def afInet : Int := 2

def maxSockets : Nat := 256
def maxListenBacklog : Int := 128

inductive SocketState where
  | closed
  | listen
  | synSent
  | synReceived
  | established
  | finWait1
  | finWait2
  | closeWait
  | closing
  | lastAck
  | timeWait
  deriving DecidableEq, Repr

-- The port is in network byte order.
structure SocketAddress where
  family : BitVec 16
  port : BitVec 16
  addr : Vector (BitVec 8) 4
  padding : Vector (BitVec 8) 8
  deriving DecidableEq, Repr

structure Socket where
  fd : Int
  family : Int
  type : Int
  protocol : Int
  state : SocketState
  localAddr : SocketAddress
  remoteAddr : SocketAddress
  backlog : Int
  seqNum : BitVec 32
  deriving DecidableEq, Repr

structure NetworkStats where
  packetsSent : BitVec 64
  packetsReceived : BitVec 64
  bytesSent : BitVec 64
  bytesReceived : BitVec 64
  tcpConnections : BitVec 64
  udpDatagrams : BitVec 64
  deriving DecidableEq, Repr

structure NetStack where
  sockets : List (Option Socket)
  nextFd : Int
  globalStats : NetworkStats
  deriving DecidableEq, Repr

abbrev Rand := BitVec 31

def htons (hostshort : BitVec 16) : BitVec 16 :=
  ((hostshort &&& 0xFF) <<< 8) ||| ((hostshort >>> 8) &&& 0xFF)

def ntohs (netshort : BitVec 16) : BitVec 16 := htons netshort

def noAddress : SocketAddress := ⟨0, 0, Vector.replicate 4 0, Vector.replicate 8 0⟩

def netstackInit : NetStack where
  sockets := List.replicate maxSockets none
  nextFd := 3
  globalStats := ⟨0, 0, 0, 0, 0, 0⟩

def newSocket (fd family type protocol : Int) (seq : Rand) : Socket where
  fd := fd
  family := family
  type := type
  protocol := protocol
  state := .closed
  localAddr := noAddress
  remoteAddr := noAddress
  backlog := 0
  seqNum := seq.setWidth 32

def netstackSocket (s : NetStack) (family type protocol : Int) (seq : Rand) : NetStack × Int :=
  if family ≠ afInet then (s, -1)
  else
    match firstFree s.sockets with
    | none => (s, -1)
    | some i =>
      let fd := s.nextFd
      ({ s with
        sockets := s.sockets.set i (some (newSocket fd family type protocol seq))
        nextFd := (fd + 1).bmod (2 ^ 32) }, fd)

def findSocket (s : NetStack) (sockfd : Int) : Option (Nat × Socket) :=
  findEntry s.sockets fun sock => sock.fd = sockfd

def NetStack.put (s : NetStack) (i : Nat) (sock : Socket) : NetStack :=
  { s with sockets := s.sockets.set i (some sock) }

def anyOther (s : NetStack) (i : Nat) (f : Socket → Bool) : Bool :=
  (s.sockets.set i none).any fun slot => slot.any f

def netstackBind (s : NetStack) (sockfd : Int) (addr : SocketAddress) : NetStack × Int :=
  match findSocket s sockfd with
  | none => (s, -1)
  | some (i, sock) =>
    let port := ntohs addr.port
    if anyOther s i fun other => ntohs other.localAddr.port = port then (s, -1)
    else (s.put i { sock with localAddr := addr }, 0)

def netstackListen (s : NetStack) (sockfd backlog : Int) : NetStack × Int :=
  match findSocket s sockfd with
  | none => (s, -1)
  | some (i, sock) =>
    if sock.type ≠ sockStream then (s, -1)
    else
      let backlog := if backlog > maxListenBacklog then maxListenBacklog else backlog
      (s.put i { sock with state := .listen, backlog := backlog }, 0)

def simulatedPeer (padding : Vector (BitVec 8) 8) (port octet : Rand) : SocketAddress where
  family := 2
  port := htons (BitVec.ofNat 16 (50000 + port.toNat % 15000))
  addr := #v[10, 0, 2, BitVec.ofNat 8 (2 + octet.toNat % 253)]
  padding := padding

def NetworkStats.connected (stats : NetworkStats) : NetworkStats :=
  { stats with tcpConnections := stats.tcpConnections + 1 }

-- The last part of the answer is the caller's address structure after the call.
def netstackAccept (s : NetStack) (sockfd : Int) (addr : Option SocketAddress)
    (seq port octet : Rand) : NetStack × Int × Option SocketAddress :=
  match findSocket s sockfd with
  | none => (s, -1, addr)
  | some (_, sock) =>
    if sock.state ≠ .listen then (s, -1, addr)
    else
      let made := netstackSocket s sock.family sock.type sock.protocol seq
      let newFd := made.2
      if newFd < 0 then (made.1, -1, addr)
      else
        match findSocket made.1 newFd with
        | none => (made.1, newFd, addr)
        | some (j, newSock) =>
          let remote := simulatedPeer newSock.remoteAddr.padding port octet
          let accepted :=
            { newSock with state := .established, localAddr := sock.localAddr, remoteAddr := remote }
          ({ made.1.put j accepted with globalStats := made.1.globalStats.connected }, newFd,
            addr.map fun _ => remote)

def netstackConnect (s : NetStack) (sockfd : Int) (addr : SocketAddress) : NetStack × Int :=
  match findSocket s sockfd with
  | none => (s, -1)
  | some (i, sock) =>
    let sock := { sock with remoteAddr := addr }
    if sock.type = sockStream then
      ({ s.put i { sock with state := .established } with
        globalStats := s.globalStats.connected }, 0)
    else (s.put i sock, 0)

def NetworkStats.sent (stats : NetworkStats) (size : BitVec 32) : NetworkStats :=
  { stats with
    packetsSent := stats.packetsSent + 1
    bytesSent := stats.bytesSent + size.setWidth 64 }

def NetworkStats.received (stats : NetworkStats) (bytes : BitVec 32) : NetworkStats :=
  { stats with
    packetsReceived := stats.packetsReceived + 1
    bytesReceived := stats.bytesReceived + bytes.setWidth 64 }

def NetworkStats.datagram (stats : NetworkStats) : NetworkStats :=
  { stats with udpDatagrams := stats.udpDatagrams + 1 }

def netstackSend (s : NetStack) (sockfd : Int) (size : BitVec 32) : NetStack × Int :=
  match findSocket s sockfd with
  | none => (s, -1)
  | some (_, sock) =>
    if sock.state ≠ .established then (s, -1)
    else
      let stats := s.globalStats.sent size
      let stats :=
        if sock.type = sockStream then stats.connected
        else if sock.type = sockDgram then stats.datagram
        else stats
      ({ s with globalStats := stats }, size.toInt)

-- rand() % size has no value for size 0.
def bytesReceived (size : BitVec 32) (r : Rand) : Option (BitVec 32) :=
  if size = 0 then none
  else
    let bytes := r.setWidth 32 % size + 1
    some (if size < bytes then size else bytes)

def netstackRecv (s : NetStack) (sockfd : Int) (size : BitVec 32) (r : Rand) :
    Option (NetStack × Int) :=
  match findSocket s sockfd with
  | none => some (s, -1)
  | some _ => do
    let bytes ← bytesReceived size r
    some ({ s with globalStats := s.globalStats.received bytes }, bytes.toInt)

def netstackSendto (s : NetStack) (sockfd : Int) (size : BitVec 32) : NetStack × Int :=
  match findSocket s sockfd with
  | none => (s, -1)
  | some _ => ({ s with globalStats := (s.globalStats.sent size).datagram }, size.toInt)

-- The message at the end reads the address even where the caller gave none.
def netstackRecvfrom (s : NetStack) (sockfd : Int) (size : BitVec 32) (addr : Option SocketAddress)
    (r port octet : Rand) : Option (NetStack × Int × Option SocketAddress) :=
  match findSocket s sockfd with
  | none => some (s, -1, addr)
  | some _ => do
    let bytes ← bytesReceived size r
    let given ← addr
    some ({ s with globalStats := (s.globalStats.received bytes).datagram }, bytes.toInt,
      some (simulatedPeer given.padding port octet))

def netstackClose (s : NetStack) (sockfd : Int) : NetStack × Int :=
  match findSocket s sockfd with
  | none => (s, -1)
  | some (i, _) => ({ s with sockets := s.sockets.set i none }, 0)

inductive NetCall where
  | socket (family type protocol : Int) (seq : Rand)
  | bind (sockfd : Int) (addr : SocketAddress)
  | listen (sockfd backlog : Int)
  | accept (sockfd : Int) (addr : Option SocketAddress) (seq port octet : Rand)
  | connect (sockfd : Int) (addr : SocketAddress)
  | send (sockfd : Int) (size : BitVec 32)
  | recv (sockfd : Int) (size : BitVec 32) (r : Rand)
  | sendto (sockfd : Int) (size : BitVec 32)
  | recvfrom (sockfd : Int) (size : BitVec 32) (addr : Option SocketAddress) (r port octet : Rand)
  | close (sockfd : Int)
  deriving DecidableEq, Repr

-- `none` is a call that C gives no meaning.
def netCall (s : NetStack) : NetCall → Option (NetStack × Int)
  | .socket family type protocol seq => some (netstackSocket s family type protocol seq)
  | .bind sockfd addr => some (netstackBind s sockfd addr)
  | .listen sockfd backlog => some (netstackListen s sockfd backlog)
  | .accept sockfd addr seq port octet =>
    let done := netstackAccept s sockfd addr seq port octet
    some (done.1, done.2.1)
  | .connect sockfd addr => some (netstackConnect s sockfd addr)
  | .send sockfd size => some (netstackSend s sockfd size)
  | .recv sockfd size r => netstackRecv s sockfd size r
  | .sendto sockfd size => some (netstackSendto s sockfd size)
  | .recvfrom sockfd size addr r port octet => do
    let done ← netstackRecvfrom s sockfd size addr r port octet
    some (done.1, done.2.1)
  | .close sockfd => some (netstackClose s sockfd)

def NetCall.sockfd : NetCall → Option Int
  | .socket .. => none
  | .bind sockfd _ | .listen sockfd _ | .accept sockfd .. | .connect sockfd _ | .send sockfd _
  | .recv sockfd .. | .sendto sockfd _ | .recvfrom sockfd .. | .close sockfd => some sockfd

structure NetEvent where
  before : NetStack
  call : NetCall
  answer : Int
  deriving DecidableEq, Repr

structure NetWorld where
  stack : NetStack
  log : List NetEvent
  deriving DecidableEq, Repr

def NetWorld.step (w : NetWorld) (c : NetCall) : Option NetWorld :=
  (netCall w.stack c).map fun done => ⟨done.1, w.log ++ [⟨w.stack, c, done.2⟩]⟩

def netBooted : NetWorld := ⟨netstackInit, []⟩

abbrev NetRun (allowed : NetStack → NetCall → Bool) :=
  Run NetWorld.step (fun w c => allowed w.stack c = true) netBooted

def netRan (allowed : NetStack → NetCall → Bool) (calls : List NetCall) : NetWorld :=
  (exec (guarded NetWorld.step fun w c => allowed w.stack c) netBooted calls).getD netBooted

theorem netRan_run {allowed : NetStack → NetCall → Bool} {calls : List NetCall}
    (h : (exec (guarded NetWorld.step fun w c => allowed w.stack c) netBooted calls).isSome = true) :
    NetRun allowed calls (netRan allowed calls) := Run.of_exec_isSome h

section Lookup

variable {s : NetStack} {sockfd : Int} {i : Nat} {sock : Socket}

theorem findSocket_some (h : findSocket s sockfd = some (i, sock)) : ∃ pre post,
    s.sockets = pre ++ some sock :: post ∧ sock.fd = sockfd ∧
      ∀ o, s.sockets.set i o = pre ++ o :: post := by
  obtain ⟨pre, post, hl, hfd, hset⟩ := findEntry_some h
  exact ⟨pre, post, hl, of_decide_eq_true hfd, hset⟩

theorem findSocket_none_iff : findSocket s sockfd = none ↔
    ∀ sock ∈ entries s.sockets, sock.fd ≠ sockfd := by
  simp [findSocket, findEntry_none_iff]

end Lookup

end ZoraVM.Kernel

import ZoraVM.Foundation.Memory
import ZoraVM.Foundation.Registry

namespace ZoraVM.Unix

open Foundation

def ipcLimit : Nat := 32
def ipcNameSize : Nat := 64

inductive IPCType where
  | messageQueue
  | semaphore
  | sharedMemory
  | pipe
  | socket
  deriving DecidableEq, Repr

structure MessageQueue where
  id : Int
  name : Bytes
  maxMessages : Int
  currentMessages : Int
  maxMessageSize : Nat
  created : Int
  ownerUid : Int
  permissions : Int
  deriving DecidableEq, Repr

structure Semaphore where
  id : Int
  name : Bytes
  value : Int
  maxValue : Int
  created : Int
  ownerUid : Int
  permissions : Int
  deriving DecidableEq, Repr

structure SharedMemory where
  id : Int
  name : Bytes
  size : Nat
  data : Nat
  created : Int
  ownerUid : Int
  permissions : Int
  attachedProcesses : Int
  deriving DecidableEq, Repr

structure IPCMessage where
  type : Int
  data : Bytes
  size : Nat
  timestamp : Int
  deriving DecidableEq, Repr

-- Each array with its count is the list of its live entries.
structure IpcState where
  messageQueues : List MessageQueue
  semaphores : List Semaphore
  sharedMemory : List SharedMemory
  ipcInitialized : Bool
  deriving DecidableEq, Repr

section Get

variable {α : Type} (idOf : α → Int) (nameOf : α → Bytes)

-- unix_msgget, unix_semget and unix_shmget: `make` fills in the next entry under the id it is given.
def ipcGet (live : List α) (wanted : Bytes) (make : Int → Option α) : List α × Int :=
  if live.length ≥ ipcLimit then (live, -1)
  else
    match live.find? fun o => nameOf o = wanted with
    | some o => (live, idOf o)
    | none =>
      match make (live.length + 1) with
      | some o => (live ++ [o], idOf o)
      | none => (live, -1)

end Get

def newMessageQueue (name : Bytes) (flags now id : Int) : MessageQueue where
  id := id
  name := clip ipcNameSize name
  maxMessages := 10
  currentMessages := 0
  maxMessageSize := 256
  created := now
  ownerUid := 0
  permissions := flags

def newSemaphore (name : Bytes) (value flags now id : Int) : Semaphore where
  id := id
  name := clip ipcNameSize name
  value := value
  maxValue := value
  created := now
  ownerUid := 0
  permissions := flags

def newSharedMemory (name : Bytes) (size : Nat) (flags now : Int) (data : Nat) (id : Int) :
    SharedMemory where
  id := id
  name := clip ipcNameSize name
  size := size
  data := data
  created := now
  ownerUid := 0
  permissions := flags
  attachedProcesses := 0

def unixMsgget (s : IpcState) (name : Bytes) (flags now : Int) : IpcState × Int :=
  let got := ipcGet MessageQueue.id MessageQueue.name s.messageQueues name fun id =>
    some (newMessageQueue name flags now id)
  ({ s with messageQueues := got.1 }, got.2)

def unixSemget (s : IpcState) (name : Bytes) (value flags now : Int) : IpcState × Int :=
  let got := ipcGet Semaphore.id Semaphore.name s.semaphores name fun id =>
    some (newSemaphore name value flags now id)
  ({ s with semaphores := got.1 }, got.2)

-- `data` is what malloc answers.
def unixShmget (s : IpcState) (name : Bytes) (size : Nat) (flags now : Int) (data : Option Nat) :
    IpcState × Int :=
  let got := ipcGet SharedMemory.id SharedMemory.name s.sharedMemory name fun id =>
    data.map fun address => newSharedMemory name size flags now address id
  ({ s with sharedMemory := got.1 }, got.2)

def unixIpcrm (s : IpcState) (type : IPCType) (id : Int) : IpcState :=
  match type with
  | .messageQueue => { s with messageQueues := withdraw MessageQueue.id s.messageQueues id }
  | .semaphore => { s with semaphores := withdraw Semaphore.id s.semaphores id }
  | .sharedMemory => { s with sharedMemory := withdraw SharedMemory.id s.sharedMemory id }
  | .pipe => s
  | .socket => s

def unixMsgsnd (s : IpcState) (id : Int) (msg : IPCMessage) (now : Int) :
    IpcState × IPCMessage × Int :=
  match holder MessageQueue.id s.messageQueues id with
  | some queue =>
    if queue.currentMessages ≥ queue.maxMessages then (s, msg, -1)
    else
      let queues := adjust MessageQueue.id s.messageQueues id fun queue =>
        { queue with currentMessages := queue.currentMessages + 1 }
      ({ s with messageQueues := queues }, { msg with timestamp := now }, 0)
  | none => (s, msg, -1)

def sampleMessage : Bytes := str "Sample message from queue"

def unixMsgrcv (s : IpcState) (id : Int) (msg : IPCMessage) (type now : Int) :
    IpcState × IPCMessage × Int :=
  match holder MessageQueue.id s.messageQueues id with
  | some queue =>
    if queue.currentMessages ≤ 0 then (s, msg, -1)
    else
      let queues := adjust MessageQueue.id s.messageQueues id fun queue =>
        { queue with currentMessages := queue.currentMessages - 1 }
      let data := splice msg.data 0 (sampleMessage ++ [0])
      ({ s with messageQueues := queues }, ⟨type, data, sampleMessage.length, now⟩, 0)
  | none => (s, msg, -1)

def Semaphore.operate (sem : Semaphore) (operation : Int) : Semaphore :=
  let value := sem.value + operation
  let value := if value < 0 then 0 else value
  let value := if value > sem.maxValue then sem.maxValue else value
  { sem with value := value }

def unixSemop (s : IpcState) (id operation : Int) : IpcState × Int :=
  match holder Semaphore.id s.semaphores id with
  | some _ =>
    let semaphores := adjust Semaphore.id s.semaphores id fun sem => sem.operate operation
    ({ s with semaphores := semaphores }, 0)
  | none => (s, -1)

def unixIpcInit (s : IpcState) (now : Int) (data : Option Nat) : IpcState :=
  if s.ipcInitialized then s
  else
    let s := { s with messageQueues := [], semaphores := [], sharedMemory := [] }
    let s := (unixMsgget s (str "system.log") 0o666 now).1
    let s := (unixSemget s (str "console.lock") 1 0o666 now).1
    let s := (unixShmget s (str "system.stats") 4096 0o666 now data).1
    { s with ipcInitialized := true }

inductive IpcCall where
  | msgget (name : Bytes) (flags now : Int)
  | semget (name : Bytes) (value flags now : Int)
  | shmget (name : Bytes) (size : Nat) (flags now : Int) (data : Option Nat)
  | ipcrm (type : IPCType) (id : Int)
  deriving DecidableEq, Repr

def ipcCall (s : IpcState) : IpcCall → IpcState × Int
  | .msgget name flags now => unixMsgget s name flags now
  | .semget name value flags now => unixSemget s name value flags now
  | .shmget name size flags now data => unixShmget s name size flags now data
  | .ipcrm type id => (unixIpcrm s type id, 0)

end ZoraVM.Unix

import ZoraVM.Foundation.Ownership
import ZoraVM.Unix.IpcGetAgain

namespace ZoraVM.Unix

open Foundation

section Source

structure IpcMemory where
  ipc : IpcState
  blocks : Heap Bytes

def bootMemory : IpcMemory := ⟨ipcZero, Heap.empty⟩

def shmMallocs (s : IpcState) (name : Bytes) : Bool :=
  decide (s.sharedMemory.length < ipcLimit) && (s.sharedMemory.find? fun o => o.name = name).isNone

def shmgetBlock (m : IpcMemory) (name : Bytes) (size : Nat) (flags now : Int) (granted : Bool) :
    IpcMemory × Int :=
  if shmMallocs m.ipc name && granted then
    let got := unixShmget m.ipc name size flags now (some m.blocks.size)
    (⟨got.1, m.blocks.alloc (List.replicate size 0)⟩, got.2)
  else
    let got := unixShmget m.ipc name size flags now none
    (⟨got.1, m.blocks⟩, got.2)

def ipcrmBlock (m : IpcMemory) (type : IPCType) (id : Int) : Outcome IpcMemory :=
  match type, holder SharedMemory.id m.ipc.sharedMemory id with
  | .sharedMemory, some shm => do
    let blocks ← freeCell m.blocks shm.data
    .ok ⟨unixIpcrm m.ipc .sharedMemory id, blocks⟩
  | _, _ => .ok ⟨unixIpcrm m.ipc type id, m.blocks⟩

def cleanupBlocks (m : IpcMemory) : Outcome IpcMemory := do
  let blocks ← (m.ipc.sharedMemory.map SharedMemory.data).foldlM freeCell m.blocks
  .ok ⟨unixIpcCleanup m.ipc, blocks⟩

-- The tables are cleared as they are, whatever they hold.
def initBlocks (m : IpcMemory) (now : Int) (granted : Bool) : IpcMemory :=
  if m.ipc.ipcInitialized then m
  else
    let ipc := { m.ipc with messageQueues := [], semaphores := [], sharedMemory := [] }
    let ipc := (unixMsgget ipc (str "system.log") 0o666 now).1
    let ipc := (unixSemget ipc (str "console.lock") 1 0o666 now).1
    let made := (shmgetBlock ⟨ipc, m.blocks⟩ (str "system.stats") 4096 0o666 now granted).1
    { made with ipc := { made.ipc with ipcInitialized := true } }

-- Of an address in an event only counts whether malloc gave one.
def blockEvent (m : IpcMemory) : IpcEvent → Outcome IpcMemory
  | .init now data => .ok (initBlocks m now data.isSome)
  | .call (.shmget name size flags now data) => .ok (shmgetBlock m name size flags now data.isSome).1
  | .call (.ipcrm type id) => ipcrmBlock m type id
  | .cleanup => cleanupBlocks m
  | e => .ok { m with ipc := ipcEvent m.ipc e }

end Source

section Invariant

variable {m m' : IpcMemory} {lost : List Nat} {e : IpcEvent}

def segmentData (s : IpcState) : List Nat := s.sharedMemory.map SharedMemory.data

-- Every block belongs to one segment, or is lost; a segment's block has its size.
structure BlocksOwned (m : IpcMemory) (lost : List Nat) : Prop where
  owns : Owns m.blocks (lost ++ segmentData m.ipc)
  sized : ∀ shm ∈ m.ipc.sharedMemory, m.blocks.get shm.data = some (List.replicate shm.size 0)

def dropped (s : IpcState) : IpcEvent → List Nat
  | .init _ _ => if s.ipcInitialized then [] else segmentData s
  | _ => []

theorem boot_owned : BlocksOwned bootMemory [] :=
  ⟨Owns.nothing, fun _ h => absurd h List.not_mem_nil⟩

theorem unixShmget_kept (s : IpcState) (name : Bytes) (size : Nat) (flags now : Int) :
    (unixShmget s name size flags now none).1 = s := by
  rw [unixShmget, ipcGet]
  split
  · rfl
  · split <;> rfl

theorem unixShmget_made {s : IpcState} {name : Bytes} (h : shmMallocs s name = true) (size : Nat)
    (flags now : Int) (address : Nat) : (unixShmget s name size flags now (some address)).1 =
      { s with sharedMemory := s.sharedMemory ++
        [newSharedMemory name size flags now address (s.sharedMemory.length + 1)] } := by
  rw [shmMallocs, Bool.and_eq_true, decide_eq_true_iff, Option.isNone_iff_eq_none] at h
  rw [unixShmget, ipcGet, if_neg (Nat.not_le.mpr h.1), h.2]
  rfl

theorem BlocksOwned.shmget (h : BlocksOwned m lost) (name : Bytes) (size : Nat) (flags now : Int)
    (granted : Bool) : BlocksOwned (shmgetBlock m name size flags now granted).1 lost := by
  rw [shmgetBlock]
  split
  · next hgranted =>
    obtain ⟨hmallocs, -⟩ := Bool.and_eq_true_iff.mp hgranted
    simp only [unixShmget_made hmallocs]
    constructor
    · simpa [segmentData, newSharedMemory] using h.owns.alloc (List.replicate size 0)
    · intro shm hshm
      rcases List.mem_append.mp hshm with hin | hnew
      · exact Heap.get_alloc_of_get (h.sized shm hin)
      · rw [List.mem_singleton.mp hnew]
        exact Heap.get_alloc_self _ _
  · simp only [unixShmget_kept]
    exact h

theorem holder_split {α κ : Type} [DecidableEq κ] {key : α → κ} {l : List α} {k : κ} {a : α}
    (h : holder key l k = some a) :
    ∃ front behind, l = front ++ a :: behind ∧ withdraw key l k = front ++ behind := by
  induction l with
  | nil => cases h
  | cons b l ih =>
    by_cases hb : key b = k
    · rw [holder, List.find?_cons_of_pos (by simpa using hb)] at h
      obtain rfl := Option.some.inj h
      exact ⟨[], l, rfl, List.eraseP_cons_of_pos (by simpa using hb)⟩
    · rw [holder, List.find?_cons_of_neg (by simpa using hb)] at h
      obtain ⟨front, behind, rfl, hrest⟩ := ih h
      refine ⟨b :: front, behind, rfl, ?_⟩
      rw [withdraw, List.eraseP_cons_of_neg (by simpa using hb), ← withdraw, hrest]
      rfl

theorem BlocksOwned.ipcrm (h : BlocksOwned m lost) (type : IPCType) (id : Int) :
    ∃ m', ipcrmBlock m type id = .ok m' ∧ m'.ipc = unixIpcrm m.ipc type id ∧ BlocksOwned m' lost := by
  cases type with
  | sharedMemory =>
    cases hholder : holder SharedMemory.id m.ipc.sharedMemory id with
    | none =>
      have hkept : withdraw SharedMemory.id m.ipc.sharedMemory id = m.ipc.sharedMemory := by
        rw [withdraw, List.eraseP_of_forall_not]
        intro shm hshm
        have hother : shm.id ≠ id := fun heq =>
          holder_eq_none_iff.mp hholder (heq ▸ List.mem_map_of_mem hshm)
        simpa using hother
      refine ⟨⟨unixIpcrm m.ipc .sharedMemory id, m.blocks⟩, by simp [ipcrmBlock, hholder], rfl, ?_⟩
      rw [unixIpcrm]
      simp only [hkept]
      exact h
    | some shm =>
      obtain ⟨front, behind, hall, hrest⟩ := holder_split hholder
      have hdata : segmentData m.ipc =
          front.map SharedMemory.data ++ shm.data :: behind.map SharedMemory.data := by
        rw [segmentData, hall, List.map_append, List.map_cons]
      have howns := h.owns
      rw [hdata, ← List.append_assoc] at howns
      have hfreed := howns.freeCell_eq (p := shm.data) (by simp)
      refine ⟨⟨unixIpcrm m.ipc .sharedMemory id, m.blocks.free shm.data⟩, ?_, rfl, ?_, ?_⟩
      · simp only [ipcrmBlock, hholder, hfreed]
        rfl
      · have hleft : segmentData (unixIpcrm m.ipc .sharedMemory id) =
            front.map SharedMemory.data ++ behind.map SharedMemory.data := by
          rw [segmentData, unixIpcrm]
          simp only [hrest, List.map_append]
        rw [hleft, ← List.append_assoc]
        exact howns.free
      · intro other hother
        rw [unixIpcrm] at hother
        simp only [hrest] at hother
        have hin : other ∈ m.ipc.sharedMemory := by
          rw [hall]
          rcases List.mem_append.mp hother with hother | hother <;> simp [hother]
        have hne : other.data ≠ shm.data := by
          intro heq
          have hout := (List.nodup_cons.mp (List.nodup_middle.mp howns.nodup)).1
          refine hout (heq ▸ ?_)
          rcases List.mem_append.mp hother with hother | hother
          · exact List.mem_append_left _ (List.mem_append_right _ (List.mem_map_of_mem hother))
          · exact List.mem_append_right _ (List.mem_map_of_mem hother)
        rw [Heap.get_free_of_ne hne]
        exact h.sized other hin
  | messageQueue => exact ⟨_, rfl, rfl, h.owns, h.sized⟩
  | semaphore => exact ⟨_, rfl, rfl, h.owns, h.sized⟩
  | pipe => exact ⟨_, rfl, rfl, h⟩
  | socket => exact ⟨_, rfl, rfl, h⟩

theorem BlocksOwned.cleanup (h : BlocksOwned m lost) :
    ∃ m', cleanupBlocks m = .ok m' ∧ m'.ipc = unixIpcCleanup m.ipc ∧ Owns m'.blocks lost := by
  obtain ⟨blocks, hfreed, howns, -⟩ := h.owns.freeCells
  refine ⟨⟨unixIpcCleanup m.ipc, blocks⟩, ?_, rfl, howns⟩
  rw [segmentData] at hfreed
  rw [cleanupBlocks, hfreed]
  rfl

theorem BlocksOwned.init (h : BlocksOwned m lost) (now : Int) (granted : Bool) :
    BlocksOwned (initBlocks m now granted)
      (lost ++ if m.ipc.ipcInitialized then [] else segmentData m.ipc) := by
  rw [initBlocks]
  split
  · rwa [List.append_nil]
  · have hcleared : BlocksOwned ⟨(unixSemget (unixMsgget { m.ipc with
        messageQueues := [], semaphores := [], sharedMemory := [] } (str "system.log") 0o666 now).1
          (str "console.lock") 1 0o666 now).1, m.blocks⟩ (lost ++ segmentData m.ipc) := by
      refine ⟨?_, fun shm hshm => absurd hshm List.not_mem_nil⟩
      simpa [segmentData, unixSemget, unixMsgget] using h.owns
    have hmade := hcleared.shmget (str "system.stats") 4096 0o666 now granted
    exact ⟨hmade.owns, hmade.sized⟩

theorem BlocksOwned.kept (h : BlocksOwned m lost) {ipc : IpcState}
    (hsame : ipc.sharedMemory.map (fun shm => (shm.data, shm.size)) =
      m.ipc.sharedMemory.map fun shm => (shm.data, shm.size)) :
    BlocksOwned { m with ipc := ipc } lost := by
  have hdata : segmentData ipc = segmentData m.ipc := by
    have hfirst := congrArg (List.map Prod.fst) hsame
    rwa [List.map_map, List.map_map] at hfirst
  refine ⟨by rw [hdata]; exact h.owns, fun shm hshm => ?_⟩
  have hin : (shm.data, shm.size) ∈ m.ipc.sharedMemory.map fun shm => (shm.data, shm.size) :=
    hsame ▸ List.mem_map_of_mem hshm
  obtain ⟨old, hold, heq⟩ := List.mem_map.mp hin
  obtain ⟨hd, hs⟩ := Prod.mk.inj heq
  rw [← hd, ← hs]
  exact h.sized old hold

theorem shmat_kept (s : IpcState) (id : Int) :
    (unixShmat s id).1.sharedMemory.map (fun shm => (shm.data, shm.size)) =
      s.sharedMemory.map fun shm => (shm.data, shm.size) := by
  rw [unixShmat]
  split
  · refine map_adjust_of ?_ s.sharedMemory id
    exact fun _ => rfl
  · rfl

theorem shmget_reaches (m : IpcMemory) (name : Bytes) (size : Nat) (flags now : Int) (granted : Bool) :
    ∃ data, (shmgetBlock m name size flags now granted).1.ipc =
      (unixShmget m.ipc name size flags now data).1 := by
  rw [shmgetBlock]
  split
  · exact ⟨_, rfl⟩
  · exact ⟨_, rfl⟩

theorem BlocksOwned.event (h : BlocksOwned m lost) (e : IpcEvent) :
    ∃ m', blockEvent m e = .ok m' ∧ BlocksOwned m' (lost ++ dropped m.ipc e) ∧
      ∃ e', m'.ipc = ipcEvent m.ipc e' := by
  have hnone : BlocksOwned m (lost ++ []) := by rwa [List.append_nil]
  cases e with
  | init now data =>
    refine ⟨_, rfl, h.init now data.isSome, ?_⟩
    rw [initBlocks]
    split
    · next hset => exact ⟨.init now none, by rw [ipcEvent, unixIpcInit, if_pos hset]⟩
    · next hset =>
      obtain ⟨address, hreached⟩ := shmget_reaches ⟨(unixSemget (unixMsgget { m.ipc with
        messageQueues := [], semaphores := [], sharedMemory := [] } (str "system.log") 0o666 now).1
          (str "console.lock") 1 0o666 now).1, m.blocks⟩ (str "system.stats") 4096 0o666 now data.isSome
      refine ⟨.init now address, ?_⟩
      rw [ipcEvent, unixIpcInit, if_neg hset]
      simp only [hreached]
  | call c =>
    cases c with
    | shmget name size flags now data =>
      obtain ⟨address, hreached⟩ := shmget_reaches m name size flags now data.isSome
      refine ⟨_, rfl, ?_, .call (.shmget name size flags now address), hreached⟩
      exact hnone.shmget name size flags now data.isSome
    | ipcrm type id =>
      obtain ⟨m', hrun, hipc, howned⟩ := hnone.ipcrm type id
      exact ⟨m', hrun, howned, .call (.ipcrm type id), hipc⟩
    | msgget name flags now => exact ⟨_, rfl, hnone.kept rfl, .call _, rfl⟩
    | semget name value flags now => exact ⟨_, rfl, hnone.kept rfl, .call _, rfl⟩
  | msgsnd id msg now =>
    refine ⟨_, rfl, hnone.kept ?_, .msgsnd id msg now, rfl⟩
    simp only [ipcEvent, unixMsgsnd]
    split
    · split <;> rfl
    · rfl
  | msgrcv id msg type now =>
    refine ⟨_, rfl, hnone.kept ?_, .msgrcv id msg type now, rfl⟩
    simp only [ipcEvent, unixMsgrcv]
    split
    · split <;> rfl
    · rfl
  | semop id operation =>
    refine ⟨_, rfl, hnone.kept ?_, .semop id operation, rfl⟩
    simp only [ipcEvent, unixSemop]
    split <;> rfl
  | shmat id => exact ⟨_, rfl, hnone.kept (shmat_kept m.ipc id), .shmat id, rfl⟩
  | cleanup =>
    obtain ⟨m', hrun, hipc, howns⟩ := h.cleanup
    refine ⟨m', hrun, ⟨?_, fun shm hshm => ?_⟩, .cleanup, hipc⟩
    · rw [hipc]
      simpa [segmentData, unixIpcCleanup, dropped] using howns
    · rw [hipc] at hshm
      cases hshm

end Invariant

section Runs

variable {m : IpcMemory} {lost : List Nat}

def lostOver : IpcMemory → List IpcEvent → List Nat
  | _, [] => []
  | m, e :: events =>
    dropped m.ipc e ++
      match blockEvent m e with
      | .ok m' => lostOver m' events
      | .error _ => []

theorem BlocksOwned.run (h : BlocksOwned m lost) (events : List IpcEvent) :
    ∃ m', events.foldlM blockEvent m = .ok m' ∧ BlocksOwned m' (lost ++ lostOver m events) ∧
      ∃ events' : List IpcEvent, m'.ipc = events'.foldl ipcEvent m.ipc := by
  induction events generalizing m lost with
  | nil => exact ⟨m, rfl, by rwa [lostOver, List.append_nil], [], rfl⟩
  | cons e events ih =>
    obtain ⟨next, hstep, howned, e', hipc⟩ := h.event e
    obtain ⟨m', hrun, howned', events', hipc'⟩ := ih howned
    refine ⟨m', ?_, ?_, e' :: events', ?_⟩
    · rw [List.foldlM_cons, hstep]
      exact hrun
    · rw [List.append_assoc] at howned'
      rw [lostOver, hstep]
      exact howned'
    · rw [hipc', hipc, List.foldl_cons]

theorem BlocksOwned.attached (h : BlocksOwned m lost) {id : Int} {p : Nat}
    (hshmat : (unixShmat m.ipc id).2 = some p) : ∃ shm ∈ m.ipc.sharedMemory,
      shm.id = id ∧ shm.data = p ∧ m.blocks.get p = some (List.replicate shm.size 0) := by
  rw [unixShmat] at hshmat
  split at hshmat
  · next shm hholder =>
    obtain rfl := Option.some.inj hshmat
    obtain ⟨front, behind, hall, -⟩ := holder_split hholder
    have hin : shm ∈ m.ipc.sharedMemory := by simp [hall]
    exact ⟨shm, hin, by simpa using List.find?_some hholder, rfl, h.sized shm hin⟩
  · cases hshmat

theorem ipc_blocks_owned (events : List IpcEvent) :
    ∃ m, events.foldlM blockEvent bootMemory = .ok m ∧ IpcReachable m.ipc ∧
      (lostOver bootMemory events ++ segmentData m.ipc).Nodup ∧
      (∀ p, m.blocks.live p = true ↔ p ∈ lostOver bootMemory events ∨ p ∈ segmentData m.ipc) ∧
      (∀ id p, (unixShmat m.ipc id).2 = some p → ∃ shm ∈ m.ipc.sharedMemory,
        shm.id = id ∧ shm.data = p ∧ m.blocks.get p = some (List.replicate shm.size 0)) ∧
      ∃ m', cleanupBlocks m = .ok m' ∧ m'.ipc = unixIpcCleanup m.ipc ∧
        ∀ p, m'.blocks.live p = true ↔ p ∈ lostOver bootMemory events := by
  obtain ⟨m, hrun, howned, events', hipc⟩ := boot_owned.run events
  rw [List.nil_append] at howned
  obtain ⟨m', hcleanup, hcleared, hleft⟩ := howned.cleanup
  refine ⟨m, hrun, ⟨events', hipc⟩, howned.owns.nodup, fun p => ?_, fun id p => howned.attached,
    m', hcleanup, hcleared, hleft.live_iff⟩
  rw [howned.owns.live_iff, List.mem_append]

example :
    lostOver bootMemory [.call (.shmget (str "early") 16 0 0 (some 0)), .init 0 (some 0)] = [0] := by
  decide

end Runs

end ZoraVM.Unix

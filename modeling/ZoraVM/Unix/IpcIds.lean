import ZoraVM.Foundation.Run
import ZoraVM.Unix.Ipc

namespace ZoraVM.Unix

open Foundation

inductive IpcObject where
  | messageQueue (o : MessageQueue)
  | semaphore (o : Semaphore)
  | sharedMemory (o : SharedMemory)
  deriving DecidableEq, Repr

def IpcObject.name : IpcObject → Bytes
  | .messageQueue o => o.name
  | .semaphore o => o.name
  | .sharedMemory o => o.name

-- The entry the loops of unix_msgsnd, unix_semop and unix_shmat stop at.
def designated (s : IpcState) (type : IPCType) (id : Int) : Option IpcObject :=
  match type with
  | .messageQueue => (holder MessageQueue.id s.messageQueues id).map .messageQueue
  | .semaphore => (holder Semaphore.id s.semaphores id).map .semaphore
  | .sharedMemory => (holder SharedMemory.id s.sharedMemory id).map .sharedMemory
  | .pipe => none
  | .socket => none

def IdsUnique (s : IpcState) : Prop :=
  KeysDistinct MessageQueue.id s.messageQueues ∧ KeysDistinct Semaphore.id s.semaphores ∧
    KeysDistinct SharedMemory.id s.sharedMemory

def wantedBy : IpcCall → Option (IPCType × Bytes)
  | .msgget name _ _ => some (.messageQueue, name)
  | .semget name _ _ _ => some (.semaphore, name)
  | .shmget name _ _ _ _ => some (.sharedMemory, name)
  | .ipcrm _ _ => none

section Get

variable {α : Type} {idOf : α → Int} {nameOf : α → Bytes} {live : List α} {wanted : Bytes}
variable {make : Int → Option α} {id : Int} {o : α}

def nextIdFree (idOf : α → Int) (nameOf : α → Bytes) (live : List α) (wanted : Bytes)
    (makes : Bool) : Bool :=
  !makes || decide (ipcLimit ≤ live.length) || live.any (fun o => nameOf o = wanted) ||
    live.all fun o => idOf o ≠ live.length + 1

structure Makes (idOf : α → Int) (nameOf : α → Bytes) (make : Int → Option α) (wanted : Bytes) :
    Prop where
  id : ∀ {i o}, make i = some o → idOf o = i
  name : ∀ {i o}, make i = some o → nameOf o = clip ipcNameSize wanted

structure WellKept (idOf : α → Int) (nameOf : α → Bytes) (live : List α) : Prop where
  distinct : KeysDistinct idOf live
  names : ∀ o ∈ live, (nameOf o).length < ipcNameSize

theorem ipcGet_cases (idOf : α → Int) (nameOf : α → Bytes) (live : List α) (wanted : Bytes)
    (make : Int → Option α) :
    ipcGet idOf nameOf live wanted make = (live, -1) ∨
    (∃ o ∈ live, nameOf o = wanted ∧ ipcGet idOf nameOf live wanted make = (live, idOf o)) ∨
    ∃ o, make (live.length + 1) = some o ∧ live.length < ipcLimit ∧
      (∀ o ∈ live, nameOf o ≠ wanted) ∧
      ipcGet idOf nameOf live wanted make = (live ++ [o], idOf o) := by
  unfold ipcGet
  by_cases hfull : live.length ≥ ipcLimit
  · exact .inl (if_pos hfull)
  · rw [if_neg hfull]
    cases hfind : live.find? fun o => nameOf o = wanted with
    | some o =>
      have hname : nameOf o = wanted := by simpa using List.find?_some hfind
      exact .inr (.inl ⟨o, List.mem_of_find?_eq_some hfind, hname, rfl⟩)
    | none =>
      have hnone : ∀ o ∈ live, nameOf o ≠ wanted := by simpa using hfind
      cases hmake : make (live.length + 1) with
      | some o => exact .inr (.inr ⟨o, rfl, by omega, hnone, rfl⟩)
      | none => exact .inl rfl

theorem next_fresh {makes : Bool} (h : nextIdFree idOf nameOf live wanted makes = true)
    (hmakes : makes = true) (hroom : live.length < ipcLimit) (hnone : ∀ o ∈ live, nameOf o ≠ wanted)
    (ho : idOf o = live.length + 1) : ∀ a ∈ live, idOf a ≠ idOf o := by
  rw [nextIdFree, hmakes] at h
  simp only [Bool.or_eq_true, Bool.not_true, Bool.false_eq_true, decide_eq_true_eq, List.any_eq_true,
    List.all_eq_true] at h
  rcases h with ((h | h) | ⟨a, ha, hname⟩) | h
  · cases h
  · exact absurd h (by omega)
  · exact absurd hname (hnone a ha)
  · rw [ho]
    exact h

theorem wellKept_get {makes : Bool} (hlive : WellKept idOf nameOf live)
    (hmake : Makes idOf nameOf make wanted) (hmakes : ∀ i, (make i).isSome = makes)
    (hfree : nextIdFree idOf nameOf live wanted makes = true) :
    WellKept idOf nameOf (ipcGet idOf nameOf live wanted make).1 := by
  rcases ipcGet_cases idOf nameOf live wanted make with h | ⟨o, _, _, h⟩ | ⟨o, ho, hroom, hnone, h⟩
  · rw [h]
    exact hlive
  · rw [h]
    exact hlive
  · have hid := hmake.id ho
    have hsome : makes = true := by rw [← hmakes (live.length + 1), ho, Option.isSome_some]
    rw [h]
    refine ⟨keysDistinct_append hlive.distinct (next_fresh hfree hsome hroom hnone hid), ?_⟩
    intro a ha
    rcases List.mem_append.mp ha with ha | ha
    · exact hlive.names a ha
    · obtain rfl := List.mem_singleton.mp ha
      have hlen := length_clip_le ipcNameSize wanted
      rw [hmake.name ho]
      exact Nat.lt_of_le_of_lt hlen (by decide)

theorem wellKept_withdraw (hlive : WellKept idOf nameOf live) (id : Int) :
    WellKept idOf nameOf (withdraw idOf live id) :=
  ⟨keysDistinct_withdraw hlive.distinct id,
    fun o ho => hlive.names o ((withdraw_sublist live id).subset ho)⟩

theorem holder_get (o : α) (h : holder idOf live id = some o) (wanted : Bytes)
    (make : Int → Option α) :
    holder idOf (ipcGet idOf nameOf live wanted make).1 id = some o := by
  rcases ipcGet_cases idOf nameOf live wanted make with hget | ⟨_, _, _, hget⟩ | ⟨a, _, _, _, hget⟩
  · rwa [hget]
  · rwa [hget]
  · rw [hget]
    exact holder_append_of_some h a

theorem get_designates (hlive : WellKept idOf nameOf live)
    (hmake : Makes idOf nameOf make wanted)
    (hkept : WellKept idOf nameOf (ipcGet idOf nameOf live wanted make).1)
    (hid : (ipcGet idOf nameOf live wanted make).2 ≠ -1) :
    ∃ o, holder idOf (ipcGet idOf nameOf live wanted make).1
      (ipcGet idOf nameOf live wanted make).2 = some o ∧ nameOf o = clip ipcNameSize wanted := by
  rcases ipcGet_cases idOf nameOf live wanted make with h | ⟨o, hmem, hname, h⟩ | ⟨o, ho, _, _, h⟩
  · rw [h] at hid
    exact absurd rfl hid
  · rw [h]
    refine ⟨o, holder_of_mem hlive.distinct hmem, ?_⟩
    have hshort := hlive.names o hmem
    rw [hname] at hshort ⊢
    exact (clip_of_length_lt hshort).symm
  · rw [h] at hkept ⊢
    exact ⟨o, holder_of_mem hkept.distinct (List.mem_append_right _ List.mem_cons_self),
      hmake.name ho⟩

theorem get_created (hmake : Makes idOf nameOf make wanted)
    (hfree : nextIdFree idOf nameOf live wanted true = true)
    (hgrow : live.length < (ipcGet idOf nameOf live wanted make).1.length) :
    ∃ o, make (live.length + 1) = some o ∧ holder idOf (ipcGet idOf nameOf live wanted make).1
      (ipcGet idOf nameOf live wanted make).2 = some o := by
  rcases ipcGet_cases idOf nameOf live wanted make with h | ⟨_, _, _, h⟩ | ⟨o, ho, hroom, hnone, h⟩
  · rw [h] at hgrow
    exact absurd hgrow (Nat.lt_irrefl _)
  · rw [h] at hgrow
    exact absurd hgrow (Nat.lt_irrefl _)
  · rw [h]
    exact ⟨o, ho, holder_append_fresh (next_fresh hfree rfl hroom hnone (hmake.id ho))⟩

end Get

def idFree (s : IpcState) : IpcCall → Bool
  | .msgget name _ _ => nextIdFree MessageQueue.id MessageQueue.name s.messageQueues name true
  | .semget name _ _ _ => nextIdFree Semaphore.id Semaphore.name s.semaphores name true
  | .shmget name _ _ _ data =>
    nextIdFree SharedMemory.id SharedMemory.name s.sharedMemory name data.isSome
  | .ipcrm _ _ => true

abbrev ipcStep (s : IpcState) (c : IpcCall) : Option IpcState := some (ipcCall s c).1

def ipcZero : IpcState := ⟨[], [], [], false⟩

abbrev IpcRun (now : Int) (data : Option Nat) :=
  Run ipcStep (fun s c => idFree s c = true) (unixIpcInit ipcZero now data)

structure IpcKept (s : IpcState) : Prop where
  messageQueues : WellKept MessageQueue.id MessageQueue.name s.messageQueues
  semaphores : WellKept Semaphore.id Semaphore.name s.semaphores
  sharedMemory : WellKept SharedMemory.id SharedMemory.name s.sharedMemory

section Calls

variable {s t : IpcState} {now : Int} {data : Option Nat} {calls later : List IpcCall} {c : IpcCall}

theorem makes_messageQueue (name : Bytes) (flags now : Int) :
    Makes MessageQueue.id MessageQueue.name (fun id => some (newMessageQueue name flags now id))
      name := by
  constructor <;>
  · rintro i o h
    obtain rfl := Option.some.inj h
    rfl

theorem makes_semaphore (name : Bytes) (value flags now : Int) :
    Makes Semaphore.id Semaphore.name (fun id => some (newSemaphore name value flags now id))
      name := by
  constructor <;>
  · rintro i o h
    obtain rfl := Option.some.inj h
    rfl

theorem makes_sharedMemory (name : Bytes) (size : Nat) (flags now : Int) (data : Option Nat) :
    Makes SharedMemory.id SharedMemory.name
      (fun id => data.map fun address => newSharedMemory name size flags now address id) name := by
  constructor <;>
  · rintro i o h
    obtain ⟨address, _, rfl⟩ := Option.map_eq_some_iff.mp h
    rfl

theorem ipcKept_call (h : IpcKept s) (hfree : idFree s c = true) : IpcKept (ipcCall s c).1 := by
  cases c with
  | msgget name flags now =>
    exact ⟨wellKept_get h.messageQueues (makes_messageQueue name flags now) (fun _ => rfl) hfree,
      h.semaphores, h.sharedMemory⟩
  | semget name value flags now =>
    exact ⟨h.messageQueues,
      wellKept_get h.semaphores (makes_semaphore name value flags now) (fun _ => rfl) hfree,
      h.sharedMemory⟩
  | shmget name size flags now data =>
    exact ⟨h.messageQueues, h.semaphores, wellKept_get h.sharedMemory
      (makes_sharedMemory name size flags now data) (fun _ => Option.isSome_map) hfree⟩
  | ipcrm type id =>
    cases type with
    | messageQueue => exact ⟨wellKept_withdraw h.messageQueues id, h.semaphores, h.sharedMemory⟩
    | semaphore => exact ⟨h.messageQueues, wellKept_withdraw h.semaphores id, h.sharedMemory⟩
    | sharedMemory => exact ⟨h.messageQueues, h.semaphores, wellKept_withdraw h.sharedMemory id⟩
    | pipe => exact h
    | socket => exact h

theorem wellKept_nil {α : Type} (idOf : α → Int) (nameOf : α → Bytes) : WellKept idOf nameOf [] :=
  ⟨List.nodup_nil, fun _ h => absurd h List.not_mem_nil⟩

theorem ipcKept_init (now : Int) (data : Option Nat) : IpcKept (unixIpcInit ipcZero now data) := by
  have hzero : IpcKept ipcZero := ⟨wellKept_nil _ _, wellKept_nil _ _, wellKept_nil _ _⟩
  have hmsg := ipcKept_call (c := .msgget (str "system.log") 0o666 now) hzero rfl
  have hsem := ipcKept_call (c := .semget (str "console.lock") 1 0o666 now) hmsg rfl
  have hshm := ipcKept_call (c := .shmget (str "system.stats") 4096 0o666 now data) hsem
    (by cases data <;> rfl)
  exact ⟨hshm.messageQueues, hshm.semaphores, hshm.sharedMemory⟩

theorem IpcKept.run (h : IpcKept s) (hrun : Run ipcStep (fun s c => idFree s c = true) s calls t) :
    IpcKept t := by
  refine hrun.invariant h ?_
  intro s c s' hs hfree hstep
  obtain rfl := Option.some.inj hstep
  exact ipcKept_call hs hfree

theorem designated_get {type : IPCType} {id : Int} {o : IpcObject} {wanted : IPCType × Bytes}
    (h : designated s type id = some o) (hwanted : wantedBy c = some wanted) :
    designated (ipcCall s c).1 type id = some o := by
  cases c with
  | msgget name flags now =>
    cases type with
    | messageQueue =>
      obtain ⟨a, ha, rfl⟩ := Option.map_eq_some_iff.mp h
      exact Option.map_eq_some_iff.mpr ⟨a, holder_get a ha _ _, rfl⟩
    | _ => exact h
  | semget name value flags now =>
    cases type with
    | semaphore =>
      obtain ⟨a, ha, rfl⟩ := Option.map_eq_some_iff.mp h
      exact Option.map_eq_some_iff.mpr ⟨a, holder_get a ha _ _, rfl⟩
    | _ => exact h
  | shmget name size flags now data =>
    cases type with
    | sharedMemory =>
      obtain ⟨a, ha, rfl⟩ := Option.map_eq_some_iff.mp h
      exact Option.map_eq_some_iff.mpr ⟨a, holder_get a ha _ _, rfl⟩
    | _ => exact h
  | ipcrm _ _ => cases hwanted

theorem designated_ipcrm {type removed : IPCType} {id gone : Int}
    (hne : ¬ (removed = type ∧ gone = id)) :
    designated (unixIpcrm s removed gone) type id = designated s type id := by
  by_cases htype : removed = type
  · subst htype
    have hid : id ≠ gone := fun he => hne ⟨rfl, he.symm⟩
    cases removed with
    | messageQueue => exact congrArg (Option.map _) (holder_withdraw hid)
    | semaphore => exact congrArg (Option.map _) (holder_withdraw hid)
    | sharedMemory => exact congrArg (Option.map _) (holder_withdraw hid)
    | pipe => rfl
    | socket => rfl
  · cases removed <;> cases type <;> first | rfl | exact absurd rfl htype

theorem designated_call {type : IPCType} {id : Int} {o : IpcObject}
    (h : designated s type id = some o) (hc : c ≠ .ipcrm type id) :
    designated (ipcCall s c).1 type id = some o := by
  cases hwanted : wantedBy c with
  | some wanted => exact designated_get h hwanted
  | none =>
    cases c with
    | ipcrm removed gone =>
      have hne : ¬ (removed = type ∧ gone = id) := by
        rintro ⟨rfl, rfl⟩
        exact hc rfl
      exact (designated_ipcrm hne).trans h
    | _ => cases hwanted

theorem designated_run {type : IPCType} {id : Int} {o : IpcObject}
    (h : designated s type id = some o)
    (hrun : Run ipcStep (fun s c => idFree s c = true) s later t)
    (hlater : ∀ c ∈ later, c ≠ .ipcrm type id) : designated t type id = some o := by
  have hallowed := hrun.restrict hlater
  clear hrun hlater
  induction hallowed with
  | start => exact h
  | call _ hc hstep ih =>
    obtain rfl := Option.some.inj hstep
    exact designated_call ih hc.2

theorem call_designates {type : IPCType} {name : Bytes} (h : IpcKept s) (hfree : idFree s c = true)
    (hwanted : wantedBy c = some (type, name)) (hid : (ipcCall s c).2 ≠ -1) :
    ∃ o, designated (ipcCall s c).1 type (ipcCall s c).2 = some o ∧
      o.name = clip ipcNameSize name := by
  have hkept := ipcKept_call h hfree
  cases c with
  | msgget _ flags now =>
    cases hwanted
    obtain ⟨o, ho, hname⟩ := get_designates h.messageQueues (makes_messageQueue name flags now)
      hkept.messageQueues hid
    exact ⟨.messageQueue o, Option.map_eq_some_iff.mpr ⟨o, ho, rfl⟩, hname⟩
  | semget _ value flags now =>
    cases hwanted
    obtain ⟨o, ho, hname⟩ := get_designates h.semaphores (makes_semaphore name value flags now)
      hkept.semaphores hid
    exact ⟨.semaphore o, Option.map_eq_some_iff.mpr ⟨o, ho, rfl⟩, hname⟩
  | shmget _ size flags now data =>
    cases hwanted
    obtain ⟨o, ho, hname⟩ := get_designates h.sharedMemory
      (makes_sharedMemory name size flags now data) hkept.sharedMemory hid
    exact ⟨.sharedMemory o, Option.map_eq_some_iff.mpr ⟨o, ho, rfl⟩, hname⟩
  | ipcrm _ _ => cases hwanted

end Calls

section Law

def KeepsDesignating (s : IpcState) (c : IpcCall) : Prop :=
  ∀ type name later t, wantedBy c = some (type, name) → (ipcCall s c).2 ≠ -1 →
    Run ipcStep (fun s c => idFree s c = true) (ipcCall s c).1 later t →
    (∀ d ∈ later, d ≠ .ipcrm type (ipcCall s c).2) →
    ∃ o, designated (ipcCall s c).1 type (ipcCall s c).2 = some o ∧
      o.name = clip ipcNameSize name ∧ designated t type (ipcCall s c).2 = some o

theorem ipc_ids_unique {now : Int} {data : Option Nat} {calls : List IpcCall} {s : IpcState}
    (hrun : IpcRun now data calls s) :
    IdsUnique s ∧ ∀ c, idFree s c = true → KeepsDesignating s c := by
  have hkept := (ipcKept_init now data).run hrun
  refine ⟨⟨hkept.messageQueues.distinct, hkept.semaphores.distinct, hkept.sharedMemory.distinct⟩, ?_⟩
  intro c hfree type name later t hwanted hid hlater hnone
  obtain ⟨o, ho, hname⟩ := call_designates hkept hfree hwanted hid
  exact ⟨o, ho, hname, designated_run ho hlater hnone⟩

def ranIpc (calls : List IpcCall) : IpcState :=
  (exec (guarded ipcStep idFree) (unixIpcInit ipcZero 0 (some 0x1000)) calls).getD
    (unixIpcInit ipcZero 0 (some 0x1000))

theorem ipc_ids_unique_ran :
    IdsUnique (ranIpc [.msgget (str "jobs") 0 1, .ipcrm .messageQueue 2, .msgget (str "mail") 0 2]) ∧
      ∀ c, idFree (ranIpc [.msgget (str "jobs") 0 1, .ipcrm .messageQueue 2,
        .msgget (str "mail") 0 2]) c = true →
      KeepsDesignating (ranIpc [.msgget (str "jobs") 0 1, .ipcrm .messageQueue 2,
        .msgget (str "mail") 0 2]) c :=
  ipc_ids_unique (Run.of_exec_isSome (by decide))

theorem ipcrm_hands_an_id_out_twice :
    ¬ ∀ (now : Int) (data : Option Nat) (calls : List IpcCall),
      IdsUnique (calls.foldl (fun s c => (ipcCall s c).1) (unixIpcInit ipcZero now data)) := by
  intro hall
  have h := (hall 0 (some 0x1000)
    [.msgget (str "jobs") 0 1, .ipcrm .messageQueue 1, .msgget (str "mail") 0 2]).1
  exact absurd h (by unfold KeysDistinct; decide)

end Law

end ZoraVM.Unix

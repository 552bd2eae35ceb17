import ZoraVM.Unix.IpcIds

namespace ZoraVM.Unix

open Foundation

-- `none` for a NULL answer; the address is the one that malloc gave.
def unixShmat (s : IpcState) (id : Int) : IpcState × Option Nat :=
  match holder SharedMemory.id s.sharedMemory id with
  | some shm =>
    let segments := adjust SharedMemory.id s.sharedMemory id fun shm =>
      { shm with attachedProcesses := shm.attachedProcesses + 1 }
    ({ s with sharedMemory := segments }, some shm.data)
  | none => (s, none)

def unixIpcCleanup (s : IpcState) : IpcState :=
  { s with messageQueues := [], semaphores := [], sharedMemory := [], ipcInitialized := false }

inductive IpcEvent where
  | init (now : Int) (data : Option Nat)
  | call (c : IpcCall)
  | msgsnd (id : Int) (msg : IPCMessage) (now : Int)
  | msgrcv (id : Int) (msg : IPCMessage) (type now : Int)
  | semop (id operation : Int)
  | shmat (id : Int)
  | cleanup
  deriving DecidableEq, Repr

def ipcEvent (s : IpcState) : IpcEvent → IpcState
  | .init now data => unixIpcInit s now data
  | .call c => (ipcCall s c).1
  | .msgsnd id msg now => (unixMsgsnd s id msg now).1
  | .msgrcv id msg type now => (unixMsgrcv s id msg type now).1
  | .semop id operation => (unixSemop s id operation).1
  | .shmat id => (unixShmat s id).1
  | .cleanup => unixIpcCleanup s

def IpcReachable (s : IpcState) : Prop :=
  ∃ events : List IpcEvent, s = events.foldl ipcEvent ipcZero

def label {α : Type} (idOf : α → Int) (nameOf : α → Bytes) (o : α) : Int × Bytes :=
  (idOf o, nameOf o)

def labels (s : IpcState) : IPCType → List (Int × Bytes)
  | .messageQueue => s.messageQueues.map (label MessageQueue.id MessageQueue.name)
  | .semaphore => s.semaphores.map (label Semaphore.id Semaphore.name)
  | .sharedMemory => s.sharedMemory.map (label SharedMemory.id SharedMemory.name)
  | .pipe => []
  | .socket => []

def slotAfterRemoval (ls : List (Int × Bytes)) (id : Int) (q : Nat) : Option Nat :=
  match ls.findIdx? fun a => a.1 = id with
  | none => some q
  | some j => if q = j then none else if j < q then some (q - 1) else some q

-- Where the entry of slot `q` stands after the event; `none` when the event removes it.
def slotAfter (s : IpcState) (type : IPCType) (q : Nat) : IpcEvent → Option Nat
  | .init _ _ => if s.ipcInitialized then some q else none
  | .call (.ipcrm removed id) =>
    if removed = type then slotAfterRemoval (labels s type) id q else some q
  | .cleanup => none
  | _ => some q

inductive Stays (type : IPCType) (s : IpcState) (p : Nat) : List IpcEvent → IpcState → Nat → Prop
  | start : Stays type s p [] s p
  | event {events : List IpcEvent} {t : IpcState} {q q' : Nat} {e : IpcEvent} :
      Stays type s p events t q → slotAfter t type q e = some q' →
      Stays type s p (events ++ [e]) (ipcEvent t e) q'

def gotSlot (s : IpcState) (type : IPCType) (name : Bytes) : Nat :=
  (labels s type).findIdx fun a => a.2 = name

section Table

variable {α : Type} {idOf : α → Int} {nameOf : α → Bytes} {live : List α} {wanted : Bytes}
variable {make : Int → Option α}

theorem ipcGet_full (hfull : ipcLimit ≤ live.length) :
    ipcGet idOf nameOf live wanted make = (live, -1) := if_pos hfull

theorem ipcGet_found {a : Int × Bytes} (hroom : live.length < ipcLimit)
    (hfind : (live.map (label idOf nameOf)).find? (fun a => a.2 = wanted) = some a) :
    ipcGet idOf nameOf live wanted make = (live, a.1) := by
  rw [List.find?_map] at hfind
  obtain ⟨o, ho, rfl⟩ := Option.map_eq_some_iff.mp hfind
  have ho' : live.find? (fun o => nameOf o = wanted) = some o := ho
  rw [ipcGet, if_neg (by omega), ho']
  rfl

theorem ipcGet_absent (hroom : live.length < ipcLimit) (hmake : Makes idOf nameOf make wanted)
    (hnone : (live.map (label idOf nameOf)).find? (fun a => a.2 = wanted) = none) :
    ipcGet idOf nameOf live wanted make = (live, -1) ∨
      ((ipcGet idOf nameOf live wanted make).2 = live.length + 1 ∧
        (ipcGet idOf nameOf live wanted make).1.map (label idOf nameOf) =
          live.map (label idOf nameOf) ++ [((live.length : Int) + 1, clip ipcNameSize wanted)]) := by
  rw [List.find?_map, Option.map_eq_none_iff] at hnone
  have hnone' : live.find? (fun o => nameOf o = wanted) = none := hnone
  rw [ipcGet, if_neg (by omega), hnone']
  dsimp only
  cases hmade : make (live.length + 1) with
  | none => exact .inl rfl
  | some o =>
    refine .inr ⟨hmake.id hmade, ?_⟩
    rw [List.map_append, List.map_singleton, label, hmake.id hmade, hmake.name hmade]

end Table

section Labels

variable {s t : IpcState} {c : IpcCall} {type : IPCType} {name : Bytes} {e : IpcEvent} {q q' : Nat}

inductive GetEnds (s : IpcState) (type : IPCType) (name : Bytes) (done : IpcState × Int) : Prop
  | full : ipcLimit ≤ (labels s type).length → done = (s, -1) → GetEnds s type name done
  | found {a : Int × Bytes} : (labels s type).length < ipcLimit →
      (labels s type).find? (fun a => a.2 = name) = some a → done = (s, a.1) →
      GetEnds s type name done
  | refused : (labels s type).length < ipcLimit →
      (labels s type).find? (fun a => a.2 = name) = none → done = (s, -1) →
      GetEnds s type name done
  | made : (labels s type).length < ipcLimit →
      (labels s type).find? (fun a => a.2 = name) = none →
      done.2 = (labels s type).length + 1 →
      labels done.1 type =
        labels s type ++ [(((labels s type).length : Int) + 1, clip ipcNameSize name)] →
      GetEnds s type name done

theorem getEnds_of_table {α : Type} {idOf : α → Int} {nameOf : α → Bytes} {live : List α}
    {make : Int → Option α} (put : List α → IpcState) (hmake : Makes idOf nameOf make name)
    (hlabels : ∀ l, labels (put l) type = l.map (label idOf nameOf)) (hput : put live = s) :
    GetEnds s type name
      (put (ipcGet idOf nameOf live name make).1, (ipcGet idOf nameOf live name make).2) := by
  subst hput
  have hlen : (labels (put live) type).length = live.length := by rw [hlabels, List.length_map]
  by_cases hroom : live.length < ipcLimit
  · cases hfind : (live.map (label idOf nameOf)).find? fun a => a.2 = name with
    | some a =>
      rw [ipcGet_found hroom hfind]
      exact .found (hlen ▸ hroom) (hlabels live ▸ hfind) rfl
    | none =>
      have hnone : (labels (put live) type).find? (fun a => a.2 = name) = none := by
        rw [hlabels]
        exact hfind
      rcases ipcGet_absent hroom hmake hfind with hget | ⟨hid, hlive⟩
      · rw [hget]
        exact .refused (hlen ▸ hroom) hnone rfl
      · refine .made (hlen ▸ hroom) hnone (by rw [hlen]; exact hid) ?_
        rw [hlabels, hlabels, hlive, List.length_map]
  · rw [ipcGet_full (Nat.not_lt.mp hroom)]
    exact .full (hlen ▸ Nat.not_lt.mp hroom) rfl

theorem get_ends (hwanted : wantedBy c = some (type, name)) :
    GetEnds s type name (ipcCall s c) := by
  cases c with
  | msgget _ flags now =>
    cases hwanted
    exact getEnds_of_table (fun l => { s with messageQueues := l })
      (makes_messageQueue name flags now) (fun _ => rfl) rfl
  | semget _ value flags now =>
    cases hwanted
    exact getEnds_of_table (fun l => { s with semaphores := l })
      (makes_semaphore name value flags now) (fun _ => rfl) rfl
  | shmget _ size flags now data =>
    cases hwanted
    exact getEnds_of_table (fun l => { s with sharedMemory := l })
      (makes_sharedMemory name size flags now data) (fun _ => rfl) rfl
  | ipcrm _ _ => cases hwanted

theorem get_elsewhere {wanted : IPCType × Bytes} (hwanted : wantedBy c = some wanted)
    (htype : type ≠ wanted.1) : labels (ipcCall s c).1 type = labels s type := by
  cases c with
  | msgget _ _ _ =>
    cases hwanted
    cases type <;> first | rfl | exact absurd rfl htype
  | semget _ _ _ _ =>
    cases hwanted
    cases type <;> first | rfl | exact absurd rfl htype
  | shmget _ _ _ _ _ =>
    cases hwanted
    cases type <;> first | rfl | exact absurd rfl htype
  | ipcrm _ _ => cases hwanted

theorem labels_get {wanted : IPCType × Bytes} (hwanted : wantedBy c = some wanted)
    (type : IPCType) :
    labels (ipcCall s c).1 type = labels s type ∨
      labels (ipcCall s c).1 type = labels s type ++
        [(((labels s type).length : Int) + 1, clip ipcNameSize wanted.2)] := by
  by_cases htype : type = wanted.1
  · subst htype
    rcases get_ends (s := s) hwanted with ⟨-, h⟩ | ⟨-, -, h⟩ | ⟨-, -, h⟩ | ⟨-, -, -, h⟩
    · exact .inl (by rw [h])
    · exact .inl (by rw [h])
    · exact .inl (by rw [h])
    · exact .inr h
  · exact .inl (get_elsewhere hwanted htype)

theorem labels_ipcrm (s : IpcState) (removed : IPCType) (id : Int) (type : IPCType) :
    labels (unixIpcrm s removed id) type =
      if removed = type then (labels s type).eraseP (fun a => a.1 = id) else labels s type := by
  by_cases htype : removed = type
  · subst htype
    rw [if_pos rfl]
    cases removed with
    | messageQueue | semaphore | sharedMemory =>
      simp only [labels, unixIpcrm, withdraw, List.eraseP_map]
      rfl
    | pipe => rfl
    | socket => rfl
  · rw [if_neg htype]
    cases removed <;> cases type <;> first | rfl | exact absurd rfl htype

theorem labels_msgsnd (s : IpcState) (id : Int) (msg : IPCMessage) (now : Int) (type : IPCType) :
    labels (unixMsgsnd s id msg now).1 type = labels s type := by
  unfold unixMsgsnd
  split
  · split
    · rfl
    · cases type with
      | messageQueue =>
        refine map_adjust_of ?_ _ _
        exact fun _ => rfl
      | _ => rfl
  · rfl

theorem labels_msgrcv (s : IpcState) (id : Int) (msg : IPCMessage) (wanted now : Int)
    (type : IPCType) : labels (unixMsgrcv s id msg wanted now).1 type = labels s type := by
  unfold unixMsgrcv
  split
  · split
    · rfl
    · cases type with
      | messageQueue =>
        refine map_adjust_of ?_ _ _
        exact fun _ => rfl
      | _ => rfl
  · rfl

theorem labels_semop (s : IpcState) (id operation : Int) (type : IPCType) :
    labels (unixSemop s id operation).1 type = labels s type := by
  unfold unixSemop
  split
  · cases type with
    | semaphore =>
      refine map_adjust_of ?_ _ _
      exact fun _ => rfl
    | _ => rfl
  · rfl

theorem labels_shmat (s : IpcState) (id : Int) (type : IPCType) :
    labels (unixShmat s id).1 type = labels s type := by
  unfold unixShmat
  split
  · cases type with
    | sharedMemory =>
      refine map_adjust_of ?_ _ _
      exact fun _ => rfl
    | _ => rfl
  · rfl

end Labels

section Names

variable {s : IpcState}

def NamesShort (s : IpcState) : Prop := ∀ type, ∀ a ∈ labels s type, a.2.length < ipcNameSize

theorem NamesShort.get {c : IpcCall} {wanted : IPCType × Bytes} (h : NamesShort s)
    (hwanted : wantedBy c = some wanted) : NamesShort (ipcCall s c).1 := by
  intro type a ha
  rcases labels_get (s := s) hwanted type with hsame | hmore
  · rw [hsame] at ha
    exact h type a ha
  · rw [hmore] at ha
    rcases List.mem_append.mp ha with ha | ha
    · exact h type a ha
    · obtain rfl := List.mem_singleton.mp ha
      have hle := length_clip_le ipcNameSize wanted.2
      exact Nat.lt_of_le_of_lt hle (by decide)

theorem namesShort_zero : NamesShort ipcZero := by
  intro type a ha
  cases type <;> cases ha

theorem namesShort_cleanup (s : IpcState) : NamesShort (unixIpcCleanup s) := by
  intro type a ha
  cases type <;> cases ha

theorem NamesShort.of_labels {t : IpcState} (h : NamesShort s)
    (hsame : ∀ type, labels t type = labels s type) : NamesShort t :=
  fun type => (hsame type) ▸ h type

theorem NamesShort.init (h : NamesShort s) (now : Int) (data : Option Nat) :
    NamesShort (unixIpcInit s now data) := by
  unfold unixIpcInit
  split
  · exact h
  · have hclear : NamesShort { s with messageQueues := [], semaphores := [], sharedMemory := [] } :=
      (namesShort_cleanup s).of_labels fun type => by cases type <;> rfl
    have hmsg := hclear.get (c := .msgget (str "system.log") 0o666 now) rfl
    have hsem := hmsg.get (c := .semget (str "console.lock") 1 0o666 now) rfl
    have hshm := hsem.get (c := .shmget (str "system.stats") 4096 0o666 now data) rfl
    exact hshm.of_labels fun type => by cases type <;> rfl

theorem NamesShort.ipcrm (h : NamesShort s) (removed : IPCType) (id : Int) :
    NamesShort (unixIpcrm s removed id) := by
  intro type a ha
  rw [labels_ipcrm] at ha
  split at ha
  · exact h type a (List.mem_of_mem_eraseP ha)
  · exact h type a ha

theorem NamesShort.event (h : NamesShort s) (e : IpcEvent) : NamesShort (ipcEvent s e) := by
  cases e with
  | init now data => exact h.init now data
  | call c =>
    cases c with
    | ipcrm removed id => exact h.ipcrm removed id
    | _ => exact h.get rfl
  | msgsnd id msg now => exact h.of_labels (labels_msgsnd s id msg now)
  | msgrcv id msg wanted now => exact h.of_labels (labels_msgrcv s id msg wanted now)
  | semop id operation => exact h.of_labels (labels_semop s id operation)
  | shmat id => exact h.of_labels (labels_shmat s id)
  | cleanup => exact namesShort_cleanup s

theorem NamesShort.events (h : NamesShort s) (events : List IpcEvent) :
    NamesShort (events.foldl ipcEvent s) := by
  induction events generalizing s with
  | nil => exact h
  | cons e events ih => exact ih (h.event e)

theorem IpcReachable.namesShort (h : IpcReachable s) : NamesShort s := by
  obtain ⟨events, rfl⟩ := h
  exact namesShort_zero.events events

end Names

section Standing

variable {s t : IpcState} {type : IPCType} {name : Bytes} {i : Int} {ls : List (Int × Bytes)}
variable {p q q' : Nat} {c c' : IpcCall} {events : List IpcEvent}

structure Stands (name : Bytes) (i : Int) (ls : List (Int × Bytes)) (q : Nat) : Prop where
  here : ls[q]? = some (i, clip ipcNameSize name)
  first : ∀ j < q, ∀ a, ls[j]? = some a → a.2 ≠ name

theorem Stands.append (h : Stands name i ls q) (more : List (Int × Bytes)) :
    Stands name i (ls ++ more) q := by
  obtain ⟨hq, -⟩ := List.getElem?_eq_some_iff.mp h.here
  refine ⟨by rw [List.getElem?_append_left hq, h.here], fun j hj a ha => ?_⟩
  rw [List.getElem?_append_left (hj.trans hq)] at ha
  exact h.first j hj a ha

theorem Stands.erase_before {k : Nat} (h : Stands name i ls q) (hk : k < q) :
    Stands name i (ls.eraseIdx k) (q - 1) := by
  refine ⟨?_, fun j hj a ha => ?_⟩
  · rw [List.getElem?_eraseIdx_of_ge (by omega), Nat.sub_add_cancel (by omega), h.here]
  · rcases Nat.lt_or_ge j k with hjk | hjk
    · rw [List.getElem?_eraseIdx_of_lt hjk] at ha
      exact h.first j (by omega) a ha
    · rw [List.getElem?_eraseIdx_of_ge hjk] at ha
      exact h.first (j + 1) (by omega) a ha

theorem Stands.erase_after {k : Nat} (h : Stands name i ls q) (hk : q < k) :
    Stands name i (ls.eraseIdx k) q := by
  refine ⟨by rw [List.getElem?_eraseIdx_of_lt hk, h.here], fun j hj a ha => ?_⟩
  rw [List.getElem?_eraseIdx_of_lt (hj.trans hk)] at ha
  exact h.first j hj a ha

theorem Stands.removal {id : Int} (h : Stands name i ls q)
    (hslot : slotAfterRemoval ls id q = some q') :
    Stands name i (ls.eraseP fun a => a.1 = id) q' := by
  rw [slotAfterRemoval] at hslot
  rw [List.eraseP_eq_eraseIdx]
  cases hgone : ls.findIdx? fun a => a.1 = id with
  | none =>
    rw [hgone] at hslot
    obtain rfl := Option.some.inj hslot
    exact h
  | some k =>
    simp only [hgone] at hslot
    dsimp only
    by_cases hqk : q = k
    · rw [if_pos hqk] at hslot
      cases hslot
    · rw [if_neg hqk] at hslot
      by_cases hkq : k < q
      · rw [if_pos hkq] at hslot
        obtain rfl := Option.some.inj hslot
        exact h.erase_before hkq
      · rw [if_neg hkq] at hslot
        obtain rfl := Option.some.inj hslot
        exact h.erase_after (by omega)

theorem Stands.unchanged (h : Stands name i (labels s type) q)
    (hsame : labels t type = labels s type) (hslot : some q = some q') :
    Stands name i (labels t type) q' := by
  obtain rfl := Option.some.inj hslot
  rw [hsame]
  exact h

theorem Stands.init {now : Int} {data : Option Nat} (h : Stands name i (labels s type) q)
    (hslot : slotAfter s type q (.init now data) = some q') :
    Stands name i (labels (unixIpcInit s now data) type) q' := by
  by_cases hinit : s.ipcInitialized = true
  · rw [slotAfter, if_pos hinit] at hslot
    rw [unixIpcInit, if_pos hinit]
    exact h.unchanged rfl hslot
  · rw [slotAfter, if_neg hinit] at hslot
    cases hslot

theorem Stands.get {wanted : IPCType × Bytes} (h : Stands name i (labels s type) q)
    (hwanted : wantedBy c = some wanted) : Stands name i (labels (ipcCall s c).1 type) q := by
  rcases labels_get (s := s) hwanted type with hsame | hmore
  · exact h.unchanged hsame rfl
  · rw [hmore]
    exact h.append _

theorem Stands.ipcrm {removed : IPCType} {id : Int} (h : Stands name i (labels s type) q)
    (hslot : slotAfter s type q (.call (.ipcrm removed id)) = some q') :
    Stands name i (labels (unixIpcrm s removed id) type) q' := by
  rw [labels_ipcrm]
  by_cases htype : removed = type
  · rw [slotAfter, if_pos htype] at hslot
    rw [if_pos htype]
    exact h.removal hslot
  · rw [slotAfter, if_neg htype] at hslot
    rw [if_neg htype]
    exact h.unchanged rfl hslot

theorem Stands.event {e : IpcEvent} (h : Stands name i (labels s type) q)
    (hslot : slotAfter s type q e = some q') : Stands name i (labels (ipcEvent s e) type) q' := by
  cases e with
  | init now data => exact h.init hslot
  | call c =>
    cases c with
    | ipcrm removed id => exact h.ipcrm hslot
    | _ => exact (h.get rfl).unchanged rfl hslot
  | msgsnd id msg now => exact h.unchanged (labels_msgsnd s id msg now type) hslot
  | msgrcv id msg wanted now => exact h.unchanged (labels_msgrcv s id msg wanted now type) hslot
  | semop id operation => exact h.unchanged (labels_semop s id operation type) hslot
  | shmat id => exact h.unchanged (labels_shmat s id type) hslot
  | cleanup => cases hslot

theorem Stands.stays (h : Stands name i (labels s type) p) (hstays : Stays type s p events t q) :
    Stands name i (labels t type) q := by
  induction hstays with
  | start => exact h
  | event _ hslot ih => exact ih.event hslot

theorem Stays.foldl (h : Stays type s p events t q) : t = events.foldl ipcEvent s := by
  induction h with
  | start => rfl
  | event _ _ ih => rw [List.foldl_append, ← ih]; rfl

theorem got_stands (hshort : NamesShort s) (hwanted : wantedBy c = some (type, name))
    (hid : (ipcCall s c).2 ≠ -1) :
    Stands name (ipcCall s c).2 (labels (ipcCall s c).1 type) (gotSlot s type name) := by
  have hbefore : ∀ j < gotSlot s type name, ∀ a, (labels s type)[j]? = some a → a.2 ≠ name := by
    intro j hj a ha
    obtain ⟨hlt, rfl⟩ := List.getElem?_eq_some_iff.mp ha
    exact of_decide_eq_false (List.not_of_lt_findIdx hj)
  have hat : (labels s type)[gotSlot s type name]? = (labels s type).find? fun a => a.2 = name :=
    List.find?_eq_getElem?_findIdx.symm
  rcases get_ends (s := s) hwanted with ⟨-, h⟩ | @⟨a, -, hfind, h⟩ | ⟨-, -, h⟩ | ⟨-, hnone, hid', hmore⟩
  · exact absurd (congrArg Prod.snd h) hid
  · have hname : a.2 = name := by simpa using List.find?_some hfind
    have hclip : clip ipcNameSize name = name :=
      clip_of_length_lt (hname ▸ hshort type a (List.mem_of_find?_eq_some hfind))
    rw [h]
    refine ⟨(hat.trans hfind).trans ?_, hbefore⟩
    rw [hclip, ← hname]
  · exact absurd (congrArg Prod.snd h) hid
  · have hslot : gotSlot s type name = (labels s type).length := by
      refine List.findIdx_eq_length.mpr fun a ha => ?_
      simpa using List.find?_eq_none.mp hnone a ha
    rw [hmore, hid', hslot]
    rw [hslot] at hbefore
    refine ⟨by simp, fun j hj a ha => ?_⟩
    rw [List.getElem?_append_left hj] at ha
    exact hbefore j hj a ha

def GetsAgain (s t : IpcState) (c c' : IpcCall) : Prop :=
  (ipcCall t c').2 = (ipcCall s c).2 ∧ (ipcCall t c').1 = t

theorem get_again_iff_of_stands (hshort : NamesShort t) (hwanted : wantedBy c' = some (type, name))
    (hstands : Stands name i (labels t type) q) (hi : i ≠ -1) :
    (ipcCall t c').2 = i ∧ (ipcCall t c').1 = t ↔
      (labels t type).length < ipcLimit ∧ name.length < ipcNameSize := by
  constructor
  · rintro ⟨hanswer, hsame⟩
    rcases get_ends (s := t) hwanted with ⟨-, h⟩ | @⟨a, hroom, hfind, -⟩ | ⟨-, -, h⟩ | ⟨-, -, -, hmore⟩
    · rw [h] at hanswer
      exact absurd hanswer.symm hi
    · have hname : a.2 = name := by simpa using List.find?_some hfind
      exact ⟨hroom, hname ▸ hshort type a (List.mem_of_find?_eq_some hfind)⟩
    · rw [h] at hanswer
      exact absurd hanswer.symm hi
    · rw [hsame] at hmore
      simp at hmore
  · rintro ⟨hroom, hlen⟩
    have hclip : clip ipcNameSize name = name := clip_of_length_lt hlen
    obtain ⟨hq, hhere⟩ := List.getElem?_eq_some_iff.mp hstands.here
    have hfind : (labels t type).find? (fun a => a.2 = name) = some (i, clip ipcNameSize name) := by
      refine List.find?_eq_some_iff_getElem.mpr ⟨by simpa using hclip, q, hq, hhere, fun j hj => ?_⟩
      have hne := hstands.first j hj _ (List.getElem?_eq_getElem (hj.trans hq))
      simpa using hne
    rcases get_ends (s := t) hwanted with ⟨hfull, -⟩ | ⟨-, hfind', h⟩ | ⟨-, hnone, -⟩ | ⟨-, hnone, -, -⟩
    · omega
    · rw [hfind] at hfind'
      obtain rfl := Option.some.inj hfind'
      rw [h]
      exact ⟨rfl, rfl⟩
    · rw [hfind] at hnone
      cases hnone
    · rw [hfind] at hnone
      cases hnone

theorem ipc_get_again_iff (hreach : IpcReachable s) (hc : wantedBy c = some (type, name))
    (hc' : wantedBy c' = some (type, name)) (hid : (ipcCall s c).2 ≠ -1)
    (hstays : Stays type (ipcCall s c).1 (gotSlot s type name) events t q) :
    GetsAgain s t c c' ↔ (labels t type).length < ipcLimit ∧ name.length < ipcNameSize := by
  have hshort := hreach.namesShort
  have hshort' : NamesShort t := by
    rw [hstays.foldl]
    exact (hshort.get hc).events events
  exact get_again_iff_of_stands hshort' hc' ((got_stands hshort hc hid).stays hstays) hid

def ipcRan (events : List IpcEvent) : IpcState := events.foldl ipcEvent ipcZero

theorem ipcReachable_ran (events : List IpcEvent) : IpcReachable (ipcRan events) := ⟨events, rfl⟩

def jobsGet : IpcCall := .msgget (str "jobs") 0o666 7

theorem jobs_move_up : Stays .messageQueue (ipcCall (ipcRan [.init 0 none]) jobsGet).1 1
    [.call (.ipcrm .messageQueue 1)]
    (ipcRan [.init 0 none, .call jobsGet, .call (.ipcrm .messageQueue 1)]) 0 :=
  .event .start (by decide)

theorem ipc_get_again_iff_jobs :
    GetsAgain (ipcRan [.init 0 none]) (ipcRan [.init 0 none, .call jobsGet,
        .call (.ipcrm .messageQueue 1)]) jobsGet (.msgget (str "jobs") 0 9) ↔
      (labels (ipcRan [.init 0 none, .call jobsGet, .call (.ipcrm .messageQueue 1)])
        .messageQueue).length < ipcLimit ∧ (str "jobs").length < ipcNameSize :=
  ipc_get_again_iff (ipcReachable_ran _) rfl rfl (by decide) jobs_move_up

def thirtyQueues : List IpcEvent :=
  (List.range 30).map fun k => .call (.msgget [UInt8.ofNat (k + 1)] 0 0)

theorem get_not_idempotent :
    (¬ ∀ (s : IpcState) (c : IpcCall) (type : IPCType) (name : Bytes), IpcReachable s →
      wantedBy c = some (type, name) → (ipcCall s c).2 ≠ -1 → name.length < ipcNameSize →
      GetsAgain s (ipcCall s c).1 c c) ∧
    ¬ ∀ (s : IpcState) (c : IpcCall) (type : IPCType) (name : Bytes), IpcReachable s →
      wantedBy c = some (type, name) → (ipcCall s c).2 ≠ -1 →
      (labels (ipcCall s c).1 type).length < ipcLimit → GetsAgain s (ipcCall s c).1 c c := by
  constructor
  · intro hall
    have h := hall (ipcRan (.init 0 none :: thirtyQueues)) jobsGet .messageQueue (str "jobs")
      (ipcReachable_ran _) rfl (by decide +kernel) (by decide)
    exact absurd h.1 (by decide +kernel)
  · intro hall
    have h := hall (ipcRan [.init 0 none]) (.msgget (List.replicate 64 97) 0 0) .messageQueue
      (List.replicate 64 97) (ipcReachable_ran _) rfl (by decide +kernel) (by decide +kernel)
    exact absurd h.1 (by decide +kernel)

end Standing

end ZoraVM.Unix

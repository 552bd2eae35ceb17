import ZoraVM.Unix.IpcIds

namespace ZoraVM.Unix

open Foundation

section Clients

variable {κ : Type} [DecidableEq κ]

structure SemopEvent (κ : Type) where
  client : κ
  operation : Int
  result : Int
  deriving DecidableEq, Repr

-- `log` has the newest call first.
structure SemaphoreUse (κ : Type) where
  ipc : IpcState
  log : List (SemopEvent κ)

inductive SemopRequest (κ : Type) where
  | acquire (client : κ)
  | release (client : κ)
  deriving DecidableEq, Repr

def SemopRequest.client : SemopRequest κ → κ
  | .acquire client => client
  | .release client => client

def SemopRequest.operation : SemopRequest κ → Int
  | .acquire _ => -1
  | .release _ => 1

def SemaphoreUse.request (id : Int) (u : SemaphoreUse κ) (r : SemopRequest κ) : SemaphoreUse κ :=
  let done := unixSemop u.ipc id r.operation
  ⟨done.1, ⟨r.client, r.operation, done.2⟩ :: u.log⟩

def SemopEvent.acquires (e : SemopEvent κ) : Bool := e.operation = -1 ∧ e.result = 0

def SemopEvent.releases (e : SemopEvent κ) : Bool := e.operation = 1 ∧ e.result = 0

def acquired (log : List (SemopEvent κ)) : Nat := log.countP SemopEvent.acquires

def released (log : List (SemopEvent κ)) : Nat := log.countP SemopEvent.releases

def outstanding (log : List (SemopEvent κ)) : Int := acquired log - released log

def callsOf (client : κ) (log : List (SemopEvent κ)) : List (SemopEvent κ) :=
  log.filter fun e => e.client = client

def releasesOwn (u : SemaphoreUse κ) (r : SemopRequest κ) : Bool :=
  r.operation = 1 → released (callsOf r.client u.log) < acquired (callsOf r.client u.log)

def semValue (s : IpcState) (id : Int) : Int :=
  ((holder Semaphore.id s.semaphores id).map Semaphore.value).getD 0

def permitLeft (id : Int) (u : SemaphoreUse κ) (r : SemopRequest κ) : Bool :=
  r.operation = -1 → 0 < semValue u.ipc id

def holding : List (SemopEvent κ) → List κ
  | [] => []
  | e :: log =>
    if e.acquires then e.client :: holding log
    else if e.releases then (holding log).erase e.client
    else holding log

structure Accounted (log : List (SemopEvent κ)) : Prop where
  total : (holding log).length + released log = acquired log
  each : ∀ c, (holding log).count c + released (callsOf c log) = acquired (callsOf c log)

variable {log : List (SemopEvent κ)} {e : SemopEvent κ} {c : κ}

omit [DecidableEq κ] in
theorem acquires_not_releases (h : e.acquires = true) : e.releases = false := by
  have hop : e.operation = -1 := (of_decide_eq_true h).1
  refine decide_eq_false ?_
  rw [hop]
  rintro ⟨hone, _⟩
  cases hone

theorem accounted_acquire (h : Accounted log) (he : e.acquires = true) : Accounted (e :: log) := by
  have hnot := acquires_not_releases he
  have htotal := h.total
  constructor
  · simp [holding, acquired, released, he, hnot]
    simp only [acquired, released] at htotal
    omega
  · intro c
    have heach := h.each c
    rcases Decidable.em (e.client = c) with hc | hc
    · simp [holding, acquired, released, callsOf, he, hnot, hc]
      simp only [acquired, released, callsOf] at heach
      omega
    · simp [holding, acquired, released, callsOf, he, hc]
      simpa [acquired, released, callsOf] using heach

theorem mem_holding (h : Accounted log)
    (hown : released (callsOf c log) < acquired (callsOf c log)) : c ∈ holding log := by
  have heach := h.each c
  exact List.count_pos_iff.mp (by omega)

theorem accounted_release (h : Accounted log) (he : e.releases = true)
    (hown : e.client ∈ holding log) : Accounted (e :: log) := by
  have hnot : e.acquires = false := by
    rcases Bool.eq_false_or_eq_true e.acquires with ha | ha
    · exact absurd (acquires_not_releases ha) (by simp [he])
    · exact ha
  have htotal := h.total
  have hpos := List.length_pos_of_mem hown
  constructor
  · simp [holding, acquired, released, he, hnot, List.length_erase_of_mem hown]
    simp only [acquired, released] at htotal
    omega
  · intro c
    have heach := h.each c
    rcases Decidable.em (e.client = c) with hc | hc
    · obtain rfl := hc
      have hcount := List.count_pos_iff.mpr hown
      simp [holding, acquired, released, callsOf, he, hnot]
      simp only [acquired, released, callsOf] at heach
      omega
    · simp [holding, acquired, released, callsOf, he, hnot, hc, List.count_erase_of_ne (Ne.symm hc)]
      simpa [acquired, released, callsOf] using heach

end Clients

section Operate

variable {s : IpcState} {sem : Semaphore} {id operation : Int}

theorem unixSemop_found (h : holder Semaphore.id s.semaphores id = some sem) :
    (unixSemop s id operation).2 = 0 ∧
      holder Semaphore.id (unixSemop s id operation).1.semaphores id =
        some (sem.operate operation) := by
  rw [unixSemop, h]
  refine ⟨rfl, ?_⟩
  have hadjust : holder Semaphore.id
      (adjust Semaphore.id s.semaphores id fun sem => sem.operate operation) id =
        (holder Semaphore.id s.semaphores id).map fun sem => sem.operate operation :=
    holder_adjust fun _ => rfl
  rw [h] at hadjust
  exact hadjust

theorem operate_acquire (hpos : 0 < sem.value) (hmax : sem.value ≤ sem.maxValue) :
    (sem.operate (-1)).value = sem.value - 1 := by
  simp only [Semaphore.operate]
  split_ifs <;> omega

theorem operate_release (hpos : 0 ≤ sem.value) (hmax : sem.value < sem.maxValue) :
    (sem.operate 1).value = sem.value + 1 := by
  simp only [Semaphore.operate]
  split_ifs <;> omega

end Operate

section Permits

variable {κ : Type} [DecidableEq κ] {u w : SemaphoreUse κ} {r : SemopRequest κ} {id value : Int}

structure PermitsKept (id value : Int) (u : SemaphoreUse κ) : Prop where
  accounted : Accounted u.log
  semaphore : ∃ sem, holder Semaphore.id u.ipc.semaphores id = some sem ∧ sem.maxValue = value ∧
    0 ≤ sem.value ∧ sem.value + (holding u.log).length = value

theorem outstanding_eq {log : List (SemopEvent κ)} (h : Accounted log) :
    outstanding log = (holding log).length := by
  have htotal := h.total
  rw [outstanding]
  omega

theorem semValue_of_holder {s : IpcState} {sem : Semaphore}
    (h : holder Semaphore.id s.semaphores id = some sem) : semValue s id = sem.value := by
  rw [semValue, h]
  rfl

omit [DecidableEq κ] in
theorem request_log {sem : Semaphore} (hsem : holder Semaphore.id u.ipc.semaphores id = some sem)
    (r : SemopRequest κ) : (u.request id r).log = ⟨r.client, r.operation, 0⟩ :: u.log := by
  have hzero : (unixSemop u.ipc id r.operation).2 = 0 := (unixSemop_found hsem).1
  rw [SemaphoreUse.request, hzero]

theorem accounted_request (h : PermitsKept id value u) (hown : releasesOwn u r = true) :
    Accounted (u.request id r).log := by
  obtain ⟨sem, hsem, -⟩ := h.semaphore
  cases r with
  | acquire c =>
    rw [request_log hsem]
    exact accounted_acquire h.accounted rfl
  | release c =>
    have hless := of_decide_eq_true hown rfl
    rw [request_log hsem]
    exact accounted_release h.accounted rfl (mem_holding h.accounted hless)

theorem permitsKept_request (h : PermitsKept id value u) (hown : releasesOwn u r = true)
    (hleft : permitLeft id u r = true) : PermitsKept id value (u.request id r) := by
  have haccounted := accounted_request h hown
  obtain ⟨sem, hsem, hmax, hzero, hsum⟩ := h.semaphore
  cases r with
  | acquire c =>
    have hpos := of_decide_eq_true hleft rfl
    rw [semValue_of_holder hsem] at hpos
    have hvalue := operate_acquire hpos (by omega)
    refine ⟨haccounted, sem.operate (-1), (unixSemop_found hsem).2, hmax, by omega, ?_⟩
    rw [request_log hsem, hvalue]
    change sem.value - 1 + ((c :: holding u.log).length : Nat) = value
    rw [List.length_cons]
    omega
  | release c =>
    have hless := of_decide_eq_true hown rfl
    have hmem : c ∈ holding u.log := mem_holding h.accounted hless
    have hlength := List.length_pos_of_mem hmem
    have hvalue := operate_release hzero (by omega)
    refine ⟨haccounted, sem.operate 1, (unixSemop_found hsem).2, hmax, by omega, ?_⟩
    rw [request_log hsem, hvalue]
    change sem.value + 1 + (((holding u.log).erase c).length : Nat) = value
    rw [List.length_erase_of_mem hmem]
    omega

theorem outstanding_le (h : PermitsKept id value u) : outstanding u.log ≤ value := by
  obtain ⟨sem, -, -, hzero, hsum⟩ := h.semaphore
  rw [outstanding_eq h.accounted]
  omega

theorem exceeds_without_permit (h : PermitsKept id value u) (hown : releasesOwn u r = true)
    (hnone : permitLeft id u r = false) : outstanding (u.request id r).log = value + 1 := by
  rw [outstanding_eq (accounted_request h hown)]
  obtain ⟨sem, hsem, hmax, hzero, hsum⟩ := h.semaphore
  cases r with
  | acquire c =>
    have hvalue : ¬ 0 < semValue u.ipc id := fun hpos => of_decide_eq_false hnone fun _ => hpos
    rw [semValue_of_holder hsem] at hvalue
    rw [request_log hsem]
    change (((c :: holding u.log).length : Nat) : Int) = value + 1
    rw [List.length_cons]
    omega
  | release c =>
    refine absurd ?_ (of_decide_eq_false hnone)
    intro hop
    cases hop

theorem within_iff_permitLeft (h : PermitsKept id value u) (hown : releasesOwn u r = true) :
    outstanding (u.request id r).log ≤ value ↔ permitLeft id u r = true := by
  constructor
  · intro hle
    by_contra hnone
    have hexceeds := exceeds_without_permit h hown (Bool.eq_false_iff.mpr hnone)
    omega
  · intro hleft
    exact outstanding_le (permitsKept_request h hown hleft)

end Permits

section Law

abbrev SemaphoreRun {κ : Type} (s : IpcState) (id : Int)
    (allowed : SemaphoreUse κ → SemopRequest κ → Bool) :=
  Run (fun u r => some (u.request id r)) (fun u r => allowed u r = true) ⟨s, []⟩

structure SemaphoreMade (s : IpcState) (name : Bytes) (value flags now : Int) (made : IpcState)
    (id : Int) : Prop where
  get : unixSemget s name value flags now = (made, id)
  grows : s.semaphores.length < made.semaphores.length
  fresh : idFree s (.semget name value flags now) = true

variable {κ : Type} [DecidableEq κ]

theorem permitsKept_made {s made : IpcState} {name : Bytes} {value flags now id : Int}
    (hvalue : 0 ≤ value) (hmade : SemaphoreMade s name value flags now made id) :
    PermitsKept (κ := κ) id value ⟨made, []⟩ := by
  obtain ⟨hget, hgrows, hfresh⟩ := hmade
  have hstate : made = (unixSemget s name value flags now).1 := by rw [hget]
  have hid : id = (unixSemget s name value flags now).2 := by rw [hget]
  rw [hstate] at hgrows
  obtain ⟨sem, hnew, hsem⟩ := get_created (makes_semaphore name value flags now) hfresh hgrows
  obtain rfl := Option.some.inj hnew
  rw [hstate, hid]
  refine ⟨⟨rfl, fun _ => rfl⟩, _, hsem, rfl, hvalue, ?_⟩
  change value + ((0 : Nat) : Int) = value
  omega

theorem semaphore_safe_while_permits_left {s made : IpcState} {name : Bytes}
    {value flags now id : Int} {requests : List (SemopRequest κ)} {u : SemaphoreUse κ}
    (hvalue : 0 ≤ value) (hmade : SemaphoreMade s name value flags now made id)
    (hrun : SemaphoreRun made id (fun u r => releasesOwn u r && permitLeft id u r) requests u) :
    outstanding u.log ≤ value ∧ ∀ r, releasesOwn u r = true →
      (outstanding (u.request id r).log ≤ value ↔ permitLeft id u r = true) := by
  have hkept : PermitsKept id value u := by
    refine hrun.invariant (permitsKept_made hvalue hmade) ?_
    intro u r u' hu hallowed hstep
    obtain rfl := Option.some.inj hstep
    obtain ⟨hown, hleft⟩ := Bool.and_eq_true_iff.mp hallowed
    exact permitsKept_request hu hown hleft
  exact ⟨outstanding_le hkept, fun r hown => within_iff_permitLeft hkept hown⟩

def bootIpc : IpcState := unixIpcInit ipcZero 0 (some 0x1000)

def lockMade : IpcState := (unixSemget bootIpc (str "lock") 1 0 5).1

theorem lock_made : SemaphoreMade bootIpc (str "lock") 1 0 5 lockMade 2 :=
  ⟨by decide, by decide, by decide⟩

def lockUsed (requests : List (SemopRequest Nat)) : SemaphoreUse Nat :=
  requests.foldl (SemaphoreUse.request 2) ⟨lockMade, []⟩

theorem semaphore_safe_two_clients :
    outstanding (lockUsed [.acquire 0, .release 0, .acquire 1]).log ≤ 1 ∧
      ∀ r, releasesOwn (lockUsed [.acquire 0, .release 0, .acquire 1]) r = true →
        (outstanding ((lockUsed [.acquire 0, .release 0, .acquire 1]).request 2 r).log ≤ 1 ↔
          permitLeft 2 (lockUsed [.acquire 0, .release 0, .acquire 1]) r = true) :=
  semaphore_safe_while_permits_left (by decide) lock_made
    (.call (.call (.call .start (by decide) rfl) (by decide) rfl) (by decide) rfl)

theorem semop_grants_at_zero :
    ¬ ∀ (s made : IpcState) (name : Bytes) (value flags now id : Int)
      (requests : List (SemopRequest Nat)) (u : SemaphoreUse Nat), 0 ≤ value →
      SemaphoreMade s name value flags now made id → SemaphoreRun made id releasesOwn requests u →
      outstanding u.log ≤ value := by
  intro hall
  have h := hall _ _ _ _ _ _ _ [.acquire 0, .acquire 1] (lockUsed [.acquire 0, .acquire 1])
    (by decide) lock_made (.call (.call .start (by decide) rfl) (by decide) rfl)
  exact absurd h (by decide)

end Law

end ZoraVM.Unix

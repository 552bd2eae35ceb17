import ZoraVM.Foundation.CString
import ZoraVM.Foundation.Run
import ZoraVM.Foundation.SlotTable

namespace ZoraVM.System.Real

open Foundation

def maxRealProcesses : Nat := 512
def maxProcessNameReal : Nat := 256
def maxProcessArgs : Nat := 1024

def procSigKill : Int := 9
def procSigTerm : Int := 15
def procSigStop : Int := 19
def procSigCont : Int := 18

def stillActive : Int := 259

inductive RealProcessState where
  | running
  | sleeping
  | stopped
  | zombie
  | dead
  deriving DecidableEq, Repr

-- Of a Windows handle only whether it is NULL matters.
structure RealProcess where
  pid : Int
  ppid : Int
  name : Bytes
  args : Bytes
  state : RealProcessState
  exitCode : Int
  winHandle : Bool
  winThread : Bool
  isBackground : Bool
  deriving DecidableEq, Repr

structure BackgroundJob where
  jobId : Int
  pid : Int
  command : Bytes
  isStopped : Bool
  deriving DecidableEq, Repr

structure RealProcs where
  processes : List (Option RealProcess)
  processCount : Int
  nextPid : Int
  jobs : List (Option BackgroundJob)
  jobCount : Int
  nextJobId : Int
  deriving DecidableEq, Repr

def int32 (n : Int) : Int := n.bmod (2 ^ 32)

def initProcess : RealProcess where
  pid := 1
  ppid := 0
  name := str "zora_vm"
  args := str "zora_vm"
  state := .running
  exitCode := 0
  winHandle := true
  winThread := true
  isBackground := false

def processRealInit : RealProcs where
  processes := (List.replicate maxRealProcesses none).set 0 (some initProcess)
  processCount := 1
  nextPid := 2
  jobs := List.replicate maxRealProcesses none
  jobCount := 0
  nextJobId := 1

def processRealGet (s : RealProcs) (pid : Int) : Option (Nat × RealProcess) :=
  findEntry s.processes fun proc => proc.pid = pid

def RealProcs.put (s : RealProcs) (i : Nat) (proc : RealProcess) : RealProcs :=
  { s with processes := s.processes.set i (some proc) }

-- WaitForSingleObject returns when the process has exited with `code`; the last part of the answer
-- is what is written to *exit_code.
def processRealWait (s : RealProcs) (pid code : Int) : RealProcs × Int × Option Int :=
  match processRealGet s pid with
  | none => (s, -1, none)
  | some (i, proc) =>
    if proc.winHandle then (s.put i { proc with state := .zombie, exitCode := code }, 0, some code)
    else (s, -1, none)

def processRealSuspend (s : RealProcs) (pid : Int) : RealProcs × Int :=
  match processRealGet s pid with
  | none => (s, -1)
  | some (i, proc) =>
    if proc.winThread then (s.put i { proc with state := .stopped }, 0) else (s, -1)

def processRealResume (s : RealProcs) (pid : Int) : RealProcs × Int :=
  match processRealGet s pid with
  | none => (s, -1)
  | some (i, proc) =>
    if proc.winThread then (s.put i { proc with state := .running }, 0) else (s, -1)

def removeJobOf (s : RealProcs) (pid : Int) : RealProcs :=
  match findEntry s.jobs fun job => job.pid = pid with
  | none => s
  | some (i, _) => { s with jobs := s.jobs.set i none, jobCount := s.jobCount - 1 }

def processRealKill (s : RealProcs) (pid signal : Int) : RealProcs × Int :=
  match processRealGet s pid with
  | none => (s, -1)
  | some (i, proc) =>
    if pid = 1 then (s, -1)
    else if proc.winHandle = false then (s, -1)
    else if signal = procSigKill ∨ signal = procSigTerm then
      let killed :=
        { proc with state := .dead, exitCode := signal, winHandle := false, winThread := false }
      (removeJobOf (s.put i killed) pid, 0)
    else if signal = procSigStop then processRealSuspend s pid
    else if signal = procSigCont then processRealResume s pid
    else (s, -1)

-- `exited` is what GetExitCodeProcess reports; the measurements are left out.
def processRealUpdateStats (s : RealProcs) (pid exited : Int) : RealProcs × Int :=
  match processRealGet s pid with
  | none => (s, -1)
  | some (i, proc) =>
    if proc.winHandle = false then (s, -1)
    else if exited ≠ stillActive then
      (s.put i { proc with state := .zombie, exitCode := exited }, 0)
    else (s, 0)

-- `memory` says whether malloc has memory for the job.
def jobAdd (s : RealProcs) (pid : Int) (command : Bytes) (memory : Bool) : RealProcs × Int :=
  match firstFree s.jobs with
  | none => (s, -1)
  | some i =>
    if memory then
      let job : BackgroundJob := ⟨s.nextJobId, pid, clip maxProcessArgs command, false⟩
      ({ s with
        jobs := s.jobs.set i (some job)
        jobCount := s.jobCount + 1
        nextJobId := int32 (s.nextJobId + 1) }, s.nextJobId)
    else (s, -1)

def jobGetById (s : RealProcs) (jobId : Int) : Option (Nat × BackgroundJob) :=
  findEntry s.jobs fun job => job.jobId = jobId

def jobForeground (s : RealProcs) (jobId code : Int) : RealProcs × Int :=
  match jobGetById s jobId with
  | none => (s, -1)
  | some (_, job) =>
    match processRealGet s job.pid with
    | none => (s, -1)
    | some _ =>
      let waited := processRealWait s job.pid code
      (waited.1, waited.2.1)

def jobBackground (s : RealProcs) (jobId : Int) : RealProcs × Int :=
  match jobGetById s jobId with
  | none => (s, -1)
  | some (i, job) =>
    match processRealGet s job.pid with
    | none => (s, -1)
    | some _ =>
      if job.isStopped then
        let resumed := (processRealResume s job.pid).1
        ({ resumed with jobs := resumed.jobs.set i (some { job with isStopped := false }) }, 0)
      else (s, 0)

-- cmd_line has 4096 bytes; once the text is longer the next snprintf is given a size that wrapped.
def appendArg (line : Bytes) (arg : Option Bytes) : Option Bytes :=
  match arg with
  | none => some line
  | some arg => if line.length > 4096 then none else some (line ++ str " \"" ++ arg ++ str "\"")

def commandLine (command : Bytes) (argv : List (Option Bytes)) : Option Bytes :=
  ((argv.take 32).foldlM appendArg (str "\"" ++ command ++ str "\"")).map (clip 4096)

inductive SpawnReport where
  | noCommand
  | tableFull
  | noMemory
  | notCreated
  | spawned (pid : Int)
  deriving DecidableEq, Repr

structure SpawnArgs where
  command : Option Bytes
  argv : List (Option Bytes)
  background : Bool
  deriving DecidableEq, Repr

-- What calloc, CreateProcessA, the job's malloc and the exit of a foreground process answer.
structure SpawnHost where
  memory : Bool
  created : Bool
  jobMemory : Bool
  code : Int
  deriving DecidableEq, Repr

def newProcess (pid : Int) (command line : Bytes) (background : Bool) : RealProcess where
  pid := pid
  ppid := 1
  name := clip maxProcessNameReal command
  args := clip maxProcessArgs line
  state := .running
  exitCode := 0
  winHandle := true
  winThread := true
  isBackground := background

def RealProcs.enter (s : RealProcs) (slot : Nat) (proc : RealProcess) : RealProcs :=
  { s with
    processes := s.processes.set slot (some proc)
    processCount := s.processCount + 1 }

def startSpawned (s : RealProcs) (pid : Int) (line : Bytes) (background : Bool) (host : SpawnHost) :
    RealProcs × Int :=
  if background then ((jobAdd s pid line host.jobMemory).1, 0)
  else
    let waited := processRealWait s pid host.code
    (waited.1, waited.2.2.getD 0)

def processRealSpawn (s : RealProcs) (args : SpawnArgs) (host : SpawnHost) :
    Option (RealProcs × Int × SpawnReport) :=
  match args.command with
  | none => some (s, -1, .noCommand)
  | some command =>
    match firstFree s.processes with
    | none => some (s, -1, .tableFull)
    | some slot =>
      if host.memory = false then some (s, -1, .noMemory)
      else
        let pid := s.nextPid
        let s := { s with nextPid := int32 (pid + 1) }
        do
          let line ← commandLine command args.argv
          if host.created = false then some (s, -1, .notCreated)
          else
            let proc := newProcess pid command line args.background
            let started := startSpawned (s.enter slot proc) pid line args.background host
            some (started.1, started.2, .spawned pid)

inductive RealCall where
  | spawn (args : SpawnArgs) (host : SpawnHost)
  | wait (pid code : Int)
  | kill (pid signal : Int)
  | updateStats (pid exited : Int)
  | jobForeground (jobId code : Int)
  | jobBackground (jobId : Int)
  deriving DecidableEq, Repr

def realCall (s : RealProcs) : RealCall → Option (RealProcs × Int)
  | .spawn args host => (processRealSpawn s args host).map fun done => (done.1, done.2.1)
  | .wait pid code =>
    let waited := processRealWait s pid code
    some (waited.1, waited.2.1)
  | .kill pid signal => some (processRealKill s pid signal)
  | .updateStats pid exited => some (processRealUpdateStats s pid exited)
  | .jobForeground jobId code => some (Real.jobForeground s jobId code)
  | .jobBackground jobId => some (Real.jobBackground s jobId)

abbrev RealRun (allowed : RealProcs → RealCall → Bool) :=
  Run (fun s c => (realCall s c).map Prod.fst) (fun s c => allowed s c = true) processRealInit

section Lookup

variable {s t : RealProcs} {pid code : Int} {i : Nat} {proc old new : RealProcess}

structure Swaps (s t : RealProcs) (old new : RealProcess) : Prop where
  place : ∃ pre post, s.processes = pre ++ some old :: post ∧ t.processes = pre ++ some new :: post
  pid : new.pid = old.pid
  next : t.nextPid = s.nextPid

structure Enters (s u : RealProcs) (proc : RealProcess) : Prop where
  place : ∃ pre post, s.processes = pre ++ none :: post ∧ u.processes = pre ++ some proc :: post
  pid : proc.pid = s.nextPid
  fresh : proc.state = .running ∧ proc.winHandle = true ∧ proc.winThread = true
  next : u.nextPid = int32 (s.nextPid + 1)
  jobs : u.jobs = s.jobs ∧ u.jobCount = s.jobCount ∧ u.nextJobId = s.nextJobId

theorem processRealGet_some (h : processRealGet s pid = some (i, proc)) :
    proc.pid = pid ∧ proc ∈ entries s.processes := by
  obtain ⟨pre, post, -, hpid, -⟩ := findEntry_some h
  exact ⟨of_decide_eq_true hpid, findEntry_mem h⟩

theorem processRealGet_none_iff : processRealGet s pid = none ↔
    ∀ proc ∈ entries s.processes, proc.pid ≠ pid := by
  simp [processRealGet, findEntry_none_iff]

theorem put_swaps (h : processRealGet s pid = some (i, proc)) (hpid : new.pid = proc.pid) :
    Swaps s (s.put i new) proc new := by
  obtain ⟨pre, post, hl, -, hset⟩ := findEntry_some h
  exact ⟨⟨pre, post, hl, hset _⟩, hpid, rfl⟩

def realPids (s : RealProcs) : List Int := (entries s.processes).map RealProcess.pid

structure PidsKept (s : RealProcs) : Prop where
  distinct : (realPids s).Nodup
  below : ∀ proc ∈ entries s.processes, proc.pid < s.nextPid

theorem PidsKept.eq_of_pid {p : RealProcess} (h : PidsKept s) (hproc : proc ∈ entries s.processes)
    (hp : p ∈ entries s.processes) (hpid : p.pid = proc.pid) : p = proc :=
  List.inj_on_of_nodup_map h.distinct hp hproc hpid

theorem PidsKept.fresh (h : PidsKept s) : s.nextPid ∉ realPids s := by
  intro hmem
  obtain ⟨proc, hproc, hpid⟩ := List.mem_map.mp hmem
  have hlt := h.below proc hproc
  omega

theorem Swaps.pids (h : Swaps s t old new) : realPids t = realPids s := by
  obtain ⟨pre, post, hl, hl'⟩ := h.place
  rw [realPids, realPids, hl, hl', entries_filled, entries_filled, List.map_append, List.map_append,
    List.map_cons, List.map_cons, h.pid]

theorem Swaps.new_mem (h : Swaps s t old new) : new ∈ entries t.processes := by
  obtain ⟨pre, post, -, hl'⟩ := h.place
  rw [hl', entries_filled]
  exact List.mem_append_right _ List.mem_cons_self

theorem Swaps.mem_iff (h : Swaps s t old new) (hs : PidsKept s) :
    proc ∈ entries t.processes ↔
      proc = new ∨ proc ∈ entries s.processes ∧ proc.pid ≠ old.pid := by
  obtain ⟨pre, post, hl, hl'⟩ := h.place
  have hdistinct := hs.distinct
  rw [realPids, hl, entries_filled, List.map_append, List.map_cons, List.nodup_middle,
    List.nodup_cons, ← List.map_append] at hdistinct
  have hother : ∀ p ∈ entries pre ++ entries post, p.pid ≠ old.pid := fun p hp hpid =>
    hdistinct.1 (List.mem_map.mpr ⟨p, hp, hpid⟩)
  rw [hl', hl, entries_filled, entries_filled]
  simp only [List.mem_append, List.mem_cons] at hother ⊢
  constructor
  · rintro (hpre | rfl | hpost)
    · exact .inr ⟨.inl hpre, hother proc (.inl hpre)⟩
    · exact .inl rfl
    · exact .inr ⟨.inr (.inr hpost), hother proc (.inr hpost)⟩
  · rintro (rfl | ⟨hpre | rfl | hpost, hpid⟩)
    · exact .inr (.inl rfl)
    · exact .inl hpre
    · exact absurd rfl hpid
    · exact .inr (.inr hpost)

theorem Swaps.pidsKept (h : Swaps s t old new) (hs : PidsKept s) : PidsKept t := by
  refine ⟨h.pids ▸ hs.distinct, fun proc hproc => ?_⟩
  rw [h.next]
  rcases (h.mem_iff hs).mp hproc with rfl | ⟨hold, -⟩
  · obtain ⟨pre, post, hl, -⟩ := h.place
    rw [h.pid]
    refine hs.below old ?_
    rw [hl, entries_filled]
    exact List.mem_append_right _ List.mem_cons_self
  · exact hs.below proc hold

theorem Swaps.slots (h : Swaps s t old new) :
    t.processes.length = s.processes.length ∧
      (entries t.processes).length = (entries s.processes).length := by
  obtain ⟨pre, post, hl, hl'⟩ := h.place
  rw [hl, hl', entries_filled, entries_filled]
  simp only [List.length_append, List.length_cons, and_self]

theorem Enters.slots (h : Enters s t new) :
    t.processes.length = s.processes.length ∧
      (entries t.processes).length = (entries s.processes).length + 1 := by
  obtain ⟨pre, post, hl, hl'⟩ := h.place
  rw [hl, hl', entries_filled, entries_empty]
  simp only [List.length_append, List.length_cons, true_and]
  omega

theorem Enters.mem_iff (h : Enters s t new) :
    proc ∈ entries t.processes ↔ proc = new ∨ proc ∈ entries s.processes := by
  obtain ⟨pre, post, hl, hl'⟩ := h.place
  rw [hl', entries_filled, hl, entries_empty]
  simp only [List.mem_append, List.mem_cons]
  tauto

theorem Enters.pidsKept (h : Enters s t new) (hs : PidsKept s)
    (hnext : t.nextPid = s.nextPid + 1) : PidsKept t := by
  refine ⟨?_, fun p hp => ?_⟩
  · obtain ⟨pre, post, hl, hl'⟩ := h.place
    have hfresh := hs.fresh
    have hdistinct := hs.distinct
    rw [realPids, hl, entries_empty, List.map_append] at hfresh hdistinct
    rw [realPids, hl', entries_filled, List.map_append, List.map_cons, List.nodup_middle,
      List.nodup_cons, h.pid]
    exact ⟨hfresh, hdistinct⟩
  · rw [hnext]
    rcases h.mem_iff.mp hp with rfl | hold
    · rw [h.pid]
      omega
    · have hlt := hs.below p hold
      omega

theorem processRealWait_cases (s : RealProcs) (pid code : Int) :
    (∀ i proc, processRealGet s pid = some (i, proc) → proc.winHandle = false) ∧
      processRealWait s pid code = (s, -1, none) ∨
    ∃ i proc, processRealGet s pid = some (i, proc) ∧ proc.winHandle = true ∧
      processRealWait s pid code =
        (s.put i { proc with state := .zombie, exitCode := code }, 0, some code) := by
  cases hget : processRealGet s pid with
  | none =>
    refine .inl ⟨fun i proc hsome => ?_, by simp only [processRealWait, hget]⟩
    cases hsome
  | some found =>
    obtain ⟨i, proc⟩ := found
    simp only [processRealWait, hget]
    split
    · next hhandle => exact .inr ⟨i, proc, rfl, hhandle, rfl⟩
    · next hhandle =>
      refine .inl ⟨fun j p hsome => ?_, rfl⟩
      obtain ⟨rfl, rfl⟩ := Prod.mk.inj (Option.some.inj hsome)
      exact Bool.not_eq_true _ |>.mp hhandle

theorem processRealSuspend_cases (s : RealProcs) (pid : Int) :
    (processRealSuspend s pid).1 = s ∨
      ∃ i proc, processRealGet s pid = some (i, proc) ∧
        (processRealSuspend s pid).1 = s.put i { proc with state := .stopped } := by
  cases hget : processRealGet s pid with
  | none =>
    simp only [processRealSuspend, hget]
    exact .inl trivial
  | some found =>
    simp only [processRealSuspend, hget]
    split
    · exact .inr ⟨found.1, found.2, rfl, rfl⟩
    · exact .inl rfl

theorem processRealResume_cases (s : RealProcs) (pid : Int) :
    (processRealResume s pid).1 = s ∨
      ∃ i proc, processRealGet s pid = some (i, proc) ∧
        (processRealResume s pid).1 = s.put i { proc with state := .running } := by
  cases hget : processRealGet s pid with
  | none =>
    simp only [processRealResume, hget]
    exact .inl trivial
  | some found =>
    simp only [processRealResume, hget]
    split
    · exact .inr ⟨found.1, found.2, rfl, rfl⟩
    · exact .inl rfl

def killedBy (proc : RealProcess) (signal : Int) : RealProcess :=
  { proc with state := .dead, exitCode := signal, winHandle := false, winThread := false }

theorem processRealKill_cases (s : RealProcs) (pid signal : Int) :
    (processRealKill s pid signal).1 = s ∨
      (∃ i proc, processRealGet s pid = some (i, proc) ∧
        (processRealKill s pid signal).1 = removeJobOf (s.put i (killedBy proc signal)) pid) ∨
      (processRealKill s pid signal).1 = (processRealSuspend s pid).1 ∨
      (processRealKill s pid signal).1 = (processRealResume s pid).1 := by
  cases hget : processRealGet s pid with
  | none =>
    simp only [processRealKill, hget]
    exact .inl trivial
  | some found =>
    simp only [processRealKill, hget]
    split
    · exact .inl rfl
    · split
      · exact .inl rfl
      · split
        · exact .inr (.inl ⟨found.1, found.2, rfl, rfl⟩)
        · split
          · exact .inr (.inr (.inl rfl))
          · split
            · exact .inr (.inr (.inr rfl))
            · exact .inl rfl

theorem processRealSpawn_cases {args : SpawnArgs} {host : SpawnHost} {a : Int}
    {report : SpawnReport} (h : processRealSpawn s args host = some (t, a, report)) :
    (report = .noCommand ∧ args.command = none ∧ t = s) ∨
    (report = .tableFull ∧ args.command.isSome = true ∧ none ∉ s.processes ∧ t = s) ∨
    (report = .noMemory ∧ none ∈ s.processes ∧ host.memory = false ∧ t = s) ∨
    (report = .notCreated ∧ none ∈ s.processes ∧ host.created = false ∧
      t = { s with nextPid := int32 (s.nextPid + 1) }) ∨
    ∃ u proc line, report = .spawned s.nextPid ∧ Enters s u proc ∧
      startSpawned u s.nextPid line args.background host = (t, a) := by
  unfold processRealSpawn at h
  split at h
  · next hcommand =>
    obtain ⟨rfl, hpair⟩ := Prod.mk.inj (Option.some.inj h)
    obtain ⟨-, rfl⟩ := Prod.mk.inj hpair
    exact .inl ⟨rfl, hcommand, rfl⟩
  · next command hcommand =>
    split at h
    · next hfree =>
      obtain ⟨rfl, hpair⟩ := Prod.mk.inj (Option.some.inj h)
      obtain ⟨-, rfl⟩ := Prod.mk.inj hpair
      exact .inr (.inl ⟨rfl, by rw [hcommand]; rfl, firstFree_none hfree, rfl⟩)
    · next slot hfree =>
      obtain ⟨pre, post, hl, hset⟩ := firstFree_some hfree
      have hroom : none ∈ s.processes := by
        rw [hl]
        exact List.mem_append_right pre List.mem_cons_self
      split at h
      · next hmemory =>
        obtain ⟨rfl, hpair⟩ := Prod.mk.inj (Option.some.inj h)
        obtain ⟨-, rfl⟩ := Prod.mk.inj hpair
        exact .inr (.inr (.inl ⟨rfl, hroom, hmemory, rfl⟩))
      · obtain ⟨line, -, h⟩ := Option.bind_eq_some_iff.mp h
        split at h
        · next hcreated =>
          obtain ⟨rfl, hpair⟩ := Prod.mk.inj (Option.some.inj h)
          obtain ⟨-, rfl⟩ := Prod.mk.inj hpair
          exact .inr (.inr (.inr (.inl ⟨rfl, hroom, hcreated, rfl⟩)))
        · obtain ⟨rfl, hpair⟩ := Prod.mk.inj (Option.some.inj h)
          obtain ⟨rfl, rfl⟩ := Prod.mk.inj hpair
          let proc := newProcess s.nextPid command line args.background
          let u := { s with nextPid := int32 (s.nextPid + 1) }.enter slot proc
          have henters : Enters s u proc :=
            ⟨⟨pre, post, hl, hset _⟩, rfl, ⟨rfl, rfl, rfl⟩, rfl, ⟨rfl, rfl, rfl⟩⟩
          exact .inr (.inr (.inr (.inr ⟨u, proc, line, rfl, henters, rfl⟩)))

theorem processRealInit_entries : entries processRealInit.processes = [initProcess] := by
  change initProcess :: entries (List.replicate 511 none) = [initProcess]
  rw [entries_replicate_none]

theorem pidsKept_init : PidsKept processRealInit := by
  constructor
  · rw [realPids, processRealInit_entries]
    exact List.nodup_singleton _
  · intro proc hproc
    rw [processRealInit_entries] at hproc
    rw [List.mem_singleton.mp hproc]
    decide

end Lookup

end ZoraVM.System.Real

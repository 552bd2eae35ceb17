import ZoraVM.System.RealProcess

namespace ZoraVM.System.Real

open Foundation

def spawnReport (s : RealProcs) : RealCall → Option SpawnReport
  | .spawn args host => (processRealSpawn s args host).map fun done => done.2.2
  | _ => none

def SpawnReport.isSpawned : SpawnReport → Bool
  | .spawned _ => true
  | _ => false

structure RealWorld where
  procs : RealProcs
  spawned : Nat
  deriving DecidableEq, Repr

def RealWorld.step (w : RealWorld) (c : RealCall) : Option RealWorld :=
  (realCall w.procs c).map fun done =>
    ⟨done.1, w.spawned + if (spawnReport w.procs c).any SpawnReport.isSpawned then 1 else 0⟩

def RealProcess.alive (proc : RealProcess) : Bool := proc.state ≠ .zombie && proc.state ≠ .dead

def aliveSpawned (s : RealProcs) : Nat :=
  (entries s.processes).countP fun proc => proc.pid ≠ 1 && proc.alive

section Slots

variable {s t : RealProcs} {w w' : RealWorld} {c : RealCall} {a pid : Int} {old new : RealProcess}

def SameSlots (s t : RealProcs) : Prop :=
  t.processes.length = s.processes.length ∧
    (entries t.processes).length = (entries s.processes).length

theorem put_slots {i : Nat} {proc : RealProcess} (h : processRealGet s pid = some (i, proc))
    (new : RealProcess) : SameSlots s (s.put i new) := by
  obtain ⟨pre, post, hl, -, hset⟩ := findEntry_some h
  rw [SameSlots, show (s.put i new).processes = _ from hset _, hl, entries_filled, entries_filled]
  simp only [List.length_append, List.length_cons, and_self]

theorem SameSlots.refl (s : RealProcs) : SameSlots s s := ⟨rfl, rfl⟩

theorem SameSlots.trans {u : RealProcs} (h : SameSlots s t) (h' : SameSlots t u) : SameSlots s u :=
  ⟨h'.1.trans h.1, h'.2.trans h.2⟩

theorem wait_slots (s : RealProcs) (pid code : Int) :
    SameSlots s (processRealWait s pid code).1 := by
  rcases processRealWait_cases s pid code with ⟨-, hfails⟩ | ⟨i, proc, hget, -, hdone⟩
  · rw [hfails]
    exact .refl s
  · rw [hdone]
    exact put_slots hget _

theorem suspend_slots (s : RealProcs) (pid : Int) : SameSlots s (processRealSuspend s pid).1 := by
  rcases processRealSuspend_cases s pid with hsame | ⟨i, proc, hget, hdone⟩
  · rw [hsame]
    exact .refl s
  · rw [hdone]
    exact put_slots hget _

theorem resume_slots (s : RealProcs) (pid : Int) : SameSlots s (processRealResume s pid).1 := by
  rcases processRealResume_cases s pid with hsame | ⟨i, proc, hget, hdone⟩
  · rw [hsame]
    exact .refl s
  · rw [hdone]
    exact put_slots hget _

theorem removeJobOf_processes (s : RealProcs) (pid : Int) :
    (removeJobOf s pid).processes = s.processes := by
  unfold removeJobOf
  split <;> rfl

theorem kill_slots (s : RealProcs) (pid signal : Int) :
    SameSlots s (processRealKill s pid signal).1 := by
  rcases processRealKill_cases s pid signal with
    hsame | ⟨i, proc, hget, hdone⟩ | hsuspended | hresumed
  · rw [hsame]
    exact .refl s
  · rw [hdone, SameSlots, removeJobOf_processes]
    exact put_slots hget _
  · rw [hsuspended]
    exact suspend_slots s pid
  · rw [hresumed]
    exact resume_slots s pid

theorem updateStats_slots (s : RealProcs) (pid exited : Int) :
    SameSlots s (processRealUpdateStats s pid exited).1 := by
  cases hget : processRealGet s pid with
  | none =>
    simp only [processRealUpdateStats, hget]
    exact .refl s
  | some found =>
    simp only [processRealUpdateStats, hget]
    split
    · exact .refl s
    · split
      · exact put_slots hget _
      · exact .refl s

theorem jobForeground_slots (s : RealProcs) (jobId code : Int) :
    SameSlots s (jobForeground s jobId code).1 := by
  unfold jobForeground
  split
  · exact .refl s
  · split
    · exact .refl s
    · exact wait_slots s _ code

theorem jobBackground_slots (s : RealProcs) (jobId : Int) :
    SameSlots s (jobBackground s jobId).1 := by
  unfold jobBackground
  split
  · exact .refl s
  · split
    · exact .refl s
    · split
      · exact resume_slots s _
      · exact .refl s

theorem jobAdd_processes (s : RealProcs) (pid : Int) (command : Bytes) (memory : Bool) :
    (jobAdd s pid command memory).1.processes = s.processes := by
  unfold jobAdd
  split
  · rfl
  · split <;> rfl

theorem startSpawned_slots (s : RealProcs) (pid : Int) (line : Bytes) (background : Bool)
    (host : SpawnHost) : SameSlots s (startSpawned s pid line background host).1 := by
  unfold startSpawned
  split
  · rw [SameSlots, jobAdd_processes]
    exact ⟨rfl, rfl⟩
  · exact wait_slots s pid host.code

theorem spawn_slots {args : SpawnArgs} {host : SpawnHost} {report : SpawnReport}
    (h : processRealSpawn s args host = some (t, a, report)) :
    (report = .tableFull ↔ args.command.isSome = true ∧ none ∉ s.processes) ∧
      t.processes.length = s.processes.length ∧
      (entries t.processes).length =
        (entries s.processes).length + if report.isSpawned then 1 else 0 := by
  rcases processRealSpawn_cases h with ⟨rfl, hcommand, rfl⟩ | ⟨rfl, hcommand, hfull, rfl⟩ |
    ⟨rfl, hroom, -, rfl⟩ | ⟨rfl, hroom, -, rfl⟩ | ⟨u, proc, line, rfl, henters, hstarted⟩
  · refine ⟨iff_of_false SpawnReport.noConfusion fun hboth => ?_, rfl, rfl⟩
    rw [hcommand] at hboth
    cases hboth.1
  · exact ⟨iff_of_true rfl ⟨hcommand, hfull⟩, rfl, rfl⟩
  · exact ⟨iff_of_false SpawnReport.noConfusion fun hboth => hboth.2 hroom, rfl, rfl⟩
  · exact ⟨iff_of_false SpawnReport.noConfusion fun hboth => hboth.2 hroom, rfl, rfl⟩
  · obtain ⟨pre, post, hl, -⟩ := henters.place
    obtain ⟨hlength, htaken⟩ := henters.slots
    have hslots := startSpawned_slots u s.nextPid line args.background host
    rw [hstarted] at hslots
    refine ⟨iff_of_false SpawnReport.noConfusion fun hboth => hboth.2 (by rw [hl]; simp), ?_, ?_⟩
    · exact hslots.1.trans hlength
    · exact hslots.2.trans htaken

structure SlotsTaken (w : RealWorld) : Prop where
  slots : w.procs.processes.length = maxRealProcesses
  taken : (entries w.procs.processes).length = w.spawned + 1

theorem SlotsTaken.same (h : SlotsTaken w) (hsame : SameSlots w.procs t) :
    SlotsTaken ⟨t, w.spawned + 0⟩ := ⟨hsame.1.trans h.slots, hsame.2.trans h.taken⟩

theorem slotsTaken_step (h : SlotsTaken w) (hs : w.step c = some w') : SlotsTaken w' := by
  obtain ⟨⟨t, a⟩, hcall, rfl⟩ := Option.map_eq_some_iff.mp hs
  cases c with
  | spawn args host =>
    obtain ⟨⟨t', a', report⟩, hspawn, hpair⟩ := Option.map_eq_some_iff.mp hcall
    obtain ⟨rfl, rfl⟩ := Prod.mk.inj hpair
    obtain ⟨-, hlength, htaken⟩ := spawn_slots hspawn
    have hreport : spawnReport w.procs (.spawn args host) = some report := by
      rw [spawnReport, hspawn]
      rfl
    refine ⟨hlength.trans h.slots, ?_⟩
    rw [hreport, Option.any_some]
    dsimp only
    rw [htaken, h.taken]
    omega
  | wait pid code =>
    obtain rfl := (Prod.mk.inj (Option.some.inj hcall)).1
    exact h.same (wait_slots w.procs pid code)
  | kill pid signal =>
    obtain rfl := (Prod.mk.inj (Option.some.inj hcall)).1
    exact h.same (kill_slots w.procs pid signal)
  | updateStats pid exited =>
    obtain rfl := (Prod.mk.inj (Option.some.inj hcall)).1
    exact h.same (updateStats_slots w.procs pid exited)
  | jobForeground jobId code =>
    obtain rfl := (Prod.mk.inj (Option.some.inj hcall)).1
    exact h.same (jobForeground_slots w.procs jobId code)
  | jobBackground jobId =>
    obtain rfl := (Prod.mk.inj (Option.some.inj hcall)).1
    exact h.same (jobBackground_slots w.procs jobId)

theorem SlotsTaken.full_iff (h : SlotsTaken w) : none ∉ w.procs.processes ↔ 511 ≤ w.spawned := by
  have hslots := h.slots
  have htaken := h.taken
  rw [maxRealProcesses] at hslots
  constructor
  · intro hfull
    have hlength := length_entries_full hfull
    omega
  · intro hmany hroom
    have hlt := length_entries_lt hroom
    omega

def realBooted : RealWorld := ⟨processRealInit, 0⟩

theorem slotsTaken_init : SlotsTaken realBooted := by
  refine ⟨List.length_set.trans List.length_replicate, ?_⟩
  rw [realBooted, processRealInit_entries]
  rfl

theorem spawn_rejected_iff {calls : List RealCall}
    (hrun : Run RealWorld.step (fun _ _ => True) realBooted calls w) :
    ∀ args host t a report, processRealSpawn w.procs args host = some (t, a, report) →
      (report = .tableFull ↔ args.command.isSome = true ∧ 511 ≤ w.spawned) := by
  have h : SlotsTaken w := by
    exact hrun.invariant (P := SlotsTaken) slotsTaken_init fun w c w' hw _ hs => slotsTaken_step hw hs
  intro args host t a report hspawn
  rw [(spawn_slots hspawn).1, h.full_iff]

def fewAlive (w : RealWorld) : Bool := aliveSpawned w.procs < 511

def realRan (calls : List RealCall) : RealWorld :=
  (exec (guarded RealWorld.step fun w _ => fewAlive w) realBooted calls).getD realBooted

theorem realRan_run {calls : List RealCall}
    (h : (exec (guarded RealWorld.step fun w _ => fewAlive w) realBooted calls).isSome = true) :
    Run RealWorld.step (fun w _ => fewAlive w = true) realBooted calls (realRan calls) :=
  Run.of_exec_isSome h

def foregroundCommand : RealCall := .spawn ⟨some (str "cmd"), [], false⟩ ⟨true, true, true, 0⟩

def startedAndKilled : List RealCall :=
  [foregroundCommand, .spawn ⟨some (str "ping"), [some (str "-t")], true⟩ ⟨true, true, true, 0⟩, .kill 3 9]

def catArgs : SpawnArgs := ⟨some (str "cat"), [], true⟩

theorem spawn_rejected_iff_started :
    ∃ t a report, processRealSpawn (realRan startedAndKilled).procs catArgs ⟨true, true, true, 0⟩ =
        some (t, a, report) ∧
      (report = .tableFull ↔
        catArgs.command.isSome = true ∧ 511 ≤ (realRan startedAndKilled).spawned) := by
  have hdone : (processRealSpawn (realRan startedAndKilled).procs catArgs
      ⟨true, true, true, 0⟩).isSome = true := by decide +kernel
  obtain ⟨⟨t, a, report⟩, hspawn⟩ := Option.isSome_iff_exists.mp hdone
  have hrun : Run RealWorld.step (fun w _ => fewAlive w = true) realBooted startedAndKilled
      (realRan startedAndKilled) := realRan_run (by decide +kernel)
  exact ⟨t, a, report, hspawn,
    spawn_rejected_iff (hrun.mono fun _ _ _ => trivial) _ _ _ _ _ hspawn⟩

structure Idle (w : RealWorld) : Prop where
  slots : SlotsTaken w
  next : w.procs.nextPid = w.spawned + 2
  pids : PidsKept w.procs
  gone : ∀ proc ∈ entries w.procs.processes, proc.pid ≠ 1 → proc.alive = false

theorem Idle.fewAlive (h : Idle w) : fewAlive w = true := by
  have hnone : aliveSpawned w.procs = 0 := by
    rw [aliveSpawned, List.countP_eq_zero]
    intro proc hmem hcounted
    obtain ⟨hpid, halive⟩ := Bool.and_eq_true_iff.mp hcounted
    rw [h.gone proc hmem (of_decide_eq_true hpid)] at halive
    cases halive
  rw [Real.fewAlive, hnone]
  rfl

theorem foreground_spawns (s : RealProcs) : ∃ t a report, processRealSpawn s
    ⟨some (str "cmd"), [], false⟩ ⟨true, true, true, 0⟩ = some (t, a, report) := by
  have hline : commandLine (str "cmd") [] = some (clip 4096 (str "\"cmd\"")) := by decide +kernel
  cases hfree : firstFree s.processes with
  | none =>
    simp only [processRealSpawn, hfree]
    exact ⟨_, _, _, rfl⟩
  | some slot =>
    simp only [processRealSpawn, hfree, hline]
    exact ⟨_, _, _, rfl⟩

theorem wait_entered {u : RealProcs} {proc : RealProcess} (h : Enters s u proc) (hu : PidsKept u)
    (code : Int) : Swaps u (processRealWait u s.nextPid code).1 proc
      { proc with state := .zombie, exitCode := code } := by
  have hproc : proc ∈ entries u.processes := h.mem_iff.mpr (.inl rfl)
  rcases processRealWait_cases u s.nextPid code with ⟨hnone, -⟩ | ⟨i, p, hget, -, hdone⟩
  · cases hget : processRealGet u s.nextPid with
    | none => exact absurd h.pid (processRealGet_none_iff.mp hget proc hproc)
    | some found =>
      obtain ⟨i, p⟩ := found
      obtain ⟨hpid, hp⟩ := processRealGet_some hget
      obtain rfl := hu.eq_of_pid hproc hp (hpid.trans h.pid.symm)
      have hhandle := hnone i p hget
      rw [h.fresh.2.1] at hhandle
      cases hhandle
  · obtain ⟨hpid, hp⟩ := processRealGet_some hget
    obtain rfl := hu.eq_of_pid hproc hp (hpid.trans h.pid.symm)
    rw [hdone]
    exact put_swaps hget rfl

theorem idle_step (h : Idle w) (hroom : w.spawned < 511) :
    ∃ w', w.step foregroundCommand = some w' ∧ Idle w' ∧ w'.spawned = w.spawned + 1 := by
  obtain ⟨t, a, report, hspawn⟩ := foreground_spawns w.procs
  have hfree : none ∈ w.procs.processes := by
    by_contra hfull
    have hmany := h.slots.full_iff.mp hfull
    omega
  rcases processRealSpawn_cases hspawn with ⟨-, hcommand, -⟩ | ⟨-, -, hfull, -⟩ |
    ⟨-, -, hmemory, -⟩ | ⟨-, -, hcreated, -⟩ | ⟨u, proc, line, rfl, henters, hstarted⟩
  · cases hcommand
  · exact absurd hfree hfull
  · cases hmemory
  · cases hcreated
  · have hreport : spawnReport w.procs foregroundCommand = some (.spawned w.procs.nextPid) := by
      rw [foregroundCommand, spawnReport, hspawn]
      rfl
    have hstep : w.step foregroundCommand = some ⟨t, w.spawned + 1⟩ := by
      rw [RealWorld.step, hreport, foregroundCommand, realCall, hspawn]
      rfl
    have hnow := h.next
    have hnext : u.nextPid = w.procs.nextPid + 1 := by
      rw [henters.next]
      exact Int.bmod_eq_of_le (by omega) (by omega)
    have hu := henters.pidsKept h.pids hnext
    have hwait := wait_entered henters hu 0
    rw [show (processRealWait u w.procs.nextPid 0).1 = t from (Prod.mk.inj hstarted).1] at hwait
    refine ⟨_, hstep, ⟨slotsTaken_step h.slots hstep, ?_, hwait.pidsKept hu, fun p hp hinit => ?_⟩, rfl⟩
    · have hsame := hwait.next
      dsimp only
      omega
    · rcases (hwait.mem_iff hu).mp hp with rfl | ⟨hmem, hpid⟩
      · rfl
      · rcases henters.mem_iff.mp hmem with rfl | hold
        · exact absurd rfl hpid
        · exact h.gone p hold hinit

theorem dead_fill (n : Nat) (hn : n ≤ 511) : ∃ calls w,
    Run RealWorld.step (fun w _ => fewAlive w = true) realBooted calls w ∧ Idle w ∧ w.spawned = n := by
  induction n with
  | zero =>
    refine ⟨[], realBooted, .start, ⟨slotsTaken_init, rfl, pidsKept_init, ?_⟩, rfl⟩
    intro proc hproc hpid
    rw [realBooted, processRealInit_entries] at hproc
    rw [List.mem_singleton.mp hproc] at hpid
    exact absurd rfl hpid
  | succ n ih =>
    obtain ⟨calls, w, hrun, hidle, hspawned⟩ := ih (by omega)
    obtain ⟨w', hstep, hidle', hspawned'⟩ := idle_step hidle (by omega)
    exact ⟨calls ++ [foregroundCommand], w', .call hrun hidle.fewAlive hstep, hidle', by omega⟩

theorem table_fills_with_the_dead : ¬ ∀ (calls : List RealCall) (w : RealWorld),
    Run RealWorld.step (fun w _ => fewAlive w = true) realBooted calls w → fewAlive w = true →
      ∀ args host t a report, processRealSpawn w.procs args host = some (t, a, report) →
        report ≠ .tableFull := by
  intro hall
  obtain ⟨calls, w, hrun, hidle, hspawned⟩ := dead_fill 511 (Nat.le_refl _)
  obtain ⟨t, a, report, hspawn⟩ := foreground_spawns w.procs
  refine hall calls w hrun hidle.fewAlive _ _ t a report hspawn ?_
  exact (spawn_slots hspawn).1.mpr ⟨rfl, hidle.slots.full_iff.mpr (by omega)⟩

end Slots

end ZoraVM.System.Real

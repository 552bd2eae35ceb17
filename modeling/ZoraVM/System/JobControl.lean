import ZoraVM.System.RealProcess

namespace ZoraVM.System.Real

open Foundation

def RealProcess.terminated (proc : RealProcess) : Prop := proc.state = .zombie ∨ proc.state = .dead

structure JobsReflect (s : RealProcs) : Prop where
  live : ∀ job ∈ entries s.jobs, ∀ proc ∈ entries s.processes, proc.pid = job.pid → ¬ proc.terminated
  counted : s.jobCount = (entries s.jobs).length

def BackgroundRuns (s : RealProcs) (c : RealCall) (t : RealProcs) (a : Int) : Prop :=
  ∀ jobId, c = .jobBackground jobId → a = 0 → ∀ i job, jobGetById s jobId = some (i, job) →
    ∀ j proc, processRealGet t job.pid = some (j, proc) → proc.state = .running

def jobControlCall : RealCall → Bool
  | .spawn args host => args.background && host.created
  | .kill .. | .jobForeground .. | .jobBackground _ => true
  | _ => false

def jobsFollow (s : RealProcs) : RealCall → Bool
  | .jobForeground jobId _ =>
    (jobGetById s jobId).all fun found => (processRealGet s found.2.pid).isNone
  | .jobBackground jobId =>
    (jobGetById s jobId).all fun found =>
      (processRealGet s found.2.pid).all fun running => running.2.state = .running
  | _ => true

section Jobs

variable {s t u : RealProcs} {c : RealCall} {a pid : Int} {old new proc : RealProcess}
variable {job : BackgroundJob}

theorem not_terminated (h : proc.state = .running ∨ proc.state = .stopped) : ¬ proc.terminated := by
  rintro (hzombie | hdead)
  · rw [hzombie] at h
    rcases h with h | h <;> cases h
  · rw [hdead] at h
    rcases h with h | h <;> cases h

def jobPids (s : RealProcs) : List Int := (entries s.jobs).map BackgroundJob.pid

structure Follows (s : RealProcs) (job : BackgroundJob) : Prop where
  notStopped : job.isStopped = false
  spawned : job.pid ≠ 1
  process : ∃ proc ∈ entries s.processes, proc.pid = job.pid ∧ ¬ proc.terminated ∧
    proc.winHandle = true ∧ proc.winThread = true

structure JobsKept (s : RealProcs) : Prop where
  slots : s.processes.length = maxRealProcesses
  nonempty : 0 < (entries s.processes).length
  next : s.nextPid = (entries s.processes).length + 1
  pids : PidsKept s
  distinct : (jobPids s).Nodup
  follows : ∀ job ∈ entries s.jobs, Follows s job
  counted : s.jobCount = (entries s.jobs).length

theorem JobsKept.reflect (h : JobsKept s) : JobsReflect s := by
  refine ⟨fun job hjob proc hproc hpid => ?_, h.counted⟩
  obtain ⟨p, hp, hsame, halive, -, -⟩ := (h.follows job hjob).process
  obtain rfl := h.pids.eq_of_pid hproc hp (hsame.trans hpid.symm)
  exact halive

theorem jobsKept_init : JobsKept processRealInit := by
  have hnone : entries processRealInit.jobs = [] := entries_replicate_none 512
  refine ⟨List.length_set.trans List.length_replicate, ?_, ?_, pidsKept_init, ?_, ?_, ?_⟩
  · rw [processRealInit_entries]
    decide
  · rw [processRealInit_entries]
    rfl
  · rw [jobPids, hnone]
    exact List.nodup_nil
  · rw [hnone]
    exact fun job hjob => absurd hjob List.not_mem_nil
  · rw [hnone]
    rfl

theorem JobsKept.swaps (h : JobsKept s) (hswaps : Swaps s t old new) (hjobs : t.jobs = s.jobs)
    (hcount : t.jobCount = s.jobCount)
    (hnew : (∃ job ∈ entries s.jobs, job.pid = old.pid) →
      ¬ new.terminated ∧ new.winHandle = true ∧ new.winThread = true) : JobsKept t := by
  obtain ⟨hslots, hlength⟩ := hswaps.slots
  refine ⟨hslots.trans h.slots, hlength ▸ h.nonempty, ?_, hswaps.pidsKept h.pids, ?_, ?_, ?_⟩
  · rw [hswaps.next, h.next, hlength]
  · rw [jobPids, hjobs]
    exact h.distinct
  · rw [hjobs]
    intro job hjob
    obtain ⟨hstopped, hspawned, p, hp, hpid, hrest⟩ := h.follows job hjob
    refine ⟨hstopped, hspawned, ?_⟩
    by_cases hsame : p.pid = old.pid
    · exact ⟨new, hswaps.new_mem, hswaps.pid.trans (hsame.symm.trans hpid),
        hnew ⟨job, hjob, hpid.symm.trans hsame⟩⟩
    · exact ⟨p, (hswaps.mem_iff h.pids).mpr (.inr ⟨hp, hsame⟩), hpid, hrest⟩
  · rw [hcount, hjobs]
    exact h.counted

theorem JobsKept.process_of (h : JobsKept s) (hjob : job ∈ entries s.jobs)
    (hproc : proc ∈ entries s.processes) (hpid : proc.pid = job.pid) :
    ¬ proc.terminated ∧ proc.winHandle = true ∧ proc.winThread = true := by
  obtain ⟨-, -, p, hp, hsame, hrest⟩ := h.follows job hjob
  obtain rfl := h.pids.eq_of_pid hproc hp (hsame.trans hpid.symm)
  exact hrest

theorem removeJobOf_cases (s : RealProcs) (pid : Int) :
    ((∀ job ∈ entries s.jobs, job.pid ≠ pid) ∧ removeJobOf s pid = s) ∨
    ∃ pre job post, s.jobs = pre ++ some job :: post ∧ job.pid = pid ∧
      removeJobOf s pid = { s with jobs := pre ++ none :: post, jobCount := s.jobCount - 1 } := by
  unfold removeJobOf
  split
  · next hnone =>
    refine .inl ⟨fun job hjob => ?_, rfl⟩
    exact of_decide_eq_false (findEntry_none_iff.mp hnone job hjob)
  · next i job hfound =>
    obtain ⟨pre, post, hl, hpid, hset⟩ := findEntry_some hfound
    exact .inr ⟨pre, job, post, hl, of_decide_eq_true hpid, by rw [hset]⟩

theorem JobsKept.removeJobOf (h : JobsKept s) (pid : Int) : JobsKept (removeJobOf s pid) ∧
    ∀ job ∈ entries (Real.removeJobOf s pid).jobs, job.pid ≠ pid := by
  rcases removeJobOf_cases s pid with ⟨hnone, hsame⟩ | ⟨pre, job, post, hl, hpid, hdone⟩
  · rw [hsame]
    exact ⟨h, hnone⟩
  · have hdistinct := h.distinct
    have hcounted := h.counted
    rw [jobPids, hl, entries_filled, List.map_append, List.map_cons, List.nodup_middle,
      List.nodup_cons, ← List.map_append, hpid] at hdistinct
    rw [hl, entries_filled, List.length_append, List.length_cons] at hcounted
    rw [hdone]
    refine ⟨⟨h.slots, h.nonempty, h.next, ⟨h.pids.distinct, h.pids.below⟩, ?_, ?_, ?_⟩, ?_⟩
    · rw [jobPids, entries_empty]
      exact hdistinct.2
    · rw [entries_empty]
      intro other hother
      have hmem : other ∈ entries s.jobs := by
        rw [hl, entries_filled]
        exact List.mem_append.mpr ((List.mem_append.mp hother).imp_right (List.mem_cons_of_mem _))
      obtain ⟨hstopped, hspawned, hprocess⟩ := h.follows other hmem
      exact ⟨hstopped, hspawned, hprocess⟩
    · rw [entries_empty, List.length_append]
      dsimp only
      push_cast at hcounted ⊢
      omega
    · rw [entries_empty]
      intro other hother hsame
      exact hdistinct.1 (List.mem_map.mpr ⟨other, hother, hsame⟩)

theorem JobsKept.enters (h : JobsKept s) (henters : Enters s u proc) : JobsKept u := by
  obtain ⟨hlength, htaken⟩ := henters.slots
  have hnext := h.next
  have hlt : (entries s.processes).length < 512 := by
    obtain ⟨pre, post, hl, -⟩ := henters.place
    have hslots := h.slots
    rw [maxRealProcesses] at hslots
    have hroom := length_entries_lt (l := s.processes) (by rw [hl]; simp)
    omega
  have hnew : u.nextPid = s.nextPid + 1 := by
    rw [henters.next]
    exact Int.bmod_eq_of_le (by omega) (by omega)
  have hpids := henters.pidsKept h.pids hnew
  refine ⟨hlength.trans h.slots, List.length_pos_of_mem (henters.mem_iff.mpr (.inl rfl)), ?_, hpids,
    ?_, ?_, ?_⟩
  · rw [hnew, hnext, htaken]
    push_cast
    omega
  · rw [jobPids, henters.jobs.1]
    exact h.distinct
  · rw [henters.jobs.1]
    intro job hjob
    obtain ⟨hstopped, hspawned, p, hp, hrest⟩ := h.follows job hjob
    exact ⟨hstopped, hspawned, p, henters.mem_iff.mpr (.inr hp), hrest⟩
  · rw [henters.jobs.1, henters.jobs.2.1]
    exact h.counted

theorem jobAdd_cases (s : RealProcs) (pid : Int) (command : Bytes) (memory : Bool) :
    (jobAdd s pid command memory).1 = s ∨
    ∃ pre post, s.jobs = pre ++ none :: post ∧ (jobAdd s pid command memory).1 =
      { s with
        jobs := pre ++ some ⟨s.nextJobId, pid, clip maxProcessArgs command, false⟩ :: post
        jobCount := s.jobCount + 1
        nextJobId := int32 (s.nextJobId + 1) } := by
  unfold jobAdd
  split
  · exact .inl rfl
  · next i hfree =>
    obtain ⟨pre, post, hl, hset⟩ := firstFree_some hfree
    split
    · exact .inr ⟨pre, post, hl, by rw [← hset]⟩
    · exact .inl rfl

theorem JobsKept.jobAdd (h : JobsKept s) (hproc : proc ∈ entries s.processes)
    (hlive : ¬ proc.terminated ∧ proc.winHandle = true ∧ proc.winThread = true)
    (hspawned : proc.pid ≠ 1) (hfresh : proc.pid ∉ jobPids s) (command : Bytes) (memory : Bool) :
    JobsKept (jobAdd s proc.pid command memory).1 := by
  rcases jobAdd_cases s proc.pid command memory with hsame | ⟨pre, post, hl, hdone⟩
  · rw [hsame]
    exact h
  · have hdistinct := h.distinct
    have hcounted := h.counted
    rw [jobPids, hl, entries_empty, List.map_append] at hdistinct hfresh
    rw [hl, entries_empty, List.length_append] at hcounted
    rw [hdone]
    refine ⟨h.slots, h.nonempty, h.next, ⟨h.pids.distinct, h.pids.below⟩, ?_, ?_, ?_⟩
    · rw [jobPids, entries_filled, List.map_append, List.map_cons, List.nodup_middle,
        List.nodup_cons]
      exact ⟨hfresh, hdistinct⟩
    · rw [entries_filled]
      intro job hjob
      rcases List.mem_append.mp hjob with hpre | hjob
      · obtain ⟨hstopped, hother, hprocess⟩ := h.follows job (by rw [hl, entries_empty]; simp [hpre])
        exact ⟨hstopped, hother, hprocess⟩
      · rcases List.mem_cons.mp hjob with rfl | hpost
        · exact ⟨rfl, hspawned, proc, hproc, rfl, hlive⟩
        · obtain ⟨hstopped, hother, hprocess⟩ :=
            h.follows job (by rw [hl, entries_empty]; simp [hpost])
          exact ⟨hstopped, hother, hprocess⟩
    · rw [entries_filled, List.length_append, List.length_cons]
      dsimp only
      push_cast at hcounted ⊢
      omega

theorem JobsKept.fresh (h : JobsKept s) : s.nextPid ≠ 1 ∧ s.nextPid ∉ jobPids s := by
  constructor
  · have hnext := h.next
    have hpos := h.nonempty
    omega
  · intro hmem
    obtain ⟨job, hjob, hpid⟩ := List.mem_map.mp hmem
    obtain ⟨-, -, p, hp, hsame, -⟩ := h.follows job hjob
    have hlt := h.pids.below p hp
    omega

theorem spawn_jobsKept (h : JobsKept s) {args : SpawnArgs} {host : SpawnHost}
    {report : SpawnReport} (hbackground : args.background = true) (hcreated : host.created = true)
    (hspawn : processRealSpawn s args host = some (t, a, report)) : JobsKept t := by
  rcases processRealSpawn_cases hspawn with ⟨-, -, rfl⟩ | ⟨-, -, -, rfl⟩ | ⟨-, -, -, rfl⟩ |
    ⟨-, -, hfailed, -⟩ | ⟨u, proc, line, -, henters, hstarted⟩
  · exact h
  · exact h
  · exact h
  · rw [hcreated] at hfailed
    cases hfailed
  · obtain ⟨hne, hfresh⟩ := h.fresh
    rw [← henters.pid] at hne hfresh hstarted
    have hstate : ¬ proc.terminated := not_terminated (.inl henters.fresh.1)
    have hadded := (h.enters henters).jobAdd (henters.mem_iff.mpr (.inl rfl))
      ⟨hstate, henters.fresh.2⟩ hne (by rw [jobPids, henters.jobs.1]; exact hfresh) line host.jobMemory
    rw [startSpawned, if_pos hbackground] at hstarted
    rw [← (Prod.mk.inj hstarted).1]
    exact hadded

theorem JobsKept.put (h : JobsKept s) {i : Nat} (hget : processRealGet s pid = some (i, old))
    {state : RealProcessState} (hstate : state = .running ∨ state = .stopped) :
    JobsKept (s.put i { old with state := state }) := by
  refine h.swaps (put_swaps hget rfl) rfl rfl ?_
  rintro ⟨job, hjob, hpid⟩
  obtain ⟨-, hhandles⟩ := h.process_of hjob (processRealGet_some hget).2 hpid.symm
  exact ⟨not_terminated hstate, hhandles⟩

theorem suspend_jobsKept (h : JobsKept s) (pid : Int) : JobsKept (processRealSuspend s pid).1 := by
  rcases processRealSuspend_cases s pid with hsame | ⟨i, proc, hget, hdone⟩
  · rw [hsame]
    exact h
  · rw [hdone]
    exact h.put hget (.inr rfl)

theorem resume_jobsKept (h : JobsKept s) (pid : Int) : JobsKept (processRealResume s pid).1 := by
  rcases processRealResume_cases s pid with hsame | ⟨i, proc, hget, hdone⟩
  · rw [hsame]
    exact h
  · rw [hdone]
    exact h.put hget (.inl rfl)

theorem removeJobOf_put (s : RealProcs) (i : Nat) (new : RealProcess) (pid : Int) :
    removeJobOf (s.put i new) pid = (removeJobOf s pid).put i new := by
  have hjobs : (s.put i new).jobs = s.jobs := rfl
  unfold removeJobOf
  rw [hjobs]
  cases findEntry s.jobs fun job => job.pid = pid with
  | none => rfl
  | some found => rfl

theorem processRealGet_removeJobOf (s : RealProcs) (pid other : Int) :
    processRealGet (removeJobOf s pid) other = processRealGet s other := by
  unfold removeJobOf
  split <;> rfl

theorem kill_jobsKept (h : JobsKept s) (pid signal : Int) :
    JobsKept (processRealKill s pid signal).1 := by
  rcases processRealKill_cases s pid signal with
    hsame | ⟨i, proc, hget, hdone⟩ | hsuspended | hresumed
  · rw [hsame]
    exact h
  · obtain ⟨hkept, hgone⟩ := h.removeJobOf pid
    have hswaps : Swaps (removeJobOf s pid) ((removeJobOf s pid).put i (killedBy proc signal)) proc
        (killedBy proc signal) := by
      rw [← processRealGet_removeJobOf s pid] at hget
      exact put_swaps hget rfl
    rw [hdone, removeJobOf_put]
    refine hkept.swaps hswaps rfl rfl ?_
    rintro ⟨job, hjob, hpid⟩
    exact absurd (hpid.trans (processRealGet_some hget).1) (hgone job hjob)
  · rw [hsuspended]
    exact suspend_jobsKept h pid
  · rw [hresumed]
    exact resume_jobsKept h pid

theorem foreground_follow_iff (h : JobsKept s) (jobId code : Int) :
    (jobsFollow s (.jobForeground jobId code) = true ∧ (jobForeground s jobId code).1 = s) ∨
      jobsFollow s (.jobForeground jobId code) = false ∧
        ¬ JobsReflect (jobForeground s jobId code).1 := by
  cases hfound : jobGetById s jobId with
  | none =>
    exact .inl ⟨by simp only [jobsFollow, hfound, Option.all_none],
      by simp only [jobForeground, hfound]⟩
  | some found =>
    obtain ⟨k, job⟩ := found
    have hjob : job ∈ entries s.jobs := findEntry_mem hfound
    cases hget : processRealGet s job.pid with
    | none =>
      exact .inl ⟨by simp only [jobsFollow, hfound, hget, Option.all_some, Option.isNone_none],
        by simp only [jobForeground, hfound, hget]⟩
    | some running =>
      obtain ⟨i, proc⟩ := running
      obtain ⟨hpid, hproc⟩ := processRealGet_some hget
      obtain ⟨-, hhandle, -⟩ := h.process_of hjob hproc hpid
      simp only [jobsFollow, jobForeground, hfound, hget, Option.all_some]
      refine .inr ⟨rfl, fun hreflect => ?_⟩
      simp only [processRealWait, hget, hhandle, if_true] at hreflect
      refine hreflect.live job hjob _ (put_swaps hget ?_).new_mem hpid (.inl rfl)
      rfl

theorem background_follow (h : JobsKept s) (jobId : Int) :
    (jobBackground s jobId).1 = s ∧
      (BackgroundRuns s (.jobBackground jobId) s (jobBackground s jobId).2 ↔
        jobsFollow s (.jobBackground jobId) = true) := by
  cases hfound : jobGetById s jobId with
  | none =>
    simp only [jobsFollow, jobBackground, hfound, Option.all_none]
    refine ⟨trivial, iff_of_true (fun id hid _ i job hget => ?_) trivial⟩
    obtain rfl := RealCall.jobBackground.inj hid
    rw [hfound] at hget
    cases hget
  | some found =>
    obtain ⟨k, job⟩ := found
    have hstopped := (h.follows job (findEntry_mem hfound)).notStopped
    cases hget : processRealGet s job.pid with
    | none =>
      simp only [jobsFollow, jobBackground, hfound, hget, Option.all_some, Option.all_none]
      exact ⟨trivial, iff_of_true (fun _ _ hzero => by cases hzero) trivial⟩
    | some running =>
      obtain ⟨i, proc⟩ := running
      simp only [jobsFollow, jobBackground, hfound, hget, hstopped, Option.all_some,
        Bool.false_eq_true, if_false, decide_eq_true_eq]
      refine ⟨trivial, fun hruns => hruns jobId rfl rfl k job hfound i proc hget, ?_⟩
      intro hrunning id hid _ k' job' hfound' j p hp
      obtain rfl := RealCall.jobBackground.inj hid
      obtain ⟨rfl, rfl⟩ := Prod.mk.inj (Option.some.inj (hfound.symm.trans hfound'))
      obtain ⟨rfl, rfl⟩ := Prod.mk.inj (Option.some.inj (hget.symm.trans hp))
      exact hrunning

theorem control_call (h : JobsKept s) (hcontrol : jobControlCall c = true)
    (hcall : realCall s c = some (t, a)) :
    (jobsFollow s c = true → JobsKept t) ∧
      (JobsReflect t ∧ BackgroundRuns s c t a ↔ jobsFollow s c = true) := by
  cases c with
  | spawn args host =>
    obtain ⟨⟨t', a', report⟩, hspawn, hpair⟩ := Option.map_eq_some_iff.mp hcall
    obtain ⟨rfl, rfl⟩ := Prod.mk.inj hpair
    obtain ⟨hbackground, hcreated⟩ := Bool.and_eq_true_iff.mp hcontrol
    have hkept := spawn_jobsKept h hbackground hcreated hspawn
    exact ⟨fun _ => hkept, iff_of_true ⟨hkept.reflect, fun _ hc => by cases hc⟩ rfl⟩
  | wait pid code => cases hcontrol
  | updateStats pid exited => cases hcontrol
  | kill pid signal =>
    have hkept := kill_jobsKept h pid signal
    rw [(Option.some.inj hcall : processRealKill s pid signal = (t, a))] at hkept
    exact ⟨fun _ => hkept, iff_of_true ⟨hkept.reflect, fun _ hc => by cases hc⟩ rfl⟩
  | jobForeground jobId code =>
    have hdone : Real.jobForeground s jobId code = (t, a) := Option.some.inj hcall
    rcases foreground_follow_iff h jobId code with ⟨hfollow, hsame⟩ | ⟨hnot, hbroken⟩
    · obtain rfl : t = s := by
        rw [hdone] at hsame
        exact hsame
      exact ⟨fun _ => h, iff_of_true ⟨h.reflect, fun _ hc => by cases hc⟩ hfollow⟩
    · rw [hdone] at hbroken
      rw [hnot]
      refine ⟨fun hc => ?_, iff_of_false (fun hboth => hbroken hboth.1) Bool.false_ne_true⟩
      cases hc
  | jobBackground jobId =>
    have hdone : Real.jobBackground s jobId = (t, a) := Option.some.inj hcall
    obtain ⟨hsame, hruns⟩ := background_follow h jobId
    rw [hdone] at hsame hruns
    obtain rfl : t = s := hsame
    exact ⟨fun _ => h, (and_iff_right h.reflect).trans hruns⟩

theorem run_jobsKept {calls : List RealCall}
    (hrun : RealRun (fun s c => jobControlCall c && jobsFollow s c) calls s) : JobsKept s := by
  refine hrun.invariant (P := JobsKept) jobsKept_init fun s c s' hs hallowed hstep => ?_
  obtain ⟨⟨t, a⟩, hcall, rfl⟩ := Option.map_eq_some_iff.mp hstep
  obtain ⟨hcontrol, hfollow⟩ := Bool.and_eq_true_iff.mp hallowed
  exact (control_call hs hcontrol hcall).1 hfollow

theorem job_control_reflects {calls : List RealCall}
    (hrun : RealRun (fun s c => jobControlCall c && jobsFollow s c) calls s) :
    JobsReflect s ∧ ∀ c t a, jobControlCall c = true → realCall s c = some (t, a) →
      (JobsReflect t ∧ BackgroundRuns s c t a ↔ jobsFollow s c = true) := by
  have h := run_jobsKept hrun
  exact ⟨h.reflect, fun c t a hcontrol hcall => (control_call h hcontrol hcall).2⟩

def controlRan (calls : List RealCall) : RealProcs :=
  (exec (guarded (fun s c => (realCall s c).map Prod.fst) fun s c =>
    jobControlCall c && jobsFollow s c) processRealInit calls).getD processRealInit

theorem controlRan_run (calls : List RealCall)
    (h : (exec (guarded (fun s c => (realCall s c).map Prod.fst) fun s c =>
      jobControlCall c && jobsFollow s c) processRealInit calls).isSome = true) :
    RealRun (fun s c => jobControlCall c && jobsFollow s c) calls (controlRan calls) :=
  Run.of_exec_isSome h

def pingInBackground : RealCall :=
  .spawn ⟨some (str "ping"), [some (str "-t"), some (str "10.0.2.1")], true⟩ ⟨true, true, true, 0⟩

def stoppedAndKilled : List RealCall :=
  [pingInBackground, pingInBackground, .kill 2 19, .kill 2 18, .jobBackground 1, .kill 3 15]

theorem job_control_reflects_ping :
    JobsReflect (controlRan stoppedAndKilled) ∧ ∀ c t a, jobControlCall c = true →
      realCall (controlRan stoppedAndKilled) c = some (t, a) →
        (JobsReflect t ∧ BackgroundRuns (controlRan stoppedAndKilled) c t a ↔
          jobsFollow (controlRan stoppedAndKilled) c = true) :=
  job_control_reflects (controlRan_run stoppedAndKilled (by decide +kernel))

theorem jobs_left_behind :
    (¬ ∀ (calls : List RealCall) (s : RealProcs) (jobId : Int),
      RealRun (fun _ c => jobControlCall c) calls s →
        BackgroundRuns s (.jobBackground jobId) (jobBackground s jobId).1 (jobBackground s jobId).2) ∧
    ¬ ∀ (calls : List RealCall) (s : RealProcs), RealRun (fun _ c => jobControlCall c) calls s →
      JobsReflect s := by
  have hcontrols : ∀ s c, (jobControlCall c && jobsFollow s c) = true → jobControlCall c = true :=
    fun s c hboth => (Bool.and_eq_true_iff.mp hboth).1
  constructor
  · intro hall
    have hrun := controlRan_run [pingInBackground, .kill 2 19] (by decide +kernel)
    have hruns := hall _ _ 1 (hrun.mono hcontrols)
    obtain ⟨hsame, hiff⟩ := background_follow (run_jobsKept hrun) 1
    rw [hsame] at hruns
    exact absurd (hiff.mp hruns) (by decide +kernel)
  · intro hall
    have hrun := controlRan_run [pingInBackground] (by decide +kernel)
    have hafter := hall _ _ (.call (i := .jobForeground 1 0) (hrun.mono hcontrols) rfl rfl)
    rcases foreground_follow_iff (run_jobsKept hrun) 1 0 with ⟨hfollow, -⟩ | ⟨-, hbroken⟩
    · exact absurd hfollow (by decide +kernel)
    · exact hbroken hafter

end Jobs

end ZoraVM.System.Real

import ZoraVM.Kernel.Interrupts
import ZoraVM.Kernel.SchedulerPlaces

namespace ZoraVM.Kernel

open Foundation

variable {s : SchedulerState} {k : KernelState} {g : Scheduler}

def nextProcess (g : Scheduler) : Option Nat := (schedulerPickNextProcess g).1.or g.idleProcess

def switchesToUser (s : SchedulerState) : Bool :=
  s.gSchedulerInitialized && s.gScheduler.schedulingEnabled &&
    match nextProcess s.gScheduler with
    | none => false
    | some p => decide (s.gScheduler.currentProcess ≠ some p) && decide ((s.processes p).pid > 0)

def timerSwitchesToUser (s : SchedulerState) : Bool :=
  decide (s.gScheduler.currentQuantumRemaining ≤ 1) && s.gScheduler.preemptionEnabled &&
    switchesToUser s

theorem requeueOld_privilege (s : SchedulerState) (old : Option Nat) :
    (requeueOld s old).gPrivilegeContext = s.gPrivilegeContext := by
  cases old with
  | none => rfl
  | some p =>
    by_cases hr : (s.processes p).state = .running <;>
      simp [requeueOld, hr, schedulerEnqueueReady, withScheduler, setProcessState]

theorem setProcessState_pid (s : SchedulerState) (p : Nat) (st : ProcessState) (q : Nat) :
    ((setProcessState s p st).processes q).pid = (s.processes q).pid := by
  by_cases hq : q = p
  · subst hq
    simp [setProcessState]
  · simp [setProcessState, hq]

theorem requeueOld_pid (s : SchedulerState) (old : Option Nat) (q : Nat) :
    ((requeueOld s old).processes q).pid = (s.processes q).pid := by
  cases old with
  | none => rfl
  | some p =>
    by_cases hr : (s.processes p).state = .running
    · simp [requeueOld, hr, schedulerEnqueueReady, withScheduler, setProcessState_pid]
    · simp [requeueOld, hr]

theorem switchTo_privilege (s : SchedulerState) (old : Option Nat) (p : Nat) :
    (switchTo s old (some p)).gPrivilegeContext =
      if (s.processes p).pid > 0 then privilegeEnterUserMode s.gPrivilegeContext
      else s.gPrivilegeContext := by
  have hpid := setProcessState_pid s p .running p
  unfold switchTo schedulerContextSwitch
  dsimp only [withScheduler] at hpid ⊢
  rw [hpid]
  split <;> rfl

theorem inUserMode_schedule (hk : s.gPrivilegeContext.currentLevel = privilegeKernel) :
    InUserMode (schedulerSchedule s).gPrivilegeContext ↔ switchesToUser s = true := by
  have hkernel : privilegeEnterKernelMode s.gPrivilegeContext = s.gPrivilegeContext := if_pos hk
  by_cases hgo : s.gSchedulerInitialized = true ∧ s.gScheduler.schedulingEnabled = true
  · obtain ⟨hi, he⟩ := hgo
    have hidle : (schedulerPickNextProcess s.gScheduler).1.or s.gScheduler.idleProcess =
        nextProcess s.gScheduler := rfl
    have hpick : (schedulerPickNextProcess s.gScheduler).2.idleProcess =
        s.gScheduler.idleProcess := by
      unfold schedulerPickNextProcess
      split <;> rfl
    simp only [schedulerSchedule, hi, he, hkernel, hpick, hidle, switchesToUser]
    cases hn : nextProcess s.gScheduler with
    | none =>
      by_cases hcur : none = s.gScheduler.currentProcess
      · simp [← hcur, not_inUserMode_of_kernel hk]
      · simp [hcur, switchTo, requeueOld_privilege, not_inUserMode_of_kernel hk]
    | some p =>
      by_cases hcur : some p = s.gScheduler.currentProcess
      · simp [← hcur, not_inUserMode_of_kernel hk]
      · by_cases hpid : (s.processes p).pid > 0
        · simp [hcur, Ne.symm hcur, switchTo_privilege, requeueOld_pid, requeueOld_privilege, hpid,
            inUserMode_enterUserMode hk]
        · simp [hcur, switchTo_privilege, requeueOld_pid, requeueOld_privilege, hpid,
            not_inUserMode_of_kernel hk]
  · have hstop : (!s.gSchedulerInitialized || !s.gScheduler.schedulingEnabled) = true := by
      cases hi : s.gSchedulerInitialized <;> cases he : s.gScheduler.schedulingEnabled <;> simp_all
    have hno : switchesToUser s = false := by
      cases hi : s.gSchedulerInitialized <;> cases he : s.gScheduler.schedulingEnabled <;>
        simp_all [switchesToUser]
    simp [schedulerSchedule, hstop, hno, not_inUserMode_of_kernel hk]

theorem switchesToUser_congr {f : Scheduler → Scheduler}
    (halg : (f s.gScheduler).algorithm = s.gScheduler.algorithm)
    (hready : (f s.gScheduler).readyQueue = s.gScheduler.readyQueue)
    (hprio : (f s.gScheduler).priorityQueues = s.gScheduler.priorityQueues)
    (hidle : (f s.gScheduler).idleProcess = s.gScheduler.idleProcess)
    (hcur : (f s.gScheduler).currentProcess = s.gScheduler.currentProcess)
    (hen : (f s.gScheduler).schedulingEnabled = s.gScheduler.schedulingEnabled) :
    switchesToUser (withScheduler s f) = switchesToUser s := by
  have hnext : nextProcess (f s.gScheduler) = nextProcess s.gScheduler := by
    simp only [nextProcess, schedulerPickNextProcess, schedulerDequeueReady, halg, hready, hprio,
      hidle]
    cases s.gScheduler.algorithm <;> rfl
  simp [switchesToUser, withScheduler, hnext, hcur, hen]

theorem inUserMode_tick (hk : s.gPrivilegeContext.currentLevel = privilegeKernel) :
    InUserMode (schedulerTick s).gPrivilegeContext ↔ timerSwitchesToUser s = true := by
  have hnot := not_inUserMode_of_kernel hk
  by_cases hgo : s.gSchedulerInitialized = true ∧ s.gScheduler.schedulingEnabled = true
  · obtain ⟨hi, he⟩ := hgo
    by_cases hexp : s.gScheduler.currentQuantumRemaining ≤ 1 ∧
        s.gScheduler.preemptionEnabled = true
    · obtain ⟨hq, hp⟩ := hexp
      have hzero : s.gScheduler.currentQuantumRemaining - 1 = 0 := by omega
      have htick : schedulerTick s = schedulerSchedule (withScheduler s fun g =>
          { g with
            currentQuantumRemaining := g.currentQuantumRemaining - 1
            totalPreemptions := g.totalPreemptions + 1 }) := by
        simp [schedulerTick, schedulerPreempt, withScheduler, hi, he, hzero, hp]
      have hkept : (withScheduler s fun g =>
          { g with
            currentQuantumRemaining := g.currentQuantumRemaining - 1
            totalPreemptions := g.totalPreemptions + 1 }).gPrivilegeContext.currentLevel =
          privilegeKernel := hk
      rw [htick, inUserMode_schedule hkept, switchesToUser_congr rfl rfl rfl rfl rfl rfl]
      simp [timerSwitchesToUser, hq, hp]
    · have hstay : (schedulerTick s).gPrivilegeContext = s.gPrivilegeContext := by
        have hne : ¬ (s.gScheduler.currentQuantumRemaining - 1 = 0 ∧
            s.gScheduler.preemptionEnabled = true) := by
          intro h
          exact hexp ⟨by omega, h.2⟩
        simp only [schedulerTick, hi, he, withScheduler, if_neg hne]
        rfl
      rw [hstay]
      constructor
      · exact fun h => absurd h hnot
      · intro h
        simp only [timerSwitchesToUser, Bool.and_eq_true, decide_eq_true_eq] at h
        exact absurd h.1 hexp
  · have hstop : (!s.gSchedulerInitialized || !s.gScheduler.schedulingEnabled) = true := by
      cases hi : s.gSchedulerInitialized <;> cases he : s.gScheduler.schedulingEnabled <;> simp_all
    have hno : timerSwitchesToUser s = false := by
      cases hi : s.gSchedulerInitialized <;> cases he : s.gScheduler.schedulingEnabled <;>
        simp_all [timerSwitchesToUser, switchesToUser]
    simp [schedulerTick, hstop, hno, hnot]

section Dispatch

variable (others : Nat → InterruptContext → KernelState → KernelState) {ctx : InterruptContext}

def handlerLowers (k : KernelState) (ctx : InterruptContext) : Prop :=
  match k.gIntController.handlers (vector ctx) with
  | some .irqTimer => timerSwitchesToUser k.scheduling = true
  | some (.other address) => InUserMode (others address ctx (dispatchEntry ctx k)).privilege
  | _ => False

theorem dispatchEntry_handlers (ctx : InterruptContext) (k : KernelState) :
    (dispatchEntry ctx k).gIntController.handlers = k.gIntController.handlers := by
  unfold dispatchEntry withController withPrivilege withStats
  dsimp only
  split <;> rfl

theorem dispatchEntry_kernel (ctx : InterruptContext) (k : KernelState) :
    (dispatchEntry ctx k).privilege.currentLevel = privilegeKernel :=
  enterKernelMode_level _

theorem irqKeyboard_privilege (k : KernelState) : (irqKeyboard k).privilege = k.privilege := by
  unfold irqKeyboard
  split <;> rfl

theorem dispatch_privilege (k : KernelState) (ctx : InterruptContext) :
    (interruptDispatch others (some ctx) k).privilege =
      match k.gIntController.handlers (vector ctx) with
      | some handler => (runHandler others ctx (dispatchEntry ctx k) handler).privilege
      | none => (dispatchEntry ctx k).privilege := by
  simp only [interruptDispatch, dispatchEntry_handlers]
  cases k.gIntController.handlers (vector ctx) <;> rfl

theorem dispatch_restores_user_iff (k : KernelState) (ctx : InterruptContext) :
    InUserMode (interruptDispatch others (some ctx) k).privilege ↔ handlerLowers others k ctx := by
  have hkernel := dispatchEntry_kernel ctx k
  have hnot := not_inUserMode_of_kernel hkernel
  rw [dispatch_privilege, handlerLowers]
  cases k.gIntController.handlers (vector ctx) with
  | none => simpa using hnot
  | some handler =>
    cases handler with
    | irqTimer => exact inUserMode_tick hkernel
    | irqKeyboard =>
      simp only [runHandler, irqKeyboard_privilege]
      exact iff_of_false hnot id
    | other address => exact Iff.rfl
    | _ => exact iff_of_false hnot id

end Dispatch

section Boot

inductive KernelCall where
  | scheduler (call : SchedulerCall)
  | interrupt (context : Option InterruptContext)
  deriving DecidableEq, Repr

variable (others : Nat → InterruptContext → KernelState → KernelState)

def kernelCall (k : KernelState) : KernelCall → KernelState
  | .scheduler c => { k with scheduling := schedulerCall k.scheduling c }
  | .interrupt ctx => interruptDispatch others ctx k

def booted (processes : Nat → Process) (kernelStackTop userStackTop : BitVec 32) : KernelState where
  scheduling := started processes (privilegeInit kernelStackTop userStackTop)
  gIntController := interruptsInit
  gSystemTicks := 0
  keyboard := ⟨fun _ => 0, 0, 0, 0⟩

abbrev KernelRun (processes : Nat → Process) (kernelStackTop userStackTop : BitVec 32) :=
  Run (fun k c => some (kernelCall others k c)) (fun _ _ => True)
    (booted processes kernelStackTop userStackTop)

theorem breakpoint_leaves_kernel_level :
    ¬ ∀ (others : Nat → InterruptContext → KernelState → KernelState)
      (processes : Nat → Process) (kernelStackTop userStackTop : BitVec 32)
      (calls : List KernelCall) (k : KernelState) (ctx : InterruptContext),
      KernelRun others processes kernelStackTop userStackTop calls k →
      k.privilege.currentLevel = privilegeUser →
      InUserMode (interruptDispatch others (some ctx) k).privilege := by
  intro hall
  have hrun : KernelRun (fun _ _ k => k) numbered 0x1000 0x2000
      [.scheduler (.enqueueReady (some 1)), .scheduler .schedule]
      ([.scheduler (.enqueueReady (some 1)), .scheduler .schedule].foldl
        (kernelCall fun _ _ k => k) (booted numbered 0x1000 0x2000)) :=
    Run.call (.call .start trivial rfl) trivial rfl
  exact absurd (hall _ _ _ _ _ _ ⟨3⟩ hrun (by decide)) (by decide)

end Boot

end ZoraVM.Kernel

import ZoraVM.Kernel.QuantumExpiry
import ZoraVM.Kernel.SchedulerQueues

namespace ZoraVM.Kernel.Queues

open Foundation

section Operations

variable {m : SchedulerMemory} {s : SchedulerState} {lost : List Nat}

theorem Refines.setProcessState (h : Refines lost m s) (p : Nat) (st : ProcessState) :
    Refines lost (m.setProcessState p st) (Kernel.setProcessState s p st) := by
  obtain ⟨lists, hstored, rfl⟩ := h
  exact ⟨lists, hstored, rfl⟩

def ReadyFits (s : SchedulerState) : Prop := s.gScheduler.readyQueue.length ≤ 2147483647

def BlockedFits (s : SchedulerState) : Prop := s.gScheduler.blockedQueue.length ≤ 2147483647

theorem room_of_longer {queue : List Nat} {p : Nat}
    (h : (Kernel.queueEnqueue queue p).length ≤ 2147483647) : queue.length < 2147483647 := by
  rw [Kernel.queueEnqueue, List.length_append] at h
  exact h

theorem Refines.schedulerEnqueueReady (h : Refines lost m s) {process : Option Nat}
    (hfits : ReadyFits (Kernel.schedulerEnqueueReady s process)) :
    ∃ m', m.schedulerEnqueueReady process = .ok m' ∧
      Refines lost m' (Kernel.schedulerEnqueueReady s process) := by
  cases process with
  | none => exact ⟨m, rfl, h⟩
  | some p => exact (h.setProcessState p .running).enqueue .ready (room_of_longer hfits) p

theorem Refines.schedulerEnqueueBlocked (h : Refines lost m s) {process : Option Nat}
    (hfits : BlockedFits (Kernel.schedulerEnqueueBlocked s process)) :
    ∃ m', m.schedulerEnqueueBlocked process = .ok m' ∧
      Refines lost m' (Kernel.schedulerEnqueueBlocked s process) := by
  cases process with
  | none => exact ⟨m, rfl, h⟩
  | some p => exact (h.setProcessState p .sleeping).enqueue .blocked (room_of_longer hfits) p

theorem Refines.schedulerRemoveFromQueue (h : Refines lost m s) (process : Option Nat) :
    ∃ m', Refines lost m' (Kernel.schedulerRemoveFromQueue s process) ∧
      Settles (fun fuel => (m.schedulerRemoveFromQueue fuel process).run) m' := by
  cases process with
  | none => exact ⟨m, h, .pure m⟩
  | some p =>
    obtain ⟨m₁, hready, hrun₁⟩ := h.remove .ready p
    obtain ⟨m₂, hblocked, hrun₂⟩ := hready.remove .blocked p
    exact ⟨m₂, hblocked, .bind hrun₁ hrun₂⟩

theorem Refines.dequeuePriority (h : Refines lost m s) (level : Nat)
    (hlevel : level ≤ schedulerMaxQueues) :
    ∃ m', m.dequeuePriority level hlevel =
        .ok ((Kernel.dequeuePriority s.gScheduler.priorityQueues level).1, m') ∧
      Refines lost m' (withScheduler s fun g =>
        { g with priorityQueues := (Kernel.dequeuePriority g.priorityQueues level).2 }) := by
  induction level with
  | zero => exact ⟨m, rfl, h⟩
  | succ level ih =>
    obtain ⟨lists, hstored, rfl⟩ := h
    have hstored' := hstored
    obtain ⟨own, -, hheld⟩ := hstored'
    have hcount := (hheld (.priority ⟨level, hlevel⟩)).2.2.1
    have hget : (m.shown lists).gScheduler.priorityQueues[level]? =
        some (lists (.priority ⟨level, hlevel⟩)) := by
      rw [SchedulerMemory.shown, List.getElem?_ofFn]
      exact dif_pos hlevel
    cases hlist : lists (.priority ⟨level, hlevel⟩) with
    | nil =>
      rw [hlist] at hcount hget
      have hempty : ¬ 0 < (m.queues (.priority ⟨level, hlevel⟩)).count := by
        rw [hcount]
        decide
      obtain ⟨m', hrun, href⟩ := ih (Nat.le_of_succ_le hlevel)
      refine ⟨m', ?_, ?_⟩
      · rw [SchedulerMemory.dequeuePriority, if_neg hempty, hrun, Kernel.dequeuePriority, hget]
      · rw [withScheduler, Kernel.dequeuePriority, hget]
        exact href
    | cons p rest =>
      rw [hlist] at hcount hget
      have hsome : 0 < (m.queues (.priority ⟨level, hlevel⟩)).count := by
        rw [hcount, List.length_cons]
        omega
      obtain ⟨m', hrun, href⟩ := Refines.dequeue ⟨lists, hstored, rfl⟩ (.priority ⟨level, hlevel⟩)
      rw [listOf_shown, hlist] at hrun href
      refine ⟨m', ?_, ?_⟩
      · rw [SchedulerMemory.dequeuePriority, if_pos hsome, hrun, Kernel.dequeuePriority, hget]
        rfl
      · rw [withScheduler, Kernel.dequeuePriority, hget]
        exact href

theorem pick_levels {g : Scheduler} (halg : g.algorithm = .priority) :
    Kernel.schedulerPickNextProcess g =
      ((Kernel.dequeuePriority g.priorityQueues schedulerMaxQueues).1,
        { g with priorityQueues := (Kernel.dequeuePriority g.priorityQueues schedulerMaxQueues).2 }) := by
  unfold Kernel.schedulerPickNextProcess
  split
  · rfl
  · next h => exact absurd halg h

theorem Refines.schedulerPickNextProcess (h : Refines lost m s) :
    ∃ m', m.schedulerPickNextProcess = .ok ((Kernel.schedulerPickNextProcess s.gScheduler).1, m') ∧
      Refines lost m' (withScheduler s fun g => (Kernel.schedulerPickNextProcess g).2) := by
  have halg : m.algorithm = s.gScheduler.algorithm := by
    obtain ⟨lists, -, rfl⟩ := h
    rfl
  by_cases hpriority : s.gScheduler.algorithm = .priority
  · obtain ⟨m', hrun, href⟩ := h.dequeuePriority schedulerMaxQueues (Nat.le_refl _)
    refine ⟨m', ?_, ?_⟩
    · rw [SchedulerMemory.schedulerPickNextProcess, halg, hpriority, pick_levels hpriority]
      exact hrun
    · rw [withScheduler, pick_levels hpriority]
      exact href
  · obtain ⟨m', hrun, href⟩ := h.dequeue .ready
    refine ⟨m', ?_, ?_⟩
    · rw [pick_fifo hpriority]
      unfold SchedulerMemory.schedulerPickNextProcess
      split
      · next hm => exact absurd (halg ▸ hm) hpriority
      · exact hrun
    · rw [withScheduler, pick_fifo hpriority]
      exact href

theorem Refines.requeueOld (h : Refines lost m s) {process : Option Nat}
    (hfits : ReadyFits (Kernel.requeueOld s process)) :
    ∃ m', m.requeueOld process = .ok m' ∧ Refines lost m' (Kernel.requeueOld s process) := by
  cases process with
  | none => exact ⟨m, rfl, h⟩
  | some p =>
    have hprocesses : m.processes = s.processes := by
      obtain ⟨lists, -, rfl⟩ := h
      rfl
    rw [Kernel.requeueOld] at hfits
    rw [SchedulerMemory.requeueOld, Kernel.requeueOld, hprocesses]
    by_cases hrunning : (s.processes p).state = .running
    · rw [if_pos hrunning] at hfits
      rw [if_pos hrunning, if_pos hrunning]
      exact (h.setProcessState p .running).schedulerEnqueueReady hfits
    · rw [if_neg hrunning, if_neg hrunning]
      exact ⟨m, rfl, h⟩

theorem Refines.schedulerContextSwitch (h : Refines lost m s) (oldProcess : Option Nat) (p : Nat) :
    Refines lost (m.schedulerContextSwitch p) (Kernel.schedulerContextSwitch s oldProcess (some p)) := by
  obtain ⟨lists, hstored, rfl⟩ := h
  have hprocesses : (m.shown lists).processes = m.processes := rfl
  rw [SchedulerMemory.schedulerContextSwitch, Kernel.schedulerContextSwitch, hprocesses]
  split
  · exact ⟨lists, hstored, rfl⟩
  · exact ⟨lists, hstored, rfl⟩

theorem Refines.switchTo (h : Refines lost m s) (oldProcess newProcess : Option Nat) :
    Refines lost (m.switchTo newProcess) (Kernel.switchTo s oldProcess newProcess) := by
  cases newProcess with
  | none => exact h
  | some p =>
    have hcurrent : Refines lost { m.setProcessState p .running with currentProcess := some p }
        (withScheduler (Kernel.setProcessState s p .running) fun g =>
          { g with currentProcess := some p }) := by
      obtain ⟨lists, hstored, rfl⟩ := h
      exact ⟨lists, hstored, rfl⟩
    obtain ⟨lists, hstored, heq⟩ := hcurrent.schedulerContextSwitch oldProcess p
    exact ⟨lists, hstored, by rw [Kernel.switchTo, heq]; rfl⟩

theorem readyQueue_switchTo (s : SchedulerState) (old new : Option Nat) :
    (Kernel.switchTo s old new).gScheduler.readyQueue = s.gScheduler.readyQueue := by
  cases new with
  | none => rfl
  | some p => rw [switchTo_scheduler]

theorem Refines.schedulerSchedule (h : Refines lost m s)
    (hfits : ReadyFits (Kernel.schedulerSchedule s)) :
    ∃ m', m.schedulerSchedule = .ok m' ∧ Refines lost m' (Kernel.schedulerSchedule s) := by
  have hguard : (!m.gSchedulerInitialized || !m.schedulingEnabled) =
      (!s.gSchedulerInitialized || !s.gScheduler.schedulingEnabled) := by
    obtain ⟨lists, -, rfl⟩ := h
    rfl
  rw [Kernel.schedulerSchedule] at hfits
  rw [SchedulerMemory.schedulerSchedule, Kernel.schedulerSchedule, hguard]
  split
  · exact ⟨m, rfl, h⟩
  · next hon =>
    rw [if_neg hon] at hfits
    have hkernel : Refines lost { m with gPrivilegeContext := privilegeEnterKernelMode m.gPrivilegeContext }
        { s with gPrivilegeContext := privilegeEnterKernelMode s.gPrivilegeContext } := by
      obtain ⟨lists, hstored, rfl⟩ := h
      exact ⟨lists, hstored, rfl⟩
    have hcurrent : m.currentProcess = s.gScheduler.currentProcess := by
      obtain ⟨lists, -, rfl⟩ := h
      rfl
    obtain ⟨m₁, hpick, href₁⟩ := hkernel.schedulerPickNextProcess
    have hidle : m₁.idleProcess = (Kernel.schedulerPickNextProcess s.gScheduler).2.idleProcess := by
      obtain ⟨lists, -, heq⟩ := href₁
      exact congrArg (·.gScheduler.idleProcess) heq.symm
    simp only [hpick, bind, Except.bind]
    rw [hcurrent, hidle]
    split
    · exact ⟨m₁, rfl, href₁⟩
    · next hother =>
      dsimp only at hfits
      rw [if_neg hother, ReadyFits, readyQueue_switchTo] at hfits
      obtain ⟨m₂, hrequeue, href₂⟩ := href₁.requeueOld hfits
      rw [hrequeue]
      exact ⟨_, rfl, href₂.switchTo _ _⟩

theorem blockedQueue_schedule (s : SchedulerState) :
    (Kernel.schedulerSchedule s).gScheduler.blockedQueue = s.gScheduler.blockedQueue := by
  have hpicked : (Kernel.schedulerPickNextProcess s.gScheduler).2.blockedQueue =
      s.gScheduler.blockedQueue := by
    unfold Kernel.schedulerPickNextProcess
    split <;> rfl
  unfold Kernel.schedulerSchedule
  split
  · rfl
  · dsimp only
    split
    · exact hpicked
    · cases (Kernel.schedulerPickNextProcess s.gScheduler).1.or
          (Kernel.schedulerPickNextProcess s.gScheduler).2.idleProcess with
      | none =>
        rw [Kernel.switchTo, requeueOld_ready]
        exact hpicked
      | some p =>
        rw [switchTo_scheduler, requeueOld_ready]
        exact hpicked

theorem Refines.schedulerYield (h : Refines lost m s) (hfits : ReadyFits (Kernel.schedulerYield s)) :
    ∃ m', m.schedulerYield = .ok m' ∧ Refines lost m' (Kernel.schedulerYield s) := by
  obtain ⟨lists, hstored, rfl⟩ := h
  have hguard : (m.shown lists).gSchedulerInitialized = m.gSchedulerInitialized := rfl
  rw [Kernel.schedulerYield, hguard] at hfits
  rw [SchedulerMemory.schedulerYield, Kernel.schedulerYield, hguard]
  split
  · exact ⟨m, rfl, lists, hstored, rfl⟩
  · next hon =>
    rw [if_neg hon] at hfits
    exact Refines.schedulerSchedule ⟨lists, hstored, rfl⟩ hfits

theorem Refines.schedulerPreempt (h : Refines lost m s)
    (hfits : ReadyFits (Kernel.schedulerPreempt s)) :
    ∃ m', m.schedulerPreempt = .ok m' ∧ Refines lost m' (Kernel.schedulerPreempt s) := by
  obtain ⟨lists, hstored, rfl⟩ := h
  have hguard : (!(m.shown lists).gSchedulerInitialized ||
      !(m.shown lists).gScheduler.preemptionEnabled) =
      (!m.gSchedulerInitialized || !m.preemptionEnabled) := rfl
  rw [Kernel.schedulerPreempt, hguard] at hfits
  rw [SchedulerMemory.schedulerPreempt, Kernel.schedulerPreempt, hguard]
  split
  · exact ⟨m, rfl, lists, hstored, rfl⟩
  · next hon =>
    rw [if_neg hon] at hfits
    exact Refines.schedulerSchedule ⟨lists, hstored, rfl⟩ hfits

theorem Refines.schedulerTick (h : Refines lost m s) (hfits : ReadyFits (Kernel.schedulerTick s)) :
    ∃ m', m.schedulerTick = .ok m' ∧ Refines lost m' (Kernel.schedulerTick s) := by
  obtain ⟨lists, hstored, rfl⟩ := h
  have hguard : (!(m.shown lists).gSchedulerInitialized ||
      !(m.shown lists).gScheduler.schedulingEnabled) =
      (!m.gSchedulerInitialized || !m.schedulingEnabled) := rfl
  rw [Kernel.schedulerTick, hguard] at hfits
  rw [SchedulerMemory.schedulerTick, Kernel.schedulerTick, hguard]
  split
  · exact ⟨m, rfl, lists, hstored, rfl⟩
  · next hon =>
    rw [if_neg hon] at hfits
    have hticked : Refines lost { m with currentQuantumRemaining := m.currentQuantumRemaining - 1 }
        (withScheduler (m.shown lists) fun g =>
          { g with currentQuantumRemaining := g.currentQuantumRemaining - 1 }) :=
      ⟨lists, hstored, rfl⟩
    by_cases hexpired : m.currentQuantumRemaining - 1 = 0 ∧ m.preemptionEnabled = true
    · dsimp only at hfits
      rw [if_pos (by exact hexpired)] at hfits
      rw [if_pos hexpired, if_pos (by exact hexpired)]
      exact hticked.schedulerPreempt hfits
    · rw [if_neg hexpired, if_neg (by exact hexpired)]
      exact ⟨_, rfl, hticked⟩

theorem Refines.schedulerBlockProcess (h : Refines lost m s) {process : Option Nat}
    (hready : ReadyFits (Kernel.schedulerBlockProcess s process))
    (hblocked : BlockedFits (Kernel.schedulerBlockProcess s process)) :
    ∃ m', Refines lost m' (Kernel.schedulerBlockProcess s process) ∧
      Settles (fun fuel => (m.schedulerBlockProcess fuel process).run) m' := by
  cases process with
  | none => exact ⟨m, h, .pure m⟩
  | some p =>
    obtain ⟨m₁, href₁, hrun₁⟩ := h.schedulerRemoveFromQueue (some p)
    rw [Kernel.schedulerBlockProcess] at hready hblocked
    have hparked : BlockedFits (Kernel.schedulerEnqueueBlocked
        (Kernel.schedulerRemoveFromQueue s (some p)) (some p)) := by
      split at hblocked
      · rw [BlockedFits, blockedQueue_schedule] at hblocked
        exact hblocked
      · exact hblocked
    obtain ⟨m₂, hrun₂, href₂⟩ := href₁.schedulerEnqueueBlocked hparked
    have hcurrent : m₂.currentProcess = (Kernel.schedulerEnqueueBlocked
        (Kernel.schedulerRemoveFromQueue s (some p)) (some p)).gScheduler.currentProcess := by
      obtain ⟨lists, -, heq⟩ := href₂
      exact congrArg (·.gScheduler.currentProcess) heq.symm
    rw [Kernel.schedulerBlockProcess]
    by_cases hself : some p = m₂.currentProcess
    · rw [if_pos (hself.trans hcurrent)] at hready ⊢
      obtain ⟨m₃, hrun₃, href₃⟩ := href₂.schedulerSchedule hready
      refine ⟨m₃, href₃, .bind hrun₁ (.bind (.lift hrun₂) ?_)⟩
      simp only [if_pos hself]
      exact .lift hrun₃
    · rw [if_neg fun heq => hself (heq.trans hcurrent.symm)]
      refine ⟨m₂, href₂, .bind hrun₁ (.bind (.lift hrun₂) ?_)⟩
      simp only [if_neg hself]
      exact .pure m₂

theorem Refines.schedulerUnblockProcess (h : Refines lost m s) {process : Option Nat}
    (hfits : ReadyFits (Kernel.schedulerUnblockProcess s process)) :
    ∃ m', Refines lost m' (Kernel.schedulerUnblockProcess s process) ∧
      Settles (fun fuel => (m.schedulerUnblockProcess fuel process).run) m' := by
  cases process with
  | none => exact ⟨m, h, .pure m⟩
  | some p =>
    obtain ⟨m₁, href₁, hrun₁⟩ := h.remove .blocked p
    obtain ⟨m₂, hrun₂, href₂⟩ := href₁.schedulerEnqueueReady hfits
    exact ⟨m₂, href₂, .bind hrun₁ (.lift hrun₂)⟩

end Operations

section Events

variable {m : SchedulerMemory} {s : SchedulerState} {lost : List Nat}

theorem Refines.call (h : Refines lost m s) {c : SchedulerCall}
    (hready : ReadyFits (schedulerCall s c)) (hblocked : BlockedFits (schedulerCall s c)) :
    ∃ m', Refines lost m' (schedulerCall s c) ∧ Settles (fun fuel => (m.call fuel c).run) m' := by
  cases c with
  | enqueueReady p =>
    obtain ⟨m', hrun, href⟩ := h.schedulerEnqueueReady hready
    exact ⟨m', href, .lift hrun⟩
  | schedule =>
    obtain ⟨m', hrun, href⟩ := h.schedulerSchedule hready
    exact ⟨m', href, .lift hrun⟩
  | yield =>
    obtain ⟨m', hrun, href⟩ := h.schedulerYield hready
    exact ⟨m', href, .lift hrun⟩
  | preempt =>
    obtain ⟨m', hrun, href⟩ := h.schedulerPreempt hready
    exact ⟨m', href, .lift hrun⟩
  | tick =>
    obtain ⟨m', hrun, href⟩ := h.schedulerTick hready
    exact ⟨m', href, .lift hrun⟩
  | blockProcess p => exact h.schedulerBlockProcess hready hblocked
  | unblockProcess p => exact h.schedulerUnblockProcess hready

theorem Refines.event (h : Refines lost m s) {e : SchedulerEvent}
    (hready : ReadyFits (schedulerEvent s e)) (hblocked : BlockedFits (schedulerEvent s e)) :
    ∃ m', Refines lost m' (schedulerEvent s e) ∧ Settles (fun fuel => (m.event fuel e).run) m' := by
  cases e with
  | call c => exact h.call hready hblocked
  | enqueueBlocked p =>
    obtain ⟨m', hrun, href⟩ := h.schedulerEnqueueBlocked hblocked
    exact ⟨m', href, .lift hrun⟩
  | removeFromQueue p => exact h.schedulerRemoveFromQueue p
  | dequeueReady =>
    obtain ⟨m', hrun, href⟩ := h.dequeue .ready
    exact ⟨m', href, .lift (Outcome.map_eq_ok.mpr ⟨_, hrun, rfl⟩)⟩
  | pickNextProcess =>
    obtain ⟨m', hrun, href⟩ := h.schedulerPickNextProcess
    exact ⟨m', href, .lift (Outcome.map_eq_ok.mpr ⟨_, hrun, rfl⟩)⟩
  | start | stop | setAlgorithm _ | setQuantum _ | processSetPriority _ _ =>
    obtain ⟨lists, hstored, rfl⟩ := h
    refine ⟨_, ?_, 0, fun _ _ => rfl⟩
    exact ⟨lists, hstored, rfl⟩

def EventsFit : SchedulerState → List SchedulerEvent → Prop
  | _, [] => True
  | s, e :: es =>
    ReadyFits (schedulerEvent s e) ∧ BlockedFits (schedulerEvent s e) ∧ EventsFit (schedulerEvent s e) es

theorem Refines.events (h : Refines lost m s) {es : List SchedulerEvent} (hfits : EventsFit s es) :
    ∃ m', Refines lost m' (es.foldl schedulerEvent s) ∧ Settles (fun fuel => (m.events fuel es).run) m' := by
  induction es generalizing m s with
  | nil => exact ⟨m, h, .pure m⟩
  | cons e es ih =>
    obtain ⟨hready, hblocked, hlater⟩ := hfits
    obtain ⟨m₁, href₁, hrun₁⟩ := h.event hready hblocked
    obtain ⟨m', href, hrun⟩ := ih href₁ hlater
    refine ⟨m', href, ?_⟩
    simp only [SchedulerMemory.events, List.foldlM_cons]
    exact .bind hrun₁ hrun

end Events

section Sessions

variable {m : SchedulerMemory} {s : SchedulerState} {lost : List Nat}

structure Between (lost : List Nat) (m : SchedulerMemory) (s : SchedulerState) : Prop where
  nodup : lost.Nodup
  live_iff : ∀ q, m.nodes.live q = true ↔ q ∈ lost
  processes : m.processes = s.processes
  privilege : m.gPrivilegeContext = s.gPrivilegeContext
  ended : m.gSchedulerInitialized = false ∧ s.gSchedulerInitialized = false

def listSession (s : SchedulerState) (es : List SchedulerEvent) : SchedulerState :=
  { es.foldl schedulerEvent (Kernel.schedulerInit s) with gSchedulerInitialized := false }

def stillQueued : SchedulerState → List (List SchedulerEvent) → Nat
  | _, [] => 0
  | s, es :: ess =>
    let s := listSession s es
    s.gScheduler.readyQueue.length + s.gScheduler.blockedQueue.length + stillQueued s ess

theorem between_coldBoot (processes : Nat → Process) (privilege : PrivilegeContext) :
    Between [] (SchedulerMemory.coldBoot processes privilege) (Kernel.coldBoot processes privilege) where
  nodup := List.nodup_nil
  live_iff q := by
    have hdead : (SchedulerMemory.coldBoot processes privilege).nodes.live q = false := rfl
    simp [hdead]
  processes := rfl
  privilege := rfl
  ended := ⟨rfl, rfl⟩

theorem Between.schedulerInit (h : Between lost m s) :
    Refines lost m.schedulerInit (Kernel.schedulerInit s) := by
  obtain ⟨-, hlive, hprocesses, hprivilege, hm, hs⟩ := h
  refine ⟨fun _ => [], ⟨fun _ => [], ⟨fun q => ?_, ?_⟩, fun name => ?_⟩, ?_⟩
  · rw [SchedulerMemory.schedulerInit, hm]
    refine (hlive q).trans ?_
    constructor
    · exact fun hq => ⟨none, hq⟩
    · rintro ⟨owner, hq⟩
      cases owner with
      | none => exact hq
      | some name => exact absurd hq List.not_mem_nil
  · intro i j q hi hj
    cases i with
    | none =>
      cases j with
      | none => rfl
      | some name => exact absurd hj List.not_mem_nil
    | some name => exact absurd hi List.not_mem_nil
  · rw [SchedulerMemory.schedulerInit, hm]
    exact ⟨Linked.nil, rfl, counts_nil⟩
  · rw [SchedulerMemory.schedulerInit, Kernel.schedulerInit, hm, hs, SchedulerMemory.shown]
    simp only [Bool.false_eq_true, if_false, hprocesses, hprivilege]
    rfl

theorem Refines.schedulerCleanup (h : Refines lost m s) (hnodup : lost.Nodup)
    (hempty : QueuesEmpty s.gScheduler) (hinit : s.gSchedulerInitialized = true) :
    ∃ left, Between left m.schedulerCleanup { s with gSchedulerInitialized := false } ∧
      left.length =
        lost.length + (s.gScheduler.readyQueue.length + s.gScheduler.blockedQueue.length) := by
  obtain ⟨lists, ⟨own, hpart, hheld⟩, rfl⟩ := h
  have hlength : ∀ name, (own name).length = (lists name).length := fun name => by
    simpa using congrArg List.length (hheld name).2.1
  have hpriority : ∀ level, own (.priority level) = [] := fun level => by
    refine List.eq_nil_of_length_eq_zero ?_
    have hget : listOf (m.shown lists).gScheduler (.priority level) = [] := by
      rw [listOf, hempty, List.getElem?_replicate]
      split <;> rfl
    rw [hlength, ← listOf_shown m lists, hget]
    rfl
  have hapart : ∀ {i j : Option QueueName}, i ≠ j → List.Disjoint (i.elim lost own) (j.elim lost own) :=
    fun hij q hi hj => hij (hpart.apart hi hj)
  have hm : m.gSchedulerInitialized = true := hinit
  refine ⟨lost ++ (own .ready ++ own .blocked), ⟨?_, fun q => ?_, ?_, ?_, ?_, rfl⟩, ?_⟩
  · have hqueues : (own .ready ++ own .blocked).Nodup :=
      (hheld .ready).1.nodup.append (hheld .blocked).1.nodup
        (@hapart (some .ready) (some .blocked) (by decide))
    refine hnodup.append hqueues (List.disjoint_append_right.mpr ⟨?_, ?_⟩)
    · exact @hapart none (some .ready) (by decide)
    · exact @hapart none (some .blocked) (by decide)
  · rw [SchedulerMemory.schedulerCleanup, hm]
    refine (hpart.live_iff q).trans ?_
    rw [List.mem_append, List.mem_append]
    constructor
    · rintro ⟨owner, hq⟩
      cases owner with
      | none => exact .inl hq
      | some name =>
        cases name with
        | ready => exact .inr (.inl hq)
        | blocked => exact .inr (.inr hq)
        | priority level =>
          have hin : q ∈ own (.priority level) := hq
          rw [hpriority] at hin
          exact absurd hin List.not_mem_nil
    · rintro (hq | hq | hq)
      · exact ⟨none, hq⟩
      · exact ⟨some .ready, hq⟩
      · exact ⟨some .blocked, hq⟩
  · rw [SchedulerMemory.schedulerCleanup, hm]
    rfl
  · rw [SchedulerMemory.schedulerCleanup, hm]
    rfl
  · rw [SchedulerMemory.schedulerCleanup, hm]
    rfl
  · rw [List.length_append, List.length_append, hlength, hlength]
    rfl

theorem queuesEmpty_events (s : SchedulerState) (es : List SchedulerEvent)
    (h : QueuesEmpty s.gScheduler) : QueuesEmpty (es.foldl schedulerEvent s).gScheduler := by
  induction es generalizing s with
  | nil => exact h
  | cons e es ih => exact ih _ (queuesEmpty_event h e)

theorem initialized_events (s : SchedulerState) (es : List SchedulerEvent) :
    (es.foldl schedulerEvent s).gSchedulerInitialized = s.gSchedulerInitialized := by
  induction es generalizing s with
  | nil => rfl
  | cons e es ih => exact (ih _).trans (initialized_event s e)

theorem Between.session (h : Between lost m s) {es : List SchedulerEvent}
    (hfits : EventsFit (Kernel.schedulerInit s) es) :
    ∃ m' left, Between left m' (listSession s es) ∧
      left.length = lost.length + ((listSession s es).gScheduler.readyQueue.length +
        (listSession s es).gScheduler.blockedQueue.length) ∧
      Settles (fun fuel => (m.session fuel es).run) m' := by
  obtain ⟨m', href, hrun⟩ := h.schedulerInit.events hfits
  have hstart : (Kernel.schedulerInit s).gSchedulerInitialized = true ∧
      QueuesEmpty (Kernel.schedulerInit s).gScheduler := by
    rw [Kernel.schedulerInit, h.ended.2]
    exact ⟨rfl, rfl⟩
  obtain ⟨left, hleft, hlength⟩ := href.schedulerCleanup h.nodup (queuesEmpty_events _ es hstart.2)
    ((initialized_events _ es).trans hstart.1)
  exact ⟨m'.schedulerCleanup, left, hleft, hlength, .bind hrun (.pure _)⟩

def SessionsFit : SchedulerState → List (List SchedulerEvent) → Prop
  | _, [] => True
  | s, es :: ess => EventsFit (Kernel.schedulerInit s) es ∧ SessionsFit (listSession s es) ess

theorem Between.sessions (h : Between lost m s) {ess : List (List SchedulerEvent)}
    (hfits : SessionsFit s ess) : ∃ (m' : SchedulerMemory) (left : List Nat), left.Nodup ∧ (∀ q, m'.nodes.live q = true ↔ q ∈ left) ∧
      left.length = lost.length + stillQueued s ess ∧
      Settles (fun fuel => (m.sessions fuel ess).run) m' := by
  induction ess generalizing m s lost with
  | nil => exact ⟨m, lost, h.nodup, h.live_iff, rfl, .pure m⟩
  | cons es ess ih =>
    obtain ⟨m₁, left₁, hbetween, hlength₁, hrun₁⟩ := h.session hfits.1
    obtain ⟨m', left, hnodup, hlive, hlength, hrun⟩ := ih hbetween hfits.2
    refine ⟨m', left, hnodup, hlive, ?_, ?_⟩
    · rw [hlength, hlength₁, stillQueued, Nat.add_assoc]
    · simp only [SchedulerMemory.sessions, List.foldlM_cons]
      exact .bind hrun₁ hrun

end Sessions

section Laws

theorem scheduler_refines_lists (processes : Nat → Process) (privilege : PrivilegeContext)
    (es : List SchedulerEvent)
    (hfits : EventsFit (Kernel.schedulerInit (Kernel.coldBoot processes privilege)) es) :
    ∃ m', Refines [] m' (es.foldl schedulerEvent
        (Kernel.schedulerInit (Kernel.coldBoot processes privilege))) ∧
      Settles (fun fuel =>
        ((SchedulerMemory.coldBoot processes privilege).schedulerInit.events fuel es).run) m' :=
  (between_coldBoot processes privilege).schedulerInit.events hfits

def blockingEvents : List SchedulerEvent :=
  [.call (.enqueueReady (some 4)), .call (.enqueueReady (some 7)), .start, .call .schedule,
    .call (.blockProcess (some 4))]

theorem scheduler_refines_lists_blocking :
    ∃ m' s', Refines [] m' s' ∧ s'.gScheduler.currentProcess = some 7 ∧
      s'.gScheduler.readyQueue = [] ∧ s'.gScheduler.blockedQueue = [4] ∧
      Settles (fun fuel => ((SchedulerMemory.coldBoot numbered (privilegeInit 0x1000 0x2000)).schedulerInit.events
        fuel blockingEvents).run) m' := by
  obtain ⟨m', href, hrun⟩ := scheduler_refines_lists numbered (privilegeInit 0x1000 0x2000) blockingEvents
    (by simp only [EventsFit, blockingEvents, ReadyFits, BlockedFits]; decide)
  exact ⟨m', _, href, by decide, by decide, by decide, hrun⟩

theorem sessions_leave_queued_nodes (processes : Nat → Process) (privilege : PrivilegeContext)
    (ess : List (List SchedulerEvent)) (hfits : SessionsFit (Kernel.coldBoot processes privilege) ess) :
    ∃ (m' : SchedulerMemory) (left : List Nat), left.Nodup ∧ (∀ q, m'.nodes.live q = true ↔ q ∈ left) ∧
      left.length = stillQueued (Kernel.coldBoot processes privilege) ess ∧
      Settles (fun fuel => ((SchedulerMemory.coldBoot processes privilege).sessions fuel ess).run) m' := by
  obtain ⟨m', left, hnodup, hlive, hlength, hrun⟩ := (between_coldBoot processes privilege).sessions hfits
  refine ⟨m', left, hnodup, hlive, ?_, hrun⟩
  rw [hlength, List.length_nil, Nat.zero_add]

def twoSessions : List (List SchedulerEvent) :=
  [[.call (.enqueueReady (some 4)), .start, .call .schedule],
    [.call (.enqueueReady (some 4)), .call (.enqueueReady (some 7)), .call (.blockProcess (some 7))]]

theorem sessions_leave_queued_nodes_twice :
    ∃ (m' : SchedulerMemory) (left : List Nat), left.Nodup ∧ (∀ q, m'.nodes.live q = true ↔ q ∈ left) ∧
      left.length = 2 ∧ Settles (fun fuel => ((SchedulerMemory.coldBoot numbered
        (privilegeInit 0x1000 0x2000)).sessions fuel twoSessions).run) m' := by
  obtain ⟨m', left, hnodup, hlive, hlength, hrun⟩ := sessions_leave_queued_nodes numbered
    (privilegeInit 0x1000 0x2000) twoSessions
    (by simp only [SessionsFit, EventsFit, twoSessions, ReadyFits, BlockedFits]; decide)
  exact ⟨m', left, hnodup, hlive, hlength.trans (by decide), hrun⟩

end Laws

end ZoraVM.Kernel.Queues

import Mathlib.Data.List.Rotate
import ZoraVM.Kernel.PickNext
import ZoraVM.Kernel.UserModeScheduling

namespace ZoraVM.Kernel

variable {s : SchedulerState} {order : List Nat} {c p : Nat} {ps rest : List Nat}

theorem requeueOld_running (s : SchedulerState) (old : Option Nat)
    (h : (s.processes p).state = .running) : ((requeueOld s old).processes p).state = .running := by
  cases old with
  | none => exact h
  | some c =>
    by_cases hpc : p = c
    · subst hpc
      simp [requeueOld, h, schedulerEnqueueReady, withScheduler, setProcessState]
    · dsimp only [requeueOld]
      split
      · simpa [schedulerEnqueueReady, withScheduler, setProcessState, hpc] using h
      · exact h

theorem switchTo_stays_running (s : SchedulerState) (old : Option Nat) (q : Nat)
    (h : (s.processes p).state = .running) :
    ((switchTo s old (some q)).processes p).state = .running := by
  by_cases hpq : p = q
  · subst hpq
    exact switchTo_running s old p
  · unfold switchTo schedulerContextSwitch
    dsimp only
    split <;> simpa [withScheduler, setProcessState, hpq] using h

-- The current process, then the ready queue: the order in which the processes have their turn.
structure InTurn (order : List Nat) (s : SchedulerState) : Prop where
  started : Started s
  algorithm : s.gScheduler.algorithm ≠ .priority
  current : s.gScheduler.currentProcess = order.head?
  ready : s.gScheduler.readyQueue = order.tail
  nodup : order.Nodup
  running : ∀ p ∈ order, (s.processes p).state = .running

theorem schedule_in_turn (h : InTurn (c :: p :: rest) s) :
    InTurn (p :: rest ++ [c]) (schedulerSchedule s) ∧
      (schedulerSchedule s).gScheduler.totalContextSwitches =
        s.gScheduler.totalContextSwitches + 1 := by
  have hcurrent : s.gScheduler.currentProcess = some c := h.current
  have hready : s.gScheduler.readyQueue = p :: rest := h.ready
  have hpick : schedulerPickNextProcess s.gScheduler =
      (some p, { s.gScheduler with readyQueue := rest }) := by
    rw [pick_fifo h.algorithm, schedulerDequeueReady, hready, queueDequeue]
  have hnext : nextProcess s.gScheduler = some p := by
    rw [nextProcess, hpick, Option.some_or]
  have hne : s.gScheduler.currentProcess ≠ some p := by
    rw [hcurrent]
    rintro ⟨⟩
    exact (List.nodup_cons.mp h.nodup).1 List.mem_cons_self
  have hrun : (s.processes c).state = .running := h.running c List.mem_cons_self
  have hafter : (schedulerSchedule s).gScheduler =
      { s.gScheduler with
        currentProcess := some p
        readyQueue := rest ++ [c]
        totalContextSwitches := s.gScheduler.totalContextSwitches + 1
        currentQuantumRemaining := s.gScheduler.quantumMs } := by
    rw [schedule_some h.started hne hnext, switchTo_scheduler, requeueOld_ready]
    simp [picking, hpick, hcurrent, hrun, Option.filter]
  refine ⟨⟨started_schedule h.started, ?_, ?_, ?_, ?_, fun q hq => ?_⟩, ?_⟩
  · rw [hafter]
    exact h.algorithm
  · rw [hafter]
    rfl
  · rw [hafter]
    rfl
  · exact (List.perm_append_singleton c (p :: rest)).nodup_iff.mpr h.nodup
  · have hq' : q ∈ c :: p :: rest := (List.perm_append_singleton c (p :: rest)).mem_iff.mp hq
    rw [schedule_some h.started hne hnext]
    exact switchTo_stays_running _ _ _ (requeueOld_running _ _ (h.running q hq'))
  · rw [hafter]

theorem schedule_rotates (h : InTurn order s) (hlen : 2 ≤ order.length) :
    InTurn (order.rotate 1) (schedulerSchedule s) ∧
      (schedulerSchedule s).gScheduler.totalContextSwitches =
        s.gScheduler.totalContextSwitches + 1 := by
  match order, hlen with
  | c :: p :: rest, _ => simpa using schedule_in_turn h

theorem schedules_rotate (h : InTurn order s) (hlen : 2 ≤ order.length) (k : Nat) :
    InTurn (order.rotate k) (schedulerSchedule^[k] s) ∧
      (schedulerSchedule^[k] s).gScheduler.totalContextSwitches =
        s.gScheduler.totalContextSwitches + k := by
  induction k with
  | zero => exact ⟨by simpa using h, rfl⟩
  | succ k ih =>
    obtain ⟨hturn, hcount⟩ := ih
    have hstep := schedule_rotates hturn (by simpa using hlen)
    rw [Function.iterate_succ_apply']
    rw [List.rotate_rotate] at hstep
    exact ⟨hstep.1, by rw [hstep.2, hcount, Nat.add_assoc]⟩

def dispatched (s : SchedulerState) (n : Nat) : List (Option Nat) :=
  (List.range n).map fun k => (schedulerSchedule^[k + 1] s).gScheduler.currentProcess

theorem dispatched_eq (h : InTurn order s) (hlen : 2 ≤ order.length) :
    dispatched s order.length = (order.rotate 1).map some := by
  refine List.ext_getElem (by simp [dispatched]) fun k hk hk' => ?_
  have hk : k < order.length := by simpa [dispatched] using hk
  have hturn := (schedules_rotate h hlen (k + 1)).1
  have hhead : (order.rotate (k + 1)).head? = (order.rotate 1)[k]? := by
    rw [Nat.add_comm, ← List.rotate_rotate, List.head?_rotate (by simpa using hk)]
  have hrot : k < (order.rotate 1).length := by simpa using hk
  have hsome : (order.rotate 1)[k]? = some (order.rotate 1)[k] := List.getElem?_eq_getElem hrot
  simp only [dispatched, List.getElem_map, List.getElem_range]
  rw [hturn.current, hhead, hsome]

theorem schedules_full_turn (h : InTurn order s) (hlen : 2 ≤ order.length) :
    InTurn order (schedulerSchedule^[order.length] s) ∧
      (schedulerSchedule^[order.length] s).gScheduler.totalContextSwitches =
        s.gScheduler.totalContextSwitches + order.length := by
  simpa using schedules_rotate h hlen order.length

theorem round_robin_fair (s : SchedulerState) (c : Nat) (ps : List Nat) (hps : ps ≠ [])
    (hnodup : (c :: ps).Nodup) (hstarted : Started s) (halg : s.gScheduler.algorithm ≠ .priority)
    (hcurrent : s.gScheduler.currentProcess = some c) (hready : s.gScheduler.readyQueue = ps)
    (hrunning : ∀ p ∈ c :: ps, (s.processes p).state = .running) :
    dispatched s (ps.length + 1) = (ps ++ [c]).map some ∧
    (∀ p ∈ c :: ps, (dispatched s (ps.length + 1)).count (some p) = 1) ∧
    (schedulerSchedule^[ps.length + 1] s).gScheduler.currentProcess = some c ∧
    (schedulerSchedule^[ps.length + 1] s).gScheduler.readyQueue = ps ∧
    (schedulerSchedule^[ps.length + 1] s).gScheduler.totalContextSwitches =
      s.gScheduler.totalContextSwitches + (ps.length + 1) := by
  have hturn : InTurn (c :: ps) s := ⟨hstarted, halg, hcurrent, hready, hnodup, hrunning⟩
  have hlen : 2 ≤ (c :: ps).length := by
    have := List.length_pos_iff.mpr hps
    simp only [List.length_cons]
    omega
  have hdispatched : dispatched s (ps.length + 1) = (ps ++ [c]).map some := by
    simpa using dispatched_eq hturn hlen
  obtain ⟨hback, hswitches⟩ := schedules_full_turn hturn hlen
  refine ⟨hdispatched, fun p hp => ?_, hback.current, hback.ready, hswitches⟩
  have hperm := (List.perm_append_singleton c ps).map some
  have honce : ((c :: ps).map some).Nodup := hnodup.map (Option.some_injective Nat)
  rw [hdispatched, hperm.count_eq]
  exact List.count_eq_one_of_mem honce (List.mem_map_of_mem hp)

def threeInTurn : SchedulerState :=
  ranEvents [.start, .call (.enqueueReady (some 1)), .call (.enqueueReady (some 2)),
    .call (.enqueueReady (some 3)), .call .schedule]

theorem round_robin_fair_three :
    dispatched threeInTurn 3 = [some 2, some 3, some 1] ∧
    (schedulerSchedule^[3] threeInTurn).gScheduler.readyQueue = [2, 3] :=
  have h := round_robin_fair threeInTurn 1 [2, 3] (by decide) (by decide) ⟨rfl, rfl⟩ (by decide)
    rfl rfl (by decide)
  ⟨h.1, h.2.2.2.1⟩

end ZoraVM.Kernel

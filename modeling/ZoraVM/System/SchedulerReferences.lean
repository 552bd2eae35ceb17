import ZoraVM.Kernel.UserModeScheduling
import ZoraVM.System.ProcessTableKept

namespace ZoraVM.System

open Foundation Kernel

structure Machine where
  table : ProcessTable
  details : Nat → ProcessDetails
  scheduling : SchedulerState

def Machine.system (m : Machine) : ProcessSystem := ⟨m.table, m.scheduling.processes, m.details⟩

def Machine.withSystem (m : Machine) (s : ProcessSystem) : Machine :=
  ⟨s.table, s.details, { m.scheduling with processes := s.processes }⟩

def Machine.withScheduling (m : Machine) (s : SchedulerState) : Machine :=
  { m with scheduling := s }

inductive MachineCall where
  | create (name args : Option Bytes) (priority : ProcessPriority) (memory : Option Nat) (now : Int)
  | kill (pid signal : Int)
  | enqueueReady (pid : Int)
  | blockProcess (pid : Int)
  | unblockProcess (pid : Int)
  | schedule
  deriving DecidableEq, Repr

-- The processes handed to the scheduler are those process_get finds.
def Machine.call (m : Machine) : MachineCall → Machine
  | .create name args priority memory now =>
    m.withSystem (processCreate m.system name args priority memory now).1
  | .kill pid signal => m.withSystem (processKill m.system pid signal).1
  | .enqueueReady pid =>
    m.withScheduling (schedulerEnqueueReady m.scheduling (processGet m.system pid))
  | .blockProcess pid =>
    m.withScheduling (schedulerBlockProcess m.scheduling (processGet m.system pid))
  | .unblockProcess pid =>
    m.withScheduling (schedulerUnblockProcess m.scheduling (processGet m.system pid))
  | .schedule => m.withScheduling (schedulerSchedule m.scheduling)

def ReferencesLive (m : Machine) : Prop :=
  ∀ p ∈ places m.scheduling.gScheduler, p ∈ entries m.table.processes

def memoryFresh (m : Machine) : MachineCall → Bool
  | .create _ _ _ (some p) _ => p ∉ entries m.table.processes
  | _ => true

def killsScheduled (m : Machine) : MachineCall → Bool
  | .kill pid signal => (signal = procSigKill ∨ signal = procSigTerm) ∧ pid ≠ 1 ∧
      (processGet m.system pid).any fun p => p ∈ places m.scheduling.gScheduler
  | _ => false

section Scheduler

variable {s : SchedulerState} {p q : Nat}

structure RoundRobin (g : Scheduler) : Prop where
  algorithm : g.algorithm = .roundRobin
  noIdle : g.idleProcess = none

theorem pick_roundRobin {g : Scheduler} (hg : RoundRobin g) :
    schedulerPickNextProcess g = schedulerDequeueReady g := by
  rw [schedulerPickNextProcess, hg.algorithm]

theorem next_ready {g : Scheduler} (hg : RoundRobin g) (h : nextProcess g = some q) :
    q ∈ g.readyQueue := by
  rw [nextProcess, pick_roundRobin hg, hg.noIdle, Option.or_none, schedulerDequeueReady] at h
  cases hready : g.readyQueue with
  | nil =>
    rw [hready] at h
    cases h
  | cons p rest =>
    rw [hready] at h
    obtain rfl := Option.some.inj h
    exact List.mem_cons_self

theorem mem_places {g : Scheduler} :
    p ∈ places g ↔ g.currentProcess = some p ∨ p ∈ g.readyQueue ∨ p ∈ g.blockedQueue := by
  rw [places, List.mem_append, List.mem_append, Option.mem_toList, or_assoc]

theorem ready_picking (hg : RoundRobin s.gScheduler) :
    ∀ p ∈ (picking s).gScheduler.readyQueue, p ∈ s.gScheduler.readyQueue := by
  intro p hp
  rw [picking, pick_roundRobin hg] at hp
  change p ∈ (queueDequeue s.gScheduler.readyQueue).2 at hp
  cases hready : s.gScheduler.readyQueue with
  | nil =>
    rw [hready] at hp
    exact hp
  | cons q rest =>
    rw [hready] at hp
    exact List.mem_cons_of_mem _ hp

theorem blocked_picking (s : SchedulerState) :
    (picking s).gScheduler.blockedQueue = s.gScheduler.blockedQueue := by
  change (schedulerPickNextProcess s.gScheduler).2.blockedQueue = _
  unfold schedulerPickNextProcess
  split <;> rfl

theorem roundRobin_picking (hg : RoundRobin s.gScheduler) : RoundRobin (picking s).gScheduler := by
  refine ⟨?_, (pick_frame s.gScheduler).2.1.trans hg.noIdle⟩
  change (schedulerPickNextProcess s.gScheduler).2.algorithm = _
  rw [pick_roundRobin hg]
  exact hg.algorithm

theorem places_picking (hg : RoundRobin s.gScheduler) :
    ∀ p ∈ places (picking s).gScheduler, p ∈ places s.gScheduler := by
  intro p hp
  rw [mem_places, current_picking, blocked_picking] at hp
  rw [mem_places]
  rcases hp with hp | hp | hp
  · exact .inl hp
  · exact .inr (.inl (ready_picking hg p hp))
  · exact .inr (.inr hp)

theorem places_requeueOld (s : SchedulerState) :
    ∀ p ∈ places (requeueOld s s.gScheduler.currentProcess).gScheduler, p ∈ places s.gScheduler := by
  intro p hp
  rw [mem_places, requeueOld_ready] at hp
  rw [mem_places]
  rcases hp with hp | hp | hp
  · exact .inl hp
  · rcases List.mem_append.mp hp with hp | hp
    · exact .inr (.inl hp)
    · rw [Option.mem_toList] at hp
      exact .inl (Option.mem_filter_iff.mp hp).1
  · exact .inr (.inr hp)

theorem schedule_enabled_or_same (s : SchedulerState) :
    Started s ∨ schedulerSchedule s = s := by
  by_cases hstop : (!s.gSchedulerInitialized || !s.gScheduler.schedulingEnabled) = true
  · exact .inr (if_pos hstop)
  · obtain ⟨hinit, henabled⟩ : s.gSchedulerInitialized = true ∧ s.gScheduler.schedulingEnabled = true := by
      simpa using hstop
    exact .inl ⟨hinit, henabled⟩

structure Refers (s t : SchedulerState) (more : List Nat) : Prop where
  roundRobin : RoundRobin t.gScheduler
  places : ∀ p ∈ places t.gScheduler, p ∈ places s.gScheduler ∨ p ∈ more

theorem refers_schedule (hg : RoundRobin s.gScheduler) : Refers s (schedulerSchedule s) [] := by
  rcases schedule_enabled_or_same s with hs | hsame
  · have hpicking := places_picking hg
    have hround := roundRobin_picking hg
    have hrequeue : ∀ p ∈ Kernel.places (requeueOld (picking s)
        s.gScheduler.currentProcess).gScheduler, p ∈ Kernel.places s.gScheduler := by
      intro p hp
      rw [← current_picking s] at hp
      exact hpicking p (places_requeueOld (picking s) p hp)
    have hround' : RoundRobin (requeueOld (picking s) s.gScheduler.currentProcess).gScheduler := by
      rw [requeueOld_ready]
      exact ⟨hround.algorithm, hround.noIdle⟩
    rw [schedule_eq hs]
    split
    · exact ⟨hround, fun p hp => .inl (hpicking p hp)⟩
    · cases hnext : nextProcess s.gScheduler with
      | none => exact ⟨hround', fun p hp => .inl (hrequeue p hp)⟩
      | some q =>
        refine ⟨?_, fun p hp => .inl ?_⟩
        · rw [switchTo_scheduler]
          exact ⟨hround'.algorithm, hround'.noIdle⟩
        · rw [mem_places, switchTo_scheduler] at hp
          rcases hp with hp | hp
          · obtain rfl := Option.some.inj hp
            exact mem_places.mpr (.inr (.inl (next_ready hg hnext)))
          · exact hrequeue p (mem_places.mpr (.inr hp))
  · rw [hsame]
    exact ⟨hg, fun p hp => .inl hp⟩

theorem refers_queued {t : SchedulerState} {q : Nat} (hg : RoundRobin t.gScheduler)
    (hcurrent : t.gScheduler.currentProcess = s.gScheduler.currentProcess)
    (hready : ∀ p ∈ t.gScheduler.readyQueue, p ∈ s.gScheduler.readyQueue ∨ p ∈ [q])
    (hblocked : ∀ p ∈ t.gScheduler.blockedQueue, p ∈ s.gScheduler.blockedQueue ∨ p ∈ [q]) :
    Refers s t [q] := by
  refine ⟨hg, fun p hp => ?_⟩
  rw [mem_places] at hp ⊢
  rcases hp with hp | hp | hp
  · exact .inl (.inl (hcurrent ▸ hp))
  · exact (hready p hp).imp_left fun h => .inr (.inl h)
  · exact (hblocked p hp).imp_left fun h => .inr (.inr h)

theorem refers_enqueueReady (hg : RoundRobin s.gScheduler) (handed : Option Nat) :
    Refers s (schedulerEnqueueReady s handed) handed.toList := by
  cases handed with
  | none => exact ⟨hg, fun p hp => .inl hp⟩
  | some q =>
    exact refers_queued ⟨hg.algorithm, hg.noIdle⟩ rfl (fun _ => List.mem_append.mp)
      fun _ hp => .inl hp

theorem refers_parked (hg : RoundRobin s.gScheduler) (q : Nat) : Refers s (parked s q) [q] :=
  refers_queued ⟨hg.algorithm, hg.noIdle⟩ rfl (fun _ hp => .inl (List.mem_of_mem_erase hp))
    fun _ hp => (List.mem_append.mp hp).imp_left List.mem_of_mem_erase

theorem refers_block (hg : RoundRobin s.gScheduler) (handed : Option Nat) :
    Refers s (schedulerBlockProcess s handed) handed.toList := by
  cases handed with
  | none => exact ⟨hg, fun p hp => .inl hp⟩
  | some q =>
    have hparked := refers_parked hg q
    rw [block_eq]
    split
    · have hscheduled := refers_schedule hparked.roundRobin
      refine ⟨hscheduled.roundRobin, fun p hp => ?_⟩
      rcases hscheduled.places p hp with hp | hp
      · exact hparked.places p hp
      · cases hp
    · exact hparked

theorem refers_unblock (hg : RoundRobin s.gScheduler) (handed : Option Nat) :
    Refers s (schedulerUnblockProcess s handed) handed.toList := by
  cases handed with
  | none => exact ⟨hg, fun p hp => .inl hp⟩
  | some q =>
    exact refers_queued ⟨hg.algorithm, hg.noIdle⟩ rfl (fun _ => List.mem_append.mp)
      fun _ hp => .inl (List.mem_of_mem_erase hp)

end Scheduler

section Machine

variable {m : Machine} {c : MachineCall} {p : Nat} {pid signal : Int}

structure MachineKept (m : Machine) : Prop where
  live : ReferencesLive m
  distinct : (entries m.table.processes).Nodup
  roundRobin : RoundRobin m.scheduling.gScheduler

theorem kept_of_refers {s : SchedulerState} {handed : Option Nat} (h : MachineKept m)
    (hrefers : Refers m.scheduling s handed.toList)
    (hhanded : ∀ p, handed = some p → p ∈ entries m.table.processes) :
    MachineKept (m.withScheduling s) := by
  refine ⟨fun p hp => ?_, h.distinct, hrefers.roundRobin⟩
  rcases hrefers.places p hp with hp | hp
  · exact h.live p hp
  · exact hhanded p (Option.mem_toList.mp hp)

theorem handed_live (m : Machine) (pid : Int) (p : Nat) (h : processGet m.system pid = some p) :
    p ∈ entries m.table.processes := List.mem_of_find?_eq_some h

theorem kept_create {name args : Option Bytes} {priority : ProcessPriority} {memory : Option Nat}
    {now : Int} (h : MachineKept m)
    (hfresh : memoryFresh m (.create name args priority memory now) = true) :
    MachineKept (m.call (.create name args priority memory now)) := by
  rcases processCreate_effect m.system name args priority memory now with
    ⟨hsame, -⟩ | ⟨wanted, p, rfl, rfl, -, -, hcreated⟩
  · rw [Machine.call, hsame]
    exact h
  · obtain ⟨pre, post, hl, ht⟩ := hcreated.slot
    have hl' : m.table.processes = pre ++ none :: post := hl
    have ht' : (m.call (.create (some wanted) args priority (some p) now)).table.processes =
        pre ++ some p :: post := ht
    have hnew : p ∉ entries m.table.processes := of_decide_eq_true hfresh
    have hdistinct := h.distinct
    rw [hl', entries_empty] at hnew hdistinct
    refine ⟨fun q hq => ?_, ?_, h.roundRobin⟩
    · have hold := h.live q hq
      rw [hl', entries_empty] at hold
      rw [ht', entries_filled]
      exact List.perm_middle.mem_iff.mpr (List.mem_cons_of_mem _ hold)
    · rw [ht', entries_filled]
      exact List.perm_middle.nodup_iff.mpr (List.nodup_cons.mpr ⟨hnew, hdistinct⟩)

theorem kept_kill (h : MachineKept m) (hspared : killsScheduled m (.kill pid signal) = false) :
    MachineKept (m.call (.kill pid signal)) := by
  rcases processKill_cases m.system pid signal with ⟨hsame, -⟩ | ⟨hkill, hone, -, hremoved⟩
  · have hsame' : (m.call (.kill pid signal)).table = m.table := hsame.table
    refine ⟨fun q hq => ?_, ?_, h.roundRobin⟩
    · rw [hsame']
      exact h.live q hq
    · rw [hsame']
      exact h.distinct
  · obtain ⟨pre, p, post, hget, hl, ht⟩ := hremoved.slot
    have hl' : m.table.processes = pre ++ some p :: post := hl
    have ht' : (m.call (.kill pid signal)).table.processes = pre ++ none :: post := ht
    have hgone : p ∉ places m.scheduling.gScheduler := by
      intro hmem
      refine of_decide_eq_false hspared ⟨hkill, hone, ?_⟩
      rw [hget, Option.any_some]
      exact decide_eq_true hmem
    have hdistinct := h.distinct
    rw [hl', entries_filled, List.perm_middle.nodup_iff] at hdistinct
    refine ⟨fun q hq => ?_, ?_, h.roundRobin⟩
    · have hold := h.live q hq
      rw [hl', entries_filled, List.perm_middle.mem_iff] at hold
      rw [ht', entries_empty]
      rcases List.mem_cons.mp hold with rfl | hold
      · exact absurd hq hgone
      · exact hold
    · rw [ht', entries_empty]
      exact (List.nodup_cons.mp hdistinct).2

theorem kept_call (h : MachineKept m) (hfresh : memoryFresh m c = true)
    (hspared : killsScheduled m c = false) : MachineKept (m.call c) := by
  cases c with
  | create name args priority memory now => exact kept_create h hfresh
  | kill pid signal => exact kept_kill h hspared
  | enqueueReady pid =>
    exact kept_of_refers h (refers_enqueueReady h.roundRobin _) (handed_live m pid)
  | blockProcess pid => exact kept_of_refers h (refers_block h.roundRobin _) (handed_live m pid)
  | unblockProcess pid => exact kept_of_refers h (refers_unblock h.roundRobin _) (handed_live m pid)
  | schedule =>
    have hnone : ∀ p, (none : Option Nat) = some p → p ∈ entries m.table.processes := by
      intro p hp
      cases hp
    have hrefers : Refers m.scheduling (schedulerSchedule m.scheduling) (none : Option Nat).toList :=
      refers_schedule h.roundRobin
    exact kept_of_refers h hrefers hnone

theorem dangles (h : MachineKept m) (hkills : killsScheduled m c = true) :
    ¬ ReferencesLive (m.call c) := by
  cases c with
  | kill pid signal =>
    obtain ⟨hkill, hone, hany⟩ := of_decide_eq_true hkills
    intro hlive
    rcases processKill_cases m.system pid signal with ⟨-, hnot⟩ | ⟨-, -, -, hremoved⟩
    · refine hnot ⟨hkill, hone, ?_⟩
      intro hnone
      rw [hnone] at hany
      cases hany
    · obtain ⟨pre, p, post, hget, hl, ht⟩ := hremoved.slot
      have hl' : m.table.processes = pre ++ some p :: post := hl
      have ht' : (m.call (.kill pid signal)).table.processes = pre ++ none :: post := ht
      rw [hget, Option.any_some] at hany
      have hmem := hlive p (of_decide_eq_true hany)
      have hdistinct := h.distinct
      rw [hl', entries_filled, List.perm_middle.nodup_iff] at hdistinct
      rw [ht', entries_empty] at hmem
      exact (List.nodup_cons.mp hdistinct).1 hmem
  | _ => cases hkills

theorem live_iff_spared (h : MachineKept m) (hfresh : memoryFresh m c = true) :
    ReferencesLive (m.call c) ↔ killsScheduled m c = false := by
  constructor
  · intro hlive
    rcases Bool.eq_false_or_eq_true (killsScheduled m c) with hkills | hspared
    · exact absurd hlive (dangles h hkills)
    · exact hspared
  · intro hspared
    exact (kept_call h hfresh hspared).live

end Machine

section Law

structure NothingScheduled (s : SchedulerState) : Prop where
  places : places s.gScheduler = []
  roundRobin : RoundRobin s.gScheduler

def bootMachine (s : ProcessSystem) (scheduling : SchedulerState) (p : Nat) (now : Int) : Machine :=
  let booted := (processInit { s with processes := scheduling.processes } (some p) now).1
  ⟨booted.table, booted.details, { scheduling with processes := booted.processes }⟩

abbrev MachineRun (s : ProcessSystem) (scheduling : SchedulerState) (p : Nat) (now : Int)
    (allowed : Machine → MachineCall → Bool) :=
  Run (fun m c => some (m.call c)) (fun m c => allowed m c = true) (bootMachine s scheduling p now)

theorem kept_boot {scheduling : SchedulerState} (h : NothingScheduled scheduling)
    (s : ProcessSystem) (p : Nat) (now : Int) : MachineKept (bootMachine s scheduling p now) := by
  refine ⟨fun q hq => ?_, ?_, h.roundRobin⟩
  · have hq' : q ∈ places scheduling.gScheduler := hq
    rw [h.places] at hq'
    cases hq'
  · have hslots : (bootMachine s scheduling p now).table.processes =
        some p :: List.replicate 255 none := rfl
    have hentries : entries (some p :: List.replicate 255 none) =
        p :: entries (List.replicate 255 none) := rfl
    rw [hslots, hentries, entries_replicate_none]
    exact List.nodup_singleton p

theorem references_live_iff {s : ProcessSystem} {scheduling : SchedulerState} {p : Nat} {now : Int}
    {calls : List MachineCall} {m : Machine} (hnothing : NothingScheduled scheduling)
    (hrun : MachineRun s scheduling p now (fun m c => memoryFresh m c && !killsScheduled m c)
      calls m) :
    ReferencesLive m ∧ ∀ c, memoryFresh m c = true →
      (ReferencesLive (m.call c) ↔ killsScheduled m c = false) := by
  have hkept : MachineKept m := by
    refine hrun.invariant (kept_boot hnothing s p now) ?_
    intro m c m' hm hallowed hstep
    obtain rfl := Option.some.inj hstep
    obtain ⟨hfresh, hspared⟩ := Bool.and_eq_true_iff.mp hallowed
    exact kept_call hm hfresh (by simpa using hspared)
  exact ⟨hkept.live, fun c hfresh => live_iff_spared hkept hfresh⟩

def emptySystem : ProcessSystem := ⟨⟨[], 0, 0⟩, fun _ => ⟨0, .running, .realtime⟩,
  fun _ => ⟨0, [], [], 0, 0, 0⟩⟩

def idleScheduler : SchedulerState :=
  started (fun _ => ⟨0, .running, .realtime⟩) (privilegeInit 0x1000 0x2000)

theorem idleScheduler_nothing : NothingScheduled idleScheduler := ⟨rfl, rfl, rfl⟩

def ranMachine (calls : List MachineCall) : Machine :=
  calls.foldl Machine.call (bootMachine emptySystem idleScheduler 0 0)

def secondKilled : List MachineCall :=
  [.create (some (str "sh")) none .normal (some 1) 1, .create (some (str "ed")) none .normal (some 2) 2,
    .enqueueReady 2, .schedule, .kill 3 procSigKill]

theorem second_killed : MachineRun emptySystem idleScheduler 0 0
    (fun m c => memoryFresh m c && !killsScheduled m c) secondKilled (ranMachine secondKilled) :=
  Run.of_exec rfl

theorem references_live_second_killed :
    ReferencesLive (ranMachine secondKilled) ∧ ∀ c, memoryFresh (ranMachine secondKilled) c = true →
      (ReferencesLive ((ranMachine secondKilled).call c) ↔
        killsScheduled (ranMachine secondKilled) c = false) :=
  references_live_iff idleScheduler_nothing second_killed

theorem kill_leaves_ready_reference :
    ¬ ∀ (s : ProcessSystem) (scheduling : SchedulerState) (p : Nat) (now : Int)
      (calls : List MachineCall) (m : Machine), NothingScheduled scheduling →
      MachineRun s scheduling p now memoryFresh calls m → ReferencesLive m := by
  intro hall
  let calls : List MachineCall :=
    [.create (some (str "sh")) none .normal (some 1) 1, .enqueueReady 2, .kill 2 procSigTerm]
  have hrun : MachineRun emptySystem idleScheduler 0 0 memoryFresh calls (ranMachine calls) :=
    Run.of_exec rfl
  have h := hall _ _ _ _ _ _ idleScheduler_nothing hrun 1 (by decide +kernel)
  exact absurd h (by decide +kernel)

end Law

end ZoraVM.System

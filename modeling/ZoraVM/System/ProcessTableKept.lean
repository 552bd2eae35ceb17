import ZoraVM.Foundation.Run
import ZoraVM.System.ProcessTable

namespace ZoraVM.System

open Foundation Kernel

inductive ProcessCall where
  | create (name args : Option Bytes) (priority : ProcessPriority) (memory : Option Nat) (now : Int)
  | kill (pid signal : Int)
  | setState (pid : Int) (state : ProcessState)
  | setPriority (pid : Int) (priority : ProcessPriority)
  deriving DecidableEq, Repr

def processCall (s : ProcessSystem) : ProcessCall → ProcessSystem × Int
  | .create name args priority memory now => processCreate s name args priority memory now
  | .kill pid signal => processKill s pid signal
  | .setState pid state => processSetState s pid state
  | .setPriority pid priority => processSetPriority s pid priority

structure ProcessWorld where
  system : ProcessSystem
  killed : List Int

def killedAfter (killed : List Int) (result : Int) : ProcessCall → List Int
  | .kill pid signal =>
    if result = 0 ∧ (signal = procSigKill ∨ signal = procSigTerm) then pid :: killed else killed
  | _ => killed

def ProcessWorld.call (w : ProcessWorld) (c : ProcessCall) : ProcessWorld :=
  let done := processCall w.system c
  ⟨done.1, killedAfter w.killed done.2 c⟩

def livePids (s : ProcessSystem) : List Int :=
  (entries s.table.processes).map fun p => (s.processes p).pid

structure TableKept (s : ProcessSystem) : Prop where
  slots : s.table.processes.length = maxProcesses
  counted : s.table.processCount = s.table.processes.countP Option.isSome
  bounded : s.table.processCount ≤ maxProcesses
  distinct : (livePids s).Nodup
  positive : ∀ pid ∈ livePids s, 0 < pid
  below : ∀ pid ∈ livePids s, pid < s.table.nextPid
  init : 1 ∈ livePids s

-- calloc gives no memory that a process of the table still has.
def callocFresh (s : ProcessSystem) : ProcessCall → Bool
  | .create _ _ _ (some p) _ => p ∉ entries s.table.processes
  | _ => true

def makesProcess (s : ProcessSystem) : ProcessCall → Bool
  | .create (some _) _ _ (some _) _ => none ∈ s.table.processes
  | _ => false

def pidLeft (s : ProcessSystem) (c : ProcessCall) : Bool :=
  makesProcess s c → s.table.nextPid < 2 ^ 31 - 1

section Effects

variable {s t : ProcessSystem} {p : Nat} {pid signal : Int}

structure SamePids (s t : ProcessSystem) : Prop where
  table : t.table = s.table
  pids : ∀ p, (t.processes p).pid = (s.processes p).pid

theorem SamePids.refl (s : ProcessSystem) : SamePids s s := ⟨rfl, fun _ => rfl⟩

theorem SamePids.trans {r : ProcessSystem} (h : SamePids s t) (h' : SamePids t r) :
    SamePids s r :=
  ⟨h'.table.trans h.table, fun p => (h'.pids p).trans (h.pids p)⟩

theorem samePids_update (process : Process) (hpid : process.pid = (s.processes p).pid) :
    SamePids s { s with processes := Function.update s.processes p process } := by
  refine ⟨rfl, fun q => ?_⟩
  rcases Decidable.em (q = p) with rfl | hq
  · exact (congrArg Process.pid (Function.update_self _ _ _)).trans hpid
  · exact congrArg Process.pid (Function.update_of_ne hq _ _)

theorem SamePids.live (h : SamePids s t) : livePids t = livePids s := by
  rw [livePids, livePids, h.table]
  exact List.map_congr_left fun p _ => h.pids p

theorem SamePids.kept (h : SamePids s t) (hs : TableKept s) : TableKept t := by
  obtain ⟨hslots, hcounted, hbounded, hdistinct, hpositive, hbelow, hinit⟩ := hs
  constructor <;> simpa only [h.table, h.live]

theorem free_iff_count (h : TableKept s) :
    none ∈ s.table.processes ↔ s.table.processCount < maxProcesses := by
  have hcounted := h.counted
  have hslots := h.slots
  rw [← length_entries] at hcounted
  constructor
  · intro hfree
    have hlt := length_entries_lt hfree
    omega
  · intro hlt
    by_contra hfull
    have hlength := length_entries_full hfull
    omega

structure Created (s t : ProcessSystem) (p : Nat) : Prop where
  slot : ∃ pre post, s.table.processes = pre ++ none :: post ∧
    t.table.processes = pre ++ some p :: post
  count : t.table.processCount = s.table.processCount + 1
  next : t.table.nextPid = int32 (s.table.nextPid + 1)
  pid : (t.processes p).pid = s.table.nextPid
  frame : ∀ q, q ≠ p → t.processes q = s.processes q

theorem processCreate_effect (s : ProcessSystem) (name args : Option Bytes)
    (priority : ProcessPriority) (memory : Option Nat) (now : Int) :
    (processCreate s name args priority memory now = (s, -1) ∧
      (makesProcess s (.create name args priority memory now) = true →
        s.table.processCount ≥ maxProcesses)) ∨
    ∃ wanted p, name = some wanted ∧ memory = some p ∧
      makesProcess s (.create name args priority memory now) = true ∧
      (processCreate s name args priority memory now).2 = s.table.nextPid ∧
      Created s (processCreate s name args priority memory now).1 p := by
  cases name with
  | none => exact .inl ⟨rfl, fun h => by cases h⟩
  | some wanted =>
    rw [processCreate]
    split
    · next hfull => exact .inl ⟨rfl, fun _ => hfull⟩
    · cases memory with
      | none => cases firstFree s.table.processes <;> exact .inl ⟨rfl, fun h => by cases h⟩
      | some p =>
        cases hslot : firstFree s.table.processes with
        | none =>
          refine .inl ⟨rfl, fun h => ?_⟩
          exact absurd (of_decide_eq_true h) (firstFree_none hslot)
        | some slot =>
          obtain ⟨pre, post, hl, hset⟩ := firstFree_some hslot
          have hfree : none ∈ s.table.processes := by
            rw [hl]
            exact List.mem_append_right _ List.mem_cons_self
          refine .inr ⟨wanted, p, rfl, rfl, decide_eq_true hfree, rfl, ?_⟩
          refine ⟨⟨pre, post, hl, hset (some p)⟩, rfl, rfl, ?_, fun q hq => Function.update_of_ne hq _ _⟩
          change (Function.update s.processes p ⟨s.table.nextPid, .running, priority⟩ p).pid = _
          rw [Function.update_self]

theorem processCreate_cases (h : TableKept s) (name args : Option Bytes)
    (priority : ProcessPriority) (memory : Option Nat) (now : Int) :
    (makesProcess s (.create name args priority memory now) = false ∧
      processCreate s name args priority memory now = (s, -1)) ∨
    ∃ wanted p, name = some wanted ∧ memory = some p ∧
      makesProcess s (.create name args priority memory now) = true ∧
      (processCreate s name args priority memory now).2 = s.table.nextPid ∧
      Created s (processCreate s name args priority memory now).1 p := by
  rcases processCreate_effect s name args priority memory now with ⟨hsame, hfull⟩ | hmade
  · refine .inl ⟨?_, hsame⟩
    -- In a kept table a free slot and a full count exclude each other.
    by_contra hmakes
    rw [Bool.not_eq_false] at hmakes
    have hcount := hfull hmakes
    cases name with
    | none => cases hmakes
    | some wanted =>
      cases memory with
      | none => cases hmakes
      | some p =>
        have hlt := (free_iff_count h).mp (of_decide_eq_true hmakes)
        omega
  · exact .inr hmade

structure Removed (s t : ProcessSystem) (pid : Int) : Prop where
  slot : ∃ pre p post, processGet s pid = some p ∧ s.table.processes = pre ++ some p :: post ∧
    t.table.processes = pre ++ none :: post
  count : t.table.processCount = s.table.processCount - 1
  next : t.table.nextPid = s.table.nextPid
  pids : ∀ q, (t.processes q).pid = (s.processes q).pid

theorem processGet_some (h : processGet s pid = some p) :
    p ∈ entries s.table.processes ∧ (s.processes p).pid = pid :=
  ⟨List.mem_of_find?_eq_some h, by simpa using List.find?_some h⟩

theorem processGet_none (h : processGet s pid = none) : pid ∉ livePids s := by
  intro hmem
  obtain ⟨p, hp, hpid⟩ := List.mem_map.mp hmem
  have hne := List.find?_eq_none.mp h p hp
  exact hne (decide_eq_true hpid)

theorem find_slot {l : List (Option Nat)} {f : Nat → Bool} {i : Nat}
    (hfind : (entries l).find? f = some p) (hslot : l.findIdx? (fun o => o.any f) = some i) :
    ∃ pre post, l = pre ++ some p :: post ∧ l.set i none = pre ++ none :: post := by
  induction l generalizing i with
  | nil => cases hfind
  | cons o l ih =>
    rw [List.findIdx?_cons] at hslot
    cases o with
    | none =>
      have hslot' : (l.findIdx? fun o => o.any f).map (· + 1) = some i := hslot
      obtain ⟨j, hj, rfl⟩ := Option.map_eq_some_iff.mp hslot'
      obtain ⟨pre, post, hl, hset⟩ := ih hfind hj
      refine ⟨none :: pre, post, by rw [hl, List.cons_append], ?_⟩
      rw [List.set_cons_succ, hset, List.cons_append]
    | some q =>
      have hcons : entries (some q :: l) = q :: entries l := rfl
      rw [hcons] at hfind
      rcases Bool.eq_false_or_eq_true (f q) with hq | hq
      · rw [List.find?_cons_of_pos hq] at hfind
        obtain rfl := Option.some.inj hfind
        rw [Option.any_some, hq] at hslot
        obtain rfl := Option.some.inj hslot
        exact ⟨[], l, rfl, rfl⟩
      · rw [List.find?_cons_of_neg (by simp [hq])] at hfind
        rw [Option.any_some, hq] at hslot
        have hslot' : (l.findIdx? fun o => o.any f).map (· + 1) = some i := hslot
        obtain ⟨j, hj, rfl⟩ := Option.map_eq_some_iff.mp hslot'
        obtain ⟨pre, post, hl, hset⟩ := ih hfind hj
        refine ⟨some q :: pre, post, by rw [hl, List.cons_append], ?_⟩
        rw [List.set_cons_succ, hset, List.cons_append]

theorem processRemove_removed (h : SamePids s t) (hget : processGet s pid = some p) :
    Removed s (processRemove t pid) pid := by
  have hhas : hasPid t pid = fun o => o.any fun q => (s.processes q).pid = pid := by
    funext o
    cases o with
    | none => rfl
    | some q => exact congrArg (fun n : Int => decide (n = pid)) (h.pids q)
  have hmem := mem_entries.mp (processGet_some hget).1
  rw [processRemove, hhas, h.table]
  cases hslot : s.table.processes.findIdx? fun o => o.any fun q => (s.processes q).pid = pid with
  | none =>
    have hnot := List.findIdx?_eq_none_iff.mp hslot (some p) hmem
    rw [Option.any_some, List.find?_some hget] at hnot
    cases hnot
  | some slot =>
    obtain ⟨pre, post, hl, hset⟩ := find_slot hget hslot
    exact ⟨⟨pre, p, post, hget, hl, hset⟩, rfl, rfl, h.pids⟩

theorem processKill_cases (s : ProcessSystem) (pid signal : Int) :
    (SamePids s (processKill s pid signal).1 ∧
      ¬ ((signal = procSigKill ∨ signal = procSigTerm) ∧ pid ≠ 1 ∧ processGet s pid ≠ none)) ∨
    (signal = procSigKill ∨ signal = procSigTerm) ∧ pid ≠ 1 ∧ (processKill s pid signal).2 = 0 ∧
      Removed s (processKill s pid signal).1 pid := by
  rw [processKill]
  cases hget : processGet s pid with
  | none => exact .inl ⟨SamePids.refl s, fun h => h.2.2 rfl⟩
  | some p =>
    rcases Decidable.em (pid = 1) with hone | hone
    · simp only [if_pos hone]
      exact .inl ⟨SamePids.refl s, fun h => h.2.1 hone⟩
    · have hsame (state : ProcessState) : SamePids s (s.withState p state) :=
        samePids_update _ rfl
      simp only [if_neg hone]
      rcases Decidable.em (signal = procSigKill ∨ signal = procSigTerm) with hkill | hkill
      · simp only [if_pos hkill]
        refine .inr ⟨hkill, hone, trivial, ?_⟩
        have hmarked : SamePids s { s.withState p .zombie with
            details := Function.update (s.withState p .zombie).details p
              { (s.withState p .zombie).details p with exitCode := signal } } :=
          ⟨rfl, (hsame .zombie).pids⟩
        exact processRemove_removed hmarked hget
      · simp only [if_neg hkill]
        refine .inl ⟨?_, fun h => hkill h.1⟩
        split_ifs
        · exact hsame .stopped
        · exact hsame .running
        · exact SamePids.refl s

theorem processKill_answers (h : (processKill s pid signal).2 = 0) :
    pid ≠ 1 ∧ processGet s pid ≠ none := by
  rw [processKill] at h
  cases hget : processGet s pid with
  | none =>
    rw [hget] at h
    cases h
  | some p =>
    refine ⟨?_, Option.some_ne_none p⟩
    rintro rfl
    rw [hget] at h
    cases h

theorem processSetState_same (s : ProcessSystem) (pid : Int) (state : ProcessState) :
    SamePids s (processSetState s pid state).1 := by
  rw [processSetState]
  cases processGet s pid with
  | none => exact SamePids.refl s
  | some p => exact samePids_update _ rfl

theorem processSetPriority_same (s : ProcessSystem) (pid : Int) (priority : ProcessPriority) :
    SamePids s (processSetPriority s pid priority).1 := by
  rw [processSetPriority]
  cases processGet s pid with
  | none => exact SamePids.refl s
  | some p => exact samePids_update _ rfl

end Effects

end ZoraVM.System

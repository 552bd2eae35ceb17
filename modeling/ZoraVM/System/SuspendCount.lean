import ZoraVM.System.RealProcess

namespace ZoraVM.System.Real

open Foundation

-- The real processes beside the suspend count that the host keeps for the main thread of one of them.
structure CountedProcs where
  procs : RealProcs
  suspendCount : Nat
  deriving DecidableEq, Repr

def suspendThread (count : Nat) : Nat := count + 1

def resumeThread (count : Nat) : Nat := count - 1

def countedSuspend (w : CountedProcs) (pid : Int) : CountedProcs × Int :=
  match processRealGet w.procs pid with
  | none => (w, -1)
  | some (i, proc) =>
    if proc.winThread then
      (⟨w.procs.put i { proc with state := .stopped }, suspendThread w.suspendCount⟩, 0)
    else (w, -1)

def countedResume (w : CountedProcs) (pid : Int) : CountedProcs × Int :=
  match processRealGet w.procs pid with
  | none => (w, -1)
  | some (i, proc) =>
    if proc.winThread then
      (⟨w.procs.put i { proc with state := .running }, resumeThread w.suspendCount⟩, 0)
    else (w, -1)

def countedKill (w : CountedProcs) (pid signal : Int) : CountedProcs × Int :=
  match processRealGet w.procs pid with
  | none => (w, -1)
  | some (_, proc) =>
    if pid = 1 then (w, -1)
    else if proc.winHandle = false then (w, -1)
    else if signal = procSigKill ∨ signal = procSigTerm then
      (⟨(processRealKill w.procs pid signal).1, w.suspendCount⟩, 0)
    else if signal = procSigStop then countedSuspend w pid
    else if signal = procSigCont then countedResume w pid
    else (w, -1)

section Projection

variable (w : CountedProcs) (pid signal : Int)

def CountedProcs.erase (done : CountedProcs × Int) : RealProcs × Int := (done.1.procs, done.2)

theorem countedSuspend_erase :
    CountedProcs.erase (countedSuspend w pid) = processRealSuspend w.procs pid := by
  unfold countedSuspend processRealSuspend
  cases processRealGet w.procs pid with
  | none => rfl
  | some found =>
    dsimp only
    split <;> rfl

theorem countedResume_erase :
    CountedProcs.erase (countedResume w pid) = processRealResume w.procs pid := by
  unfold countedResume processRealResume
  cases processRealGet w.procs pid with
  | none => rfl
  | some found =>
    dsimp only
    split <;> rfl

theorem countedKill_erase :
    CountedProcs.erase (countedKill w pid signal) = processRealKill w.procs pid signal := by
  cases hget : processRealGet w.procs pid with
  | none => simp only [countedKill, processRealKill, hget, CountedProcs.erase]
  | some found =>
    simp only [countedKill, processRealKill, hget]
    split
    · rfl
    · split
      · rfl
      · split
        · rfl
        · split
          · exact countedSuspend_erase w pid
          · split
            · exact countedResume_erase w pid
            · rfl

end Projection

inductive StopCall where
  | suspend
  | resume
  | stopSignal
  | contSignal
  deriving DecidableEq, Repr

def stopCall (pid : Int) (w : CountedProcs) : StopCall → CountedProcs
  | .suspend => (countedSuspend w pid).1
  | .resume => (countedResume w pid).1
  | .stopSignal => (countedKill w pid procSigStop).1
  | .contSignal => (countedKill w pid procSigCont).1

def stopCalls (pid : Int) (w : CountedProcs) (calls : List StopCall) : CountedProcs :=
  calls.foldl (stopCall pid) w

-- The call comes to ResumeThread: a signal to init does not.
def resumes (pid : Int) : StopCall → Bool
  | .resume => true
  | .contSignal => pid ≠ 1
  | _ => false

def StateAgrees (w : CountedProcs) (pid : Int) : Prop :=
  ∃ i proc, processRealGet w.procs pid = some (i, proc) ∧
    (proc.state = .running ↔ w.suspendCount = 0)

structure LiveAs (w : CountedProcs) (pid : Int) (st : RealProcessState) (count : Nat) : Prop where
  found : ∃ i proc, processRealGet w.procs pid = some (i, proc) ∧ proc.winHandle = true ∧
    proc.winThread = true ∧ proc.state = st
  counted : w.suspendCount = count

variable {w : CountedProcs} {pid : Int} {st : RealProcessState} {count : Nat}

theorem processRealGet_put {s : RealProcs} {i : Nat} {proc new : RealProcess}
    (h : processRealGet s pid = some (i, proc)) (hpid : new.pid = proc.pid) :
    processRealGet (s.put i new) pid = some (i, new) :=
  findEntry_set h (decide_eq_true (hpid.trans (processRealGet_some h).1))

theorem LiveAs.countedSuspend (h : LiveAs w pid st count) :
    LiveAs (countedSuspend w pid).1 pid .stopped (count + 1) := by
  obtain ⟨⟨i, proc, hget, hhandle, hthread, -⟩, hcount⟩ := h
  rw [Real.countedSuspend, hget]
  dsimp only
  rw [if_pos hthread]
  exact ⟨⟨i, _, processRealGet_put hget rfl, hhandle, hthread, rfl⟩, congrArg suspendThread hcount⟩

theorem LiveAs.countedResume (h : LiveAs w pid st count) :
    LiveAs (countedResume w pid).1 pid .running (count - 1) := by
  obtain ⟨⟨i, proc, hget, hhandle, hthread, -⟩, hcount⟩ := h
  rw [Real.countedResume, hget]
  dsimp only
  rw [if_pos hthread]
  exact ⟨⟨i, _, processRealGet_put hget rfl, hhandle, hthread, rfl⟩, congrArg resumeThread hcount⟩

theorem LiveAs.countedKill_init (h : LiveAs w 1 st count) (signal : Int) :
    (countedKill w 1 signal).1 = w := by
  obtain ⟨⟨i, proc, hget, -, -, -⟩, -⟩ := h
  simp only [countedKill, hget, if_true]

theorem LiveAs.countedKill_stop (h : LiveAs w pid st count) (hpid : pid ≠ 1) :
    countedKill w pid procSigStop = Real.countedSuspend w pid := by
  obtain ⟨⟨i, proc, hget, hhandle, -, -⟩, -⟩ := h
  simp [countedKill, hget, hpid, hhandle, procSigStop, procSigKill, procSigTerm]

theorem LiveAs.countedKill_cont (h : LiveAs w pid st count) (hpid : pid ≠ 1) :
    countedKill w pid procSigCont = Real.countedResume w pid := by
  obtain ⟨⟨i, proc, hget, hhandle, -, -⟩, -⟩ := h
  simp [countedKill, hget, hpid, hhandle, procSigStop, procSigCont, procSigKill, procSigTerm]

theorem LiveAs.agrees_iff (h : LiveAs w pid st count) :
    StateAgrees w pid ↔ (st = .running ↔ count = 0) := by
  obtain ⟨⟨i, proc, hget, -, -, rfl⟩, rfl⟩ := h
  constructor
  · rintro ⟨j, found, hfound, hiff⟩
    rw [hget] at hfound
    cases hfound
    exact hiff
  · exact fun hiff => ⟨i, proc, hget, hiff⟩

theorem LiveAs.stopCall (h : LiveAs w pid st count) (c : StopCall) :
    (resumes pid c = true ∧ LiveAs (stopCall pid w c) pid .running (count - 1)) ∨
      resumes pid c = false ∧ (LiveAs (stopCall pid w c) pid .stopped (count + 1) ∨
        LiveAs (stopCall pid w c) pid st count) := by
  cases c with
  | suspend => exact .inr ⟨rfl, .inl h.countedSuspend⟩
  | resume => exact .inl ⟨rfl, h.countedResume⟩
  | stopSignal =>
    refine .inr ⟨rfl, ?_⟩
    by_cases hpid : pid = 1
    · subst hpid
      rw [Real.stopCall, h.countedKill_init]
      exact .inr h
    · rw [Real.stopCall, h.countedKill_stop hpid]
      exact .inl h.countedSuspend
  | contSignal =>
    by_cases hpid : pid = 1
    · subst hpid
      rw [Real.stopCall, h.countedKill_init]
      exact .inr ⟨rfl, .inr h⟩
    · rw [Real.stopCall, h.countedKill_cont hpid]
      exact .inl ⟨by simpa [resumes] using hpid, h.countedResume⟩

def Live (w : CountedProcs) (pid : Int) : Prop := ∃ st count, LiveAs w pid st count

theorem Live.stopCall (h : Live w pid) (c : StopCall) : Live (stopCall pid w c) pid := by
  obtain ⟨st, count, hlive⟩ := h
  rcases hlive.stopCall c with ⟨-, hnext⟩ | ⟨-, hnext | hnext⟩ <;> exact ⟨_, _, hnext⟩

theorem Live.stopCalls (h : Live w pid) (calls : List StopCall) :
    Live (stopCalls pid w calls) pid := by
  induction calls generalizing w with
  | nil => exact h
  | cons c calls ih => exact ih (h.stopCall c)

theorem stopCall_agrees_iff (h : Live w pid) (hagrees : StateAgrees w pid) (c : StopCall) :
    StateAgrees (stopCall pid w c) pid ↔ (resumes pid c = true → w.suspendCount ≤ 1) := by
  obtain ⟨st, count, hlive⟩ := h
  have hcount := hlive.counted
  rcases hlive.stopCall c with ⟨hres, hnext⟩ | ⟨hres, hnext | hnext⟩
  · rw [hnext.agrees_iff, hcount]
    simp only [hres, true_implies, true_iff]
    omega
  · rw [hnext.agrees_iff]
    simp [hres]
  · rw [hnext.agrees_iff, ← hlive.agrees_iff]
    simp [hres, hagrees]

theorem stopCalls_concat (calls : List StopCall) (c : StopCall) :
    stopCalls pid w (calls ++ [c]) = stopCall pid (stopCalls pid w calls) c := by
  rw [stopCalls, List.foldl_append]
  rfl

theorem state_agrees_iff (w : CountedProcs) (pid : Int) (hlive : Live w pid)
    (hagrees : StateAgrees w pid) (calls : List StopCall) :
    (∀ before, before <+: calls → StateAgrees (stopCalls pid w before) pid) ↔
      ∀ before c, before ++ [c] <+: calls → resumes pid c = true →
        (stopCalls pid w before).suspendCount ≤ 1 := by
  constructor
  · intro hall before c hprefix
    have hbefore := hall before ((List.prefix_append before [c]).trans hprefix)
    have hafter := hall _ hprefix
    rw [stopCalls_concat] at hafter
    exact (stopCall_agrees_iff (hlive.stopCalls before) hbefore c).mp hafter
  · intro hcond before hprefix
    induction before using List.reverseRecOn with
    | nil => exact hagrees
    | append_singleton before c ih =>
      have hbefore := ih ((List.prefix_append before [c]).trans hprefix)
      rw [stopCalls_concat]
      exact (stopCall_agrees_iff (hlive.stopCalls before) hbefore c).mpr (hcond before c hprefix)

def oneSpawned : CountedProcs :=
  ⟨processRealInit.enter 1 (newProcess 2 (str "ping") (str "ping") true), 0⟩

theorem oneSpawned_live : LiveAs oneSpawned 2 .running 0 := ⟨⟨1, _, rfl, rfl, rfl, rfl⟩, rfl⟩

theorem state_agrees_iff_ping :
    (∀ before, before <+: [.suspend, .contSignal] →
        StateAgrees (stopCalls 2 oneSpawned before) 2) ↔
      ∀ before c, before ++ [c] <+: [.suspend, .contSignal] → resumes 2 c = true →
        (stopCalls 2 oneSpawned before).suspendCount ≤ 1 :=
  state_agrees_iff oneSpawned 2 ⟨_, _, oneSpawned_live⟩
    (oneSpawned_live.agrees_iff.mpr (iff_of_true rfl rfl)) _

theorem running_while_suspended :
    ¬ ∀ (w : CountedProcs) (pid : Int) (calls : List StopCall), Live w pid → StateAgrees w pid →
      StateAgrees (stopCalls pid w calls) pid := by
  intro hall
  have hlive := oneSpawned_live
  have hafter := hlive.countedSuspend.countedSuspend.countedResume
  have hagrees := hall oneSpawned 2 [.suspend, .suspend, .resume] ⟨_, _, hlive⟩
    (hlive.agrees_iff.mpr (iff_of_true rfl rfl))
  have hcount : 0 + 1 + 1 - 1 = 0 := (hafter.agrees_iff.mp hagrees).mp rfl
  omega

end ZoraVM.System.Real

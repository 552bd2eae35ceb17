import ZoraVM.Foundation.CString
import ZoraVM.Foundation.Registry
import ZoraVM.Foundation.Run

namespace ZoraVM.Kernel

open Foundation

section Model

structure ProcessInfo where
  pid : Int
  name : Bytes
  priority : Int
  cpuUsage : Nat
  memoryUsage : Nat
  startTime : Int
  status : Bytes
  deriving DecidableEq, Repr

-- The first `process_count` entries of system_processes.
structure Monitor where
  processes : List ProcessInfo
  systemStartTime : Int
  deriving DecidableEq, Repr

-- What the two calls of rand() and time() answer.
structure Draws where
  cpu : Nat
  memory : Nat
  now : Int
  deriving DecidableEq, Repr

inductive MonitorCall where
  | add (name : Bytes) (priority : Int) (draws : Draws)
  | kill (pid : Int)
  deriving DecidableEq, Repr

def maxMonitored : Nat := 64

def systemProcesses (now : Int) : List ProcessInfo :=
  [⟨1, str "kernel", 0, 5, 2048, now, str "running"⟩,
    ⟨2, str "init", 10, 1, 512, now, str "running"⟩,
    ⟨3, str "merl-shell", 20, 8, 4096, now, str "running"⟩,
    ⟨4, str "vfs-daemon", 15, 3, 1024, now, str "running"⟩,
    ⟨5, str "net-stack", 25, 2, 768, now, str "running"⟩]

def systemMonitorInit (now : Int) : Monitor := ⟨systemProcesses now, now⟩

def addedProcess (count : Nat) (name : Bytes) (priority : Int) (d : Draws) : ProcessInfo :=
  ⟨count + 1, clip 64 name, priority, d.cpu % 10, 512 + d.memory % 2048, d.now, str "running"⟩

def systemMonitorAddProcess (m : Monitor) (name : Bytes) (priority : Int) (d : Draws) :
    Int × Monitor :=
  if maxMonitored ≤ m.processes.length then (-1, m)
  else
    let new := addedProcess m.processes.length name priority d
    (new.pid, { m with processes := m.processes ++ [new] })

def systemMonitorKillProcess (m : Monitor) (pid : Int) : Int × Monitor :=
  match m.processes.findIdx? (fun p => p.pid = pid) with
  | none => (-1, m)
  | some i =>
    if pid ≤ 5 then (-1, m) else (0, { m with processes := m.processes.eraseIdx i })

def monitorCall (m : Monitor) : MonitorCall → Int × Monitor
  | .add name priority d => systemMonitorAddProcess m name priority d
  | .kill pid => systemMonitorKillProcess m pid

def monitorStep (m : Monitor) (c : MonitorCall) : Option Monitor := some (monitorCall m c).2

end Model

section History

structure Birth where
  process : ProcessInfo
  madeBy : Option Nat
  deriving DecidableEq, Repr

-- `returned` has the pids of the adds that made a process, in order.
structure History where
  births : List Birth
  returned : List Int
  deriving DecidableEq, Repr

def Birth.pid (b : Birth) : Int := b.process.pid

def bootHistory (now : Int) : History := ⟨(systemProcesses now).map (⟨·, none⟩), []⟩

def newBirth (h : History) (name : Bytes) (priority : Int) (d : Draws) : Birth :=
  ⟨addedProcess h.births.length name priority d, some h.returned.length⟩

def historyStep (h : History) : MonitorCall → History
  | .add name priority d =>
    if maxMonitored ≤ h.births.length then h
    else
      ⟨h.births ++ [newBirth h name priority d], h.returned ++ [(newBirth h name priority d).pid]⟩
  | .kill pid => if pid ≤ 5 then h else { h with births := withdraw Birth.pid h.births pid }

def history (now : Int) (calls : List MonitorCall) : History :=
  calls.foldl historyStep (bootHistory now)

def LastReturned (h : History) (pid : Int) (k : Nat) : Prop :=
  h.returned[k]? = some pid ∧ ∀ j, k < j → h.returned[j]? ≠ some pid

end History

section Definitions

def pids (m : Monitor) : List Int := m.processes.map ProcessInfo.pid

def addsFresh (m : Monitor) : MonitorCall → Bool
  | .add _ _ _ =>
    decide (maxMonitored ≤ m.processes.length) || !(pids m).contains (m.processes.length + 1)
  | .kill _ => true

structure MonitorKept (m : Monitor) (h : History) : Prop where
  tracks : h.births.map Birth.process = m.processes
  distinct : (pids m).Nodup
  system : ∀ pid, 1 ≤ pid → pid ≤ 5 → pid ∈ pids m
  kills : ∀ pid, (systemMonitorKillProcess m pid).1 = 0 → ∃ pre b post k,
    h.births = pre ++ b :: post ∧ b.pid = pid ∧ b.madeBy = some k ∧ LastReturned h pid k ∧
      (systemMonitorKillProcess m pid).2.processes = (pre ++ post).map Birth.process

end Definitions

section Calls

variable {m : Monitor} {h : History} {pid : Int} {now : Int}

theorem kill_eq (m : Monitor) (pid : Int) :
    (systemMonitorKillProcess m pid).2.processes =
      if pid ≤ 5 then m.processes else withdraw ProcessInfo.pid m.processes pid := by
  rw [withdraw, List.eraseP_eq_eraseIdx, systemMonitorKillProcess]
  cases m.processes.findIdx? (fun p => p.pid = pid) with
  | none => exact (ite_self _).symm
  | some i =>
    by_cases hsystem : pid ≤ 5
    · simp [hsystem]
    · simp [hsystem]

theorem kill_zero_iff : (systemMonitorKillProcess m pid).1 = 0 ↔ 5 < pid ∧ pid ∈ pids m := by
  have hfound : (m.processes.findIdx? (fun p => p.pid = pid)).isSome = true ↔ pid ∈ pids m := by
    simp [pids, List.findIdx?_isSome]
  rw [← hfound, systemMonitorKillProcess]
  cases m.processes.findIdx? (fun p => p.pid = pid) with
  | none => simp
  | some i =>
    by_cases hsystem : pid ≤ 5
    · simp [hsystem]
    · have hlow := Int.not_le.mp hsystem
      simp [hsystem, hlow]

theorem add_eq (m : Monitor) (name : Bytes) (priority : Int) (d : Draws) :
    (systemMonitorAddProcess m name priority d).2.processes =
      if maxMonitored ≤ m.processes.length then m.processes
      else m.processes ++ [addedProcess m.processes.length name priority d] := by
  rw [systemMonitorAddProcess]
  split
  · rfl
  · rfl

theorem tracks_step (htracks : h.births.map Birth.process = m.processes) (c : MonitorCall) :
    (historyStep h c).births.map Birth.process = (monitorCall m c).2.processes := by
  have hlength : h.births.length = m.processes.length := by rw [← htracks, List.length_map]
  cases c with
  | add name priority d =>
    rw [historyStep, monitorCall, add_eq, hlength]
    split
    · exact htracks
    · rw [List.map_append, htracks, List.map_singleton, newBirth, hlength]
  | kill pid =>
    rw [historyStep, monitorCall, kill_eq]
    split
    · exact htracks
    · rw [← htracks, withdraw, withdraw, List.eraseP_map]
      rfl

end Calls

section Steps

structure Accounted (now : Int) (m : Monitor) (h : History) : Prop where
  tracks : h.births.map Birth.process = m.processes
  distinct : KeysDistinct Birth.pid h.births
  others : ∃ rest, h.births = (bootHistory now).births ++ rest ∧
    ∀ b ∈ rest, 5 < b.pid ∧ ∃ k, b.madeBy = some k ∧ LastReturned h b.pid k

variable {now : Int} {m : Monitor} {h : History} {c : MonitorCall}

theorem Accounted.pids_eq (ha : Accounted now m h) : pids m = h.births.map Birth.pid := by
  rw [pids, ← ha.tracks, List.map_map]
  rfl

theorem Accounted.length_eq (ha : Accounted now m h) : h.births.length = m.processes.length := by
  rw [← ha.tracks, List.length_map]

theorem boot_pids (now : Int) : (bootHistory now).births.map Birth.pid = [1, 2, 3, 4, 5] := rfl

theorem boot_pid_iff {pid : Int} :
    pid ∈ (bootHistory now).births.map Birth.pid ↔ 1 ≤ pid ∧ pid ≤ 5 := by
  rw [boot_pids]
  simp only [List.mem_cons, List.not_mem_nil, or_false]
  omega

theorem boot_pid_le {b : Birth} (hb : b ∈ (bootHistory now).births) : b.pid ≤ 5 :=
  (boot_pid_iff.mp (List.mem_map_of_mem hb)).2

theorem accounted_boot (now : Int) :
    Accounted now (systemMonitorInit now) (history now []) := by
  refine ⟨rfl, ?_, [], (List.append_nil _).symm, fun _ hb => absurd hb List.not_mem_nil⟩
  show ((bootHistory now).births.map Birth.pid).Nodup
  rw [boot_pids]
  decide

theorem LastReturned.append {k : Nat} {pid new : Int} (hl : LastReturned h pid k) (hne : pid ≠ new)
    (births : List Birth) : LastReturned ⟨births, h.returned ++ [new]⟩ pid k := by
  obtain ⟨hk, hlater⟩ := hl
  have hlt : k < h.returned.length := (List.getElem?_eq_some_iff.mp hk).1
  refine ⟨by rw [List.getElem?_append_left hlt, hk], fun j hj => ?_⟩
  rcases Nat.lt_trichotomy j h.returned.length with hj' | rfl | hj'
  · rw [List.getElem?_append_left hj']
    exact hlater j hj
  · rw [List.getElem?_concat_length]
    exact fun he => hne (Option.some.inj he).symm
  · rw [List.getElem?_eq_none (by simp; omega)]
    exact (Option.some_ne_none pid).symm

theorem lastReturned_concat (births : List Birth) (l : List Int) (pid : Int) :
    LastReturned ⟨births, l ++ [pid]⟩ pid l.length := by
  refine ⟨List.getElem?_concat_length, fun j hj => ?_⟩
  rw [List.getElem?_eq_none (by simp; omega)]
  exact (Option.some_ne_none pid).symm

theorem accounted_add {name : Bytes} {priority : Int} {d : Draws} (ha : Accounted now m h)
    (hfresh : addsFresh m (.add name priority d) = true) :
    Accounted now (monitorCall m (.add name priority d)).2 (historyStep h (.add name priority d)) := by
  obtain ⟨rest, hrest, hothers⟩ := ha.others
  have htracks := tracks_step ha.tracks (.add name priority d)
  rw [historyStep] at htracks ⊢
  by_cases hfull : maxMonitored ≤ h.births.length
  · rw [if_pos hfull] at htracks ⊢
    exact ⟨htracks, ha.distinct, rest, hrest, hothers⟩
  · rw [if_neg hfull] at htracks ⊢
    have hfree : ∀ b ∈ h.births, b.pid ≠ (h.births.length + 1 : Int) := by
      rw [ha.length_eq] at hfull ⊢
      have hno : (m.processes.length + 1 : Int) ∉ pids m := by simpa [addsFresh, hfull] using hfresh
      rw [ha.pids_eq] at hno
      exact fun b hb he => hno (he ▸ List.mem_map_of_mem hb)
    refine ⟨htracks, keysDistinct_append ha.distinct hfree,
      rest ++ [newBirth h name priority d], ?_, ?_⟩
    · show h.births ++ [newBirth h name priority d] = _
      rw [hrest, List.append_assoc]
    · intro b hb
      rcases List.mem_append.mp hb with hb | hb
      · obtain ⟨hlow, k, hk, hlast⟩ := hothers b hb
        have hmem : b ∈ h.births := hrest ▸ List.mem_append_right _ hb
        exact ⟨hlow, k, hk, hlast.append (hfree b hmem) _⟩
      · obtain rfl := List.mem_singleton.mp hb
        have hmany : 5 ≤ h.births.length := by
          rw [hrest, List.length_append]
          exact Nat.le_add_right 5 _
        refine ⟨?_, _, rfl, lastReturned_concat _ _ _⟩
        show (5 : Int) < h.births.length + 1
        omega

theorem accounted_kill (ha : Accounted now m h) (pid : Int) :
    Accounted now (monitorCall m (.kill pid)).2 (historyStep h (.kill pid)) := by
  obtain ⟨rest, hrest, hothers⟩ := ha.others
  have htracks := tracks_step ha.tracks (.kill pid)
  rw [historyStep] at htracks ⊢
  by_cases hsystem : pid ≤ 5
  · rw [if_pos hsystem] at htracks ⊢
    exact ⟨htracks, ha.distinct, rest, hrest, hothers⟩
  · rw [if_neg hsystem] at htracks ⊢
    have hboot : ∀ b ∈ (bootHistory now).births, ¬ (decide (b.pid = pid)) = true := by
      intro b hb he
      exact hsystem (of_decide_eq_true he ▸ boot_pid_le hb)
    refine ⟨htracks, keysDistinct_withdraw ha.distinct pid, withdraw Birth.pid rest pid, ?_, ?_⟩
    · show withdraw Birth.pid h.births pid = _
      rw [hrest, withdraw, List.eraseP_append_right _ hboot]
      rfl
    · exact fun b hb => hothers b ((withdraw_sublist rest pid).subset hb)

theorem accounted_step (ha : Accounted now m h) (hfresh : addsFresh m c = true) :
    Accounted now (monitorCall m c).2 (historyStep h c) := by
  cases c with
  | add name priority d => exact accounted_add ha hfresh
  | kill pid => exact accounted_kill ha pid

theorem Accounted.kept (ha : Accounted now m h) : MonitorKept m h := by
  obtain ⟨rest, hrest, hothers⟩ := ha.others
  refine ⟨ha.tracks, ?_, ?_, ?_⟩
  · rw [ha.pids_eq]
    exact ha.distinct
  · intro pid hlow hhigh
    rw [ha.pids_eq, hrest, List.map_append]
    exact List.mem_append_left _ (boot_pid_iff.mpr ⟨hlow, hhigh⟩)
  · intro pid hkill
    obtain ⟨hhigh, hmem⟩ := kill_zero_iff.mp hkill
    rw [ha.pids_eq] at hmem
    obtain ⟨c, hc, hcpid⟩ := List.mem_map.mp hmem
    obtain ⟨b, pre, post, _, hb, hsplit, hleft⟩ :=
      List.exists_of_eraseP (p := fun a => decide (Birth.pid a = pid)) hc (by simpa using hcpid)
    have hpid : b.pid = pid := of_decide_eq_true hb
    have hin : b ∈ (bootHistory now).births ++ rest := by
      rw [← hrest, hsplit]
      simp
    have hrestmem : b ∈ rest := by
      refine (List.mem_append.mp hin).resolve_left fun hboot => ?_
      have hle := boot_pid_le hboot
      omega
    obtain ⟨_, k, hk, hlast⟩ := hothers b hrestmem
    refine ⟨pre, b, post, k, hsplit, hpid, hk, hpid ▸ hlast, ?_⟩
    rw [kill_eq, if_neg (Int.not_le.mpr hhigh), ← hleft, ← ha.tracks, withdraw, List.eraseP_map]
    rfl

theorem nodup_call_iff (hm : (pids m).Nodup) :
    (pids (monitorCall m c).2).Nodup ↔ addsFresh m c = true := by
  cases c with
  | add name priority d =>
    rw [pids, monitorCall, add_eq]
    by_cases hfull : maxMonitored ≤ m.processes.length
    · rw [if_pos hfull]
      exact iff_of_true hm (by simp [addsFresh, hfull])
    · have hnew : (pids m ++ [(m.processes.length + 1 : Int)]).Nodup ↔
          (m.processes.length + 1 : Int) ∉ pids m := by
        rw [List.nodup_append_comm]
        simp [hm]
      rw [if_neg hfull, List.map_append, List.map_singleton]
      exact hnew.trans (by simp [addsFresh, hfull])
  | kill pid =>
    refine iff_of_true ?_ rfl
    rw [pids, monitorCall, kill_eq]
    split
    · exact hm
    · exact keysDistinct_withdraw hm pid

end Steps

theorem monitor_ids_kept {now : Int} {calls : List MonitorCall} {m : Monitor}
    (h : Run monitorStep (fun m c => addsFresh m c = true) (systemMonitorInit now) calls m) :
    MonitorKept m (history now calls) ∧
      ∀ c, (pids (monitorCall m c).2).Nodup ↔ addsFresh m c = true := by
  have haccount : Accounted now m (history now calls) := by
    refine h.history (P := fun calls m => Accounted now m (history now calls)) (accounted_boot now) ?_
    intro calls m c m' ha hfresh hstep
    obtain rfl := Option.some.inj hstep
    rw [history, List.foldl_concat]
    exact accounted_step ha hfresh
  exact ⟨haccount.kept, fun c => nodup_call_iff haccount.kept.distinct⟩

section Concrete

def someDraws : Draws := ⟨3, 100, 0⟩

def monitored (calls : List MonitorCall) : Monitor :=
  calls.foldl (fun m c => (monitorCall m c).2) (systemMonitorInit 0)

def reusingCalls : List MonitorCall :=
  [.add (str "a") 0 someDraws, .add (str "b") 0 someDraws, .kill 6, .add (str "c") 0 someDraws]

theorem run_monitored (calls : List MonitorCall) :
    Run monitorStep (fun _ _ => True) (systemMonitorInit 0) calls (monitored calls) := by
  induction calls using List.reverseRecOn with
  | nil => exact .start
  | append_singleton calls c ih =>
    refine .call ih trivial ?_
    rw [monitorStep, monitored, monitored, List.foldl_concat]

def freshCalls : List MonitorCall :=
  [.add (str "a") 0 someDraws, .kill 6, .add (str "b") 0 someDraws]

theorem monitor_ids_kept_fresh :
    MonitorKept (monitored freshCalls) (history 0 freshCalls) := by
  have hrun : exec (guarded monitorStep addsFresh) (systemMonitorInit 0) freshCalls =
      some (monitored freshCalls) := by decide +kernel
  exact (monitor_ids_kept (Run.of_exec hrun)).1

theorem killed_count_repeats_pid :
    ¬ ∀ (now : Int) (calls : List MonitorCall) (m : Monitor),
      Run monitorStep (fun _ _ => True) (systemMonitorInit now) calls m →
        MonitorKept m (history now calls) := by
  intro hall
  have hkept := hall 0 reusingCalls _ (run_monitored reusingCalls)
  exact absurd hkept.distinct (by decide +kernel)

end Concrete

end ZoraVM.Kernel

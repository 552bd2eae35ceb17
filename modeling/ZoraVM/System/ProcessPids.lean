import ZoraVM.System.ProcessTableKept

namespace ZoraVM.System

open Foundation Kernel

section Steps

variable {s t : ProcessSystem} {w : ProcessWorld} {c : ProcessCall} {p : Nat} {pid : Int}

theorem int32_of_lt {n : Int} (hlow : 0 ≤ n) (hhigh : n < 2 ^ 31) : int32 n = n :=
  Int.bmod_eq_of_le (by omega) (by omega)

theorem Created.perm (h : Created s t p) (hfresh : p ∉ entries s.table.processes) :
    (livePids t).Perm (s.table.nextPid :: livePids s) := by
  obtain ⟨pre, post, hs, ht⟩ := h.slot
  have hsame : ∀ q ∈ entries s.table.processes, t.processes q = s.processes q := by
    intro q hq
    refine h.frame q ?_
    rintro rfl
    exact hfresh hq
  rw [hs, entries_empty] at hsame
  rw [livePids, livePids, hs, ht, entries_filled, entries_empty]
  have hrest : ((entries pre ++ entries post).map fun q => (t.processes q).pid) =
      (entries pre ++ entries post).map fun q => (s.processes q).pid :=
    List.map_congr_left fun q hq => by rw [hsame q hq]
  have hmiddle : (entries pre ++ p :: entries post).Perm (p :: (entries pre ++ entries post)) :=
    List.perm_middle
  have hmoved := hmiddle.map fun q => (t.processes q).pid
  rw [List.map_cons, hrest, h.pid] at hmoved
  exact hmoved

theorem Removed.perm (h : Removed s t pid) : (livePids s).Perm (pid :: livePids t) := by
  obtain ⟨pre, p, post, hget, hs, ht⟩ := h.slot
  have hpid := (processGet_some hget).2
  rw [livePids, livePids, hs, ht, entries_filled, entries_empty]
  have hrest : ((entries pre ++ entries post).map fun q => (t.processes q).pid) =
      (entries pre ++ entries post).map fun q => (s.processes q).pid :=
    List.map_congr_left fun q _ => h.pids q
  have hmiddle : (entries pre ++ p :: entries post).Perm (p :: (entries pre ++ entries post)) :=
    List.perm_middle
  have hmoved := hmiddle.map fun q => (s.processes q).pid
  rw [List.map_cons, hpid, ← hrest] at hmoved
  exact hmoved

theorem Created.counts (h : Created s t p) (hs : TableKept s) :
    t.table.processes.length = maxProcesses ∧
      t.table.processCount = t.table.processes.countP Option.isSome ∧
      t.table.processCount ≤ maxProcesses := by
  obtain ⟨pre, post, hl, ht⟩ := h.slot
  have hslots := hs.slots
  have hcounted := hs.counted
  have hcount := h.count
  have hroom := (free_iff_count hs).mp (by rw [hl]; simp)
  rw [hl] at hslots hcounted
  rw [ht]
  simp only [List.length_append, List.length_cons, List.countP_append, List.countP_cons,
    Option.isSome_none, Option.isSome_some, Bool.false_eq_true, if_false, if_true] at hslots hcounted ⊢
  omega

theorem Removed.counts (h : Removed s t pid) (hs : TableKept s) :
    t.table.processes.length = maxProcesses ∧
      t.table.processCount = t.table.processes.countP Option.isSome ∧
      t.table.processCount ≤ maxProcesses := by
  obtain ⟨pre, p, post, -, hl, ht⟩ := h.slot
  have hslots := hs.slots
  have hcounted := hs.counted
  have hcount := h.count
  have hbounded := hs.bounded
  rw [hl] at hslots hcounted
  rw [ht]
  simp only [List.length_append, List.length_cons, List.countP_append, List.countP_cons,
    Option.isSome_none, Option.isSome_some, Bool.false_eq_true, if_false, if_true] at hslots hcounted ⊢
  omega

theorem nextPid_pos (hs : TableKept s) : 1 < s.table.nextPid := hs.below 1 hs.init

theorem Created.kept (h : Created s t p) (hs : TableKept s)
    (hfresh : p ∉ entries s.table.processes) (hleft : s.table.nextPid < 2 ^ 31 - 1) :
    TableKept t := by
  obtain ⟨hslots, hcounted, hbounded⟩ := h.counts hs
  have hperm := h.perm hfresh
  have hpos := nextPid_pos hs
  have hnext : t.table.nextPid = s.table.nextPid + 1 :=
    h.next.trans (int32_of_lt (by omega) (by omega))
  have hnew : s.table.nextPid ∉ livePids s := fun hmem => absurd (hs.below _ hmem) (by omega)
  refine ⟨hslots, hcounted, hbounded, ?_, ?_, ?_, ?_⟩
  · exact hperm.nodup_iff.mpr (List.nodup_cons.mpr ⟨hnew, hs.distinct⟩)
  · intro pid hmem
    rcases List.mem_cons.mp (hperm.mem_iff.mp hmem) with rfl | hmem
    · omega
    · exact hs.positive pid hmem
  · intro pid hmem
    rcases List.mem_cons.mp (hperm.mem_iff.mp hmem) with rfl | hmem
    · omega
    · have hlt := hs.below pid hmem
      omega
  · exact hperm.mem_iff.mpr (List.mem_cons_of_mem _ hs.init)

theorem Created.not_kept (h : Created s t p) (hfresh : p ∉ entries s.table.processes)
    (hlast : s.table.nextPid = 2 ^ 31 - 1) : ¬ TableKept t := by
  intro ht
  have hmem : s.table.nextPid ∈ livePids t := (h.perm hfresh).mem_iff.mpr List.mem_cons_self
  have hlt := ht.below _ hmem
  rw [h.next, hlast] at hlt
  exact absurd hlt (by decide)

theorem Removed.kept (h : Removed s t pid) (hs : TableKept s) (hpid : pid ≠ 1) : TableKept t := by
  obtain ⟨hslots, hcounted, hbounded⟩ := h.counts hs
  have hperm := h.perm
  have hsub : ∀ q ∈ livePids t, q ∈ livePids s := fun q hq =>
    hperm.mem_iff.mpr (List.mem_cons_of_mem _ hq)
  refine ⟨hslots, hcounted, hbounded, (List.nodup_cons.mp (hperm.nodup_iff.mp hs.distinct)).2,
    fun q hq => hs.positive q (hsub q hq), ?_, ?_⟩
  · intro q hq
    rw [h.next]
    exact hs.below q (hsub q hq)
  · rcases List.mem_cons.mp (hperm.mem_iff.mp hs.init) with hone | hmem
    · exact absurd hone.symm hpid
    · exact hmem

theorem call_cases (hs : TableKept w.system) (hfresh : callocFresh w.system c = true) :
    (makesProcess w.system c = false ∧ SamePids w.system (w.call c).system ∧
      (w.call c).killed = w.killed) ∨
    (makesProcess w.system c = true ∧ (w.call c).killed = w.killed ∧
      ∃ p, p ∉ entries w.system.table.processes ∧ Created w.system (w.call c).system p) ∨
    (makesProcess w.system c = false ∧ ∃ pid, pid ≠ 1 ∧ Removed w.system (w.call c).system pid ∧
      (w.call c).killed = pid :: w.killed) := by
  cases c with
  | create name args priority memory now =>
    rcases processCreate_cases hs name args priority memory now with
      ⟨hmakes, hfails⟩ | ⟨wanted, p, rfl, rfl, hmakes, -, hcreated⟩
    · refine .inl ⟨hmakes, ?_, rfl⟩
      change SamePids w.system (processCreate w.system name args priority memory now).1
      rw [hfails]
      exact SamePids.refl _
    · exact .inr (.inl ⟨hmakes, rfl, p, of_decide_eq_true hfresh, hcreated⟩)
  | kill pid signal =>
    rcases processKill_cases w.system pid signal with ⟨hsame, hother⟩ | ⟨hkill, hone, hzero, hremoved⟩
    · exact .inl ⟨rfl, hsame, if_neg fun h => hother ⟨h.2, processKill_answers h.1⟩⟩
    · exact .inr (.inr ⟨rfl, pid, hone, hremoved, if_pos ⟨hzero, hkill⟩⟩)
  | setState pid state => exact .inl ⟨rfl, processSetState_same w.system pid state, rfl⟩
  | setPriority pid priority => exact .inl ⟨rfl, processSetPriority_same w.system pid priority, rfl⟩

structure PidsKept (w : ProcessWorld) : Prop where
  table : TableKept w.system
  int : w.system.table.nextPid ≤ 2 ^ 31 - 1
  killed : ∀ pid ∈ w.killed, pid < w.system.table.nextPid ∧ pid ∉ livePids w.system

theorem pidsKept_call (h : PidsKept w) (hfresh : callocFresh w.system c = true)
    (hleft : pidLeft w.system c = true) : PidsKept (w.call c) := by
  obtain ⟨hs, hint, hkilled⟩ := h
  rcases call_cases hs hfresh with
    ⟨-, hsame, hk⟩ | ⟨hmakes, hk, p, hp, hcreated⟩ | ⟨-, pid, hone, hremoved, hk⟩
  · refine ⟨hsame.kept hs, by rwa [hsame.table], ?_⟩
    rwa [hk, hsame.table, hsame.live]
  · have hroom := of_decide_eq_true hleft hmakes
    have hpos := nextPid_pos hs
    have hnext : (w.call c).system.table.nextPid = w.system.table.nextPid + 1 :=
      hcreated.next.trans (int32_of_lt (by omega) (by omega))
    refine ⟨hcreated.kept hs hp hroom, by omega, ?_⟩
    rw [hk]
    intro pid hpid
    obtain ⟨hlt, hgone⟩ := hkilled pid hpid
    refine ⟨by omega, fun hmem => ?_⟩
    rcases List.mem_cons.mp ((hcreated.perm hp).mem_iff.mp hmem) with rfl | hmem
    · omega
    · exact hgone hmem
  · have hperm := hremoved.perm
    refine ⟨hremoved.kept hs hone, by rwa [hremoved.next], ?_⟩
    rw [hk, hremoved.next]
    intro q hq
    rcases List.mem_cons.mp hq with rfl | hq
    · exact ⟨hs.below q (hperm.mem_iff.mpr List.mem_cons_self),
        (List.nodup_cons.mp (hperm.nodup_iff.mp hs.distinct)).1⟩
    · obtain ⟨hlt, hgone⟩ := hkilled q hq
      exact ⟨hlt, fun hmem => hgone (hperm.mem_iff.mpr (List.mem_cons_of_mem _ hmem))⟩

theorem kept_iff_pidLeft (h : PidsKept w) (hfresh : callocFresh w.system c = true) :
    TableKept (w.call c).system ↔ pidLeft w.system c = true := by
  constructor
  · intro hkept
    by_contra hnone
    obtain ⟨hmakes, hlast⟩ : makesProcess w.system c = true ∧ ¬ w.system.table.nextPid < 2 ^ 31 - 1 := by
      simpa [pidLeft] using hnone
    rcases call_cases h.table hfresh with
      ⟨hnot, -⟩ | ⟨-, -, p, hp, hcreated⟩ | ⟨hnot, -⟩
    · rw [hmakes] at hnot
      cases hnot
    · have hint := h.int
      exact hcreated.not_kept hp (by omega) hkept
    · rw [hmakes] at hnot
      cases hnot
  · intro hleft
    exact (pidsKept_call h hfresh hleft).table

end Steps

section Law

variable {s : ProcessSystem} {w : ProcessWorld} {p : Nat}

theorem create_fails_iff (hs : TableKept s) (name args : Option Bytes) (priority : ProcessPriority)
    (p : Nat) (now : Int) : (processCreate s name args priority (some p) now).2 = -1 ↔
      name = none ∨ ∀ slot ∈ s.table.processes, slot ≠ none := by
  rcases processCreate_cases hs name args priority (some p) now with
    ⟨hmakes, hfails⟩ | ⟨wanted, q, rfl, -, hmakes, hpid, -⟩
  · rw [hfails]
    refine iff_of_true rfl ?_
    cases name with
    | none => exact .inl rfl
    | some wanted =>
      refine .inr fun slot hslot hnone => ?_
      rw [hnone] at hslot
      exact of_decide_eq_false hmakes hslot
  · have hpos := nextPid_pos hs
    rw [hpid]
    refine iff_of_false (by omega) ?_
    rintro (hname | hfull)
    · cases hname
    · exact hfull none (of_decide_eq_true hmakes) rfl

theorem processList_live (hs : TableKept s) : ∃ list, processList s true = some list ∧
    list.Nodup ∧ ∀ p, p ∈ list ↔ some p ∈ s.table.processes := by
  have hcount : s.table.processCount.toNat = (entries s.table.processes).length := by
    rw [hs.counted, length_entries, Int.toNat_natCast]
  refine ⟨entries s.table.processes, ?_, List.Nodup.of_map _ hs.distinct, fun p => mem_entries⟩
  rw [processList, if_pos rfl, hcount, List.take_length]

theorem pidsKept_init (s : ProcessSystem) (p : Nat) (now : Int) :
    PidsKept ⟨(processInit s (some p) now).1, []⟩ := by
  have hpid : ((processInit s (some p) now).1.processes p).pid = 1 := by
    change (Function.update s.processes p ⟨1, .running, .high⟩ p).pid = 1
    rw [Function.update_self]
  have hlive : livePids (processInit s (some p) now).1 = [1] := by
    change [((processInit s (some p) now).1.processes p).pid] = [1]
    rw [hpid]
  have htable : (processInit s (some p) now).1.table =
      ⟨some p :: List.replicate 255 none, 2, 1⟩ := rfl
  refine ⟨⟨?_, ?_, ?_, ?_, ?_, ?_, ?_⟩, ?_, fun pid hpid => absurd hpid List.not_mem_nil⟩ <;>
    simp only [htable, hlive]
  · rw [List.length_cons, List.length_replicate]
    rfl
  · rw [List.countP_cons_of_pos rfl, List.countP_replicate]
    rfl
  · decide
  · exact List.nodup_singleton 1
  · simp
  · simp
  · simp
  · decide

abbrev ProcessRun (s : ProcessSystem) (p : Nat) (now : Int)
    (allowed : ProcessWorld → ProcessCall → Bool) :=
  Run (fun w c => some (w.call c)) (fun w c => allowed w c = true)
    ⟨(processInit s (some p) now).1, []⟩

theorem process_table_kept {now : Int} {calls : List ProcessCall}
    (hrun : ProcessRun s p now (fun w c => callocFresh w.system c && pidLeft w.system c) calls w) :
    TableKept w.system ∧ (∀ pid ∈ w.killed, pid ∉ livePids w.system) ∧
      (∀ name args priority q now, (processCreate w.system name args priority (some q) now).2 = -1 ↔
        name = none ∨ ∀ slot ∈ w.system.table.processes, slot ≠ none) ∧
      (∃ list, processList w.system true = some list ∧ list.Nodup ∧
        ∀ q, q ∈ list ↔ some q ∈ w.system.table.processes) ∧
      ∀ c, callocFresh w.system c = true →
        (TableKept (w.call c).system ↔ pidLeft w.system c = true) := by
  have hkept : PidsKept w := by
    refine hrun.invariant (pidsKept_init s p now) ?_
    intro w c w' hw hallowed hstep
    obtain rfl := Option.some.inj hstep
    obtain ⟨hfresh, hleft⟩ := Bool.and_eq_true_iff.mp hallowed
    exact pidsKept_call hw hfresh hleft
  exact ⟨hkept.table, fun pid hpid => (hkept.killed pid hpid).2, create_fails_iff hkept.table,
    processList_live hkept.table, fun c hfresh => kept_iff_pidLeft hkept hfresh⟩

def bareSystem : ProcessSystem := ⟨⟨[], 0, 0⟩, fun _ => ⟨0, .running, .realtime⟩,
  fun _ => ⟨0, [], [], 0, 0, 0⟩⟩

def booted : ProcessWorld := ⟨(processInit bareSystem (some 0) 0).1, []⟩

def shellStarted : ProcessWorld := booted.call (.create (some (str "sh")) none .normal (some 1) 5)

theorem process_table_kept_shell :
    TableKept shellStarted.system ∧ (∀ pid ∈ shellStarted.killed, pid ∉ livePids shellStarted.system) ∧
      (∀ name args priority q now,
        (processCreate shellStarted.system name args priority (some q) now).2 = -1 ↔
          name = none ∨ ∀ slot ∈ shellStarted.system.table.processes, slot ≠ none) ∧
      (∃ list, processList shellStarted.system true = some list ∧ list.Nodup ∧
        ∀ q, q ∈ list ↔ some q ∈ shellStarted.system.table.processes) ∧
      ∀ c, callocFresh shellStarted.system c = true →
        (TableKept (shellStarted.call c).system ↔ pidLeft shellStarted.system c = true) :=
  process_table_kept (s := bareSystem) (p := 0) (.call .start (by decide +kernel) rfl)

theorem free_of_init (hs : TableKept s) (hlive : livePids s = [1]) : none ∈ s.table.processes := by
  have hlength := congrArg List.length hlive
  rw [livePids, List.length_map, length_entries] at hlength
  rw [free_iff_count hs, hs.counted, hlength]
  decide

abbrev FreshRun (w : ProcessWorld) :=
  Run (fun w c => some (w.call c)) (fun w c => callocFresh w.system c = true) w

theorem churn (h : PidsKept w) (hlive : livePids w.system = [1])
    (hleft : w.system.table.nextPid < 2 ^ 31 - 1) : ∃ calls w', FreshRun w calls w' ∧
      PidsKept w' ∧ livePids w'.system = [1] ∧
      w'.system.table.nextPid = w.system.table.nextPid + 1 := by
  obtain ⟨p, hp⟩ := Infinite.exists_notMem_finset (entries w.system.table.processes).toFinset
  rw [List.mem_toFinset] at hp
  let made := ProcessCall.create (some []) none .normal (some p) 0
  have hfresh : callocFresh w.system made = true := decide_eq_true hp
  have hleft' : pidLeft w.system made = true := decide_eq_true fun _ => hleft
  have hmade := pidsKept_call h hfresh hleft'
  have hroom : makesProcess w.system made = true := decide_eq_true (free_of_init h.table hlive)
  rcases call_cases h.table hfresh with ⟨hnot, -⟩ | ⟨-, -, q, hq, hcreated⟩ | ⟨hnot, -⟩
  · rw [hroom] at hnot
    cases hnot
  · have hpos := nextPid_pos h.table
    have hperm := hcreated.perm hq
    have hmem := hperm.mem_iff.mpr List.mem_cons_self
    have hne : w.system.table.nextPid ≠ 1 := by omega
    let gone := ProcessCall.kill w.system.table.nextPid procSigKill
    have hkept := pidsKept_call (c := gone) hmade rfl (decide_eq_true fun h => by cases h)
    refine ⟨[made] ++ [gone], _, .call (Run.single hfresh rfl) rfl rfl, hkept, ?_, ?_⟩
    all_goals
      rcases processKill_cases (w.call made).system w.system.table.nextPid procSigKill with
        ⟨-, hother⟩ | ⟨-, -, -, hremoved⟩
    · exact absurd ⟨.inl rfl, hne, fun hnone => processGet_none hnone hmem⟩ hother
    · have hback := hremoved.perm
      have hsame := hperm.symm.trans hback
      rw [List.perm_cons, hlive] at hsame
      exact List.perm_singleton.mp hsame.symm
    · exact absurd ⟨.inl rfl, hne, fun hnone => processGet_none hnone hmem⟩ hother
    · exact hremoved.next.trans (hcreated.next.trans (int32_of_lt (by omega) (by omega)))
  · rw [hroom] at hnot
    cases hnot

theorem pids_run_out (n : Nat) (hn : n ≤ 2 ^ 31 - 3) : ∃ calls w, FreshRun booted calls w ∧
    PidsKept w ∧ livePids w.system = [1] ∧ w.system.table.nextPid = n + 2 := by
  induction n with
  | zero => exact ⟨[], booted, .start, pidsKept_init bareSystem 0 0, by decide +kernel, rfl⟩
  | succ n ih =>
    obtain ⟨calls, w, hrun, hkept, hlive, hnext⟩ := ih (by omega)
    obtain ⟨more, w', hmore, hkept', hlive', hnext'⟩ := churn hkept hlive (by omega)
    exact ⟨calls ++ more, w', hrun.append hmore, hkept', hlive', by omega⟩

theorem pids_overflow :
    ¬ ∀ (s : ProcessSystem) (p : Nat) (now : Int) (calls : List ProcessCall) (w : ProcessWorld),
      ProcessRun s p now (fun w c => callocFresh w.system c) calls w → TableKept w.system := by
  intro hall
  obtain ⟨calls, w, hrun, hkept, hlive, hnext⟩ := pids_run_out (2 ^ 31 - 3) (Nat.le_refl _)
  obtain ⟨p, hp⟩ := Infinite.exists_notMem_finset (entries w.system.table.processes).toFinset
  rw [List.mem_toFinset] at hp
  let made := ProcessCall.create (some []) none .normal (some p) 0
  have hfresh : callocFresh w.system made = true := decide_eq_true hp
  have hafter := hall bareSystem 0 0 (calls ++ [made]) (w.call made) (.call hrun hfresh rfl)
  have hleft := (kept_iff_pidLeft hkept hfresh).mp hafter
  have hlt := of_decide_eq_true hleft (decide_eq_true (free_of_init hkept.table hlive))
  rw [hnext] at hlt
  exact absurd hlt (by decide)

end Law

end ZoraVM.System

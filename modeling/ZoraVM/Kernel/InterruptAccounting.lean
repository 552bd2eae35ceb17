import ZoraVM.Foundation.Run
import ZoraVM.Kernel.InterruptPrivilege

namespace ZoraVM.Kernel

open Foundation

-- Where a call of interrupt_dispatch stands between two of its statements.
inductive DispatchPhase where
  | totalled
  | counted
  | nested
  | tracked
  | running
  | finished
  deriving DecidableEq, Repr

structure DispatchFrame where
  ctx : InterruptContext
  phase : DispatchPhase
  levelAtEntry : Int
  deriving DecidableEq, Repr

-- The calls in progress, the innermost first, and how many began while another was in progress.
structure DispatchState where
  kernel : KernelState
  frames : List DispatchFrame
  begunWithin : Nat

inductive DispatchEvent where
  | dispatch (context : Option InterruptContext)
  | advance
  | handlerReturns
  | register (intNo : BitVec 8) (handler : InterruptHandler)
  | unregister (intNo : BitVec 8)
  -- anything else a handler or a caller does
  | work (kernel : KernelState)

section Statements

variable (ctx : InterruptContext) (k : KernelState)

def onStats (f : InterruptStats → InterruptStats) : KernelState :=
  withController k fun c => withStats c f

def addTotal : KernelState :=
  onStats k fun st => { st with totalInterrupts := st.totalInterrupts + 1 }

def addCount : KernelState :=
  onStats k fun st => { st with
    interruptCounts := Function.update st.interruptCounts (vector ctx)
      (st.interruptCounts (vector ctx) + 1) }

def enterNested : KernelState :=
  withController (withPrivilege k privilegeEnterKernelMode) fun c =>
    { c with nestedLevel := c.nestedLevel + 1 }

def trackNested : KernelState :=
  withController k fun c =>
    if c.nestedLevel > 1 then
      withStats c fun st => { st with nestedInterrupts := st.nestedInterrupts + 1 }
    else c

def addHandled : KernelState :=
  onStats k fun st => { st with handledInterrupts := st.handledInterrupts + 1 }

def addSpurious : KernelState :=
  onStats k fun st => { st with spuriousInterrupts := st.spuriousInterrupts + 1 }

def leaveNested : KernelState :=
  withController k fun c => { c with nestedLevel := c.nestedLevel - 1 }

theorem dispatchEntry_statements :
    dispatchEntry ctx k = trackNested (enterNested (addCount ctx (addTotal k))) := rfl

end Statements

def inControl (frames : List DispatchFrame) : Bool :=
  match frames with
  | [] => true
  | f :: _ => f.phase = .running

def advanced1 (k : KernelState) (f : DispatchFrame) (rest : List DispatchFrame) :
    Option (KernelState × List DispatchFrame) :=
  match f.phase with
  | .totalled => some (addCount f.ctx k, { f with phase := .counted } :: rest)
  | .counted => some (enterNested k, { f with phase := .nested } :: rest)
  | .nested => some (trackNested k, { f with phase := .tracked } :: rest)
  | .tracked =>
    match k.gIntController.handlers (vector f.ctx) with
    | some _ => some (k, { f with phase := .running } :: rest)
    | none => some (addSpurious k, { f with phase := .finished } :: rest)
  | .running => none
  | .finished => some (leaveNested k, rest)

def dispatchStep (d : DispatchState) : DispatchEvent → Option DispatchState
  | .dispatch none => if inControl d.frames then some d else none
  | .dispatch (some ctx) =>
    if inControl d.frames then
      some
        { kernel := addTotal d.kernel
          frames := ⟨ctx, .totalled, d.kernel.gIntController.nestedLevel⟩ :: d.frames
          begunWithin := if d.frames = [] then d.begunWithin else d.begunWithin + 1 }
    else none
  | .advance =>
    match d.frames with
    | [] => none
    | f :: rest => (advanced1 d.kernel f rest).map fun p => ⟨p.1, p.2, d.begunWithin⟩
  | .handlerReturns =>
    match d.frames with
    | [] => none
    | f :: rest =>
      if f.phase = .running then
        some ⟨addHandled d.kernel, { f with phase := .finished } :: rest, d.begunWithin⟩
      else none
  | .register intNo handler =>
    if inControl d.frames then
      some { d with kernel :=
        withController d.kernel fun c => interruptRegisterHandler c intNo handler }
    else none
  | .unregister intNo =>
    if inControl d.frames then
      some { d with kernel :=
        withController d.kernel fun c => interruptUnregisterHandler c intNo }
    else none
  | .work kernel => if inControl d.frames then some { d with kernel := kernel } else none

-- The counters are private to interrupts.c: what is not interrupt_dispatch leaves them alone.
def countersKept (d : DispatchState) : DispatchEvent → Prop
  | .work kernel =>
    kernel.gIntController.stats = d.kernel.gIntController.stats ∧
      kernel.gIntController.nestedLevel = d.kernel.gIntController.nestedLevel
  | _ => True

def countSum (counts : BitVec 8 → Nat) : Nat := ∑ i : Fin 256, counts (BitVec.ofFin i)

def phaseIs (phases : List DispatchPhase) (frames : List DispatchFrame) : Nat :=
  match frames with
  | [] => 0
  | f :: _ => if f.phase ∈ phases then 1 else 0

def entering (frames : List DispatchFrame) : Nat := phaseIs [.totalled, .counted] frames

def uncounted (frames : List DispatchFrame) : Nat := phaseIs [.totalled] frames

def untracked (frames : List DispatchFrame) : Nat :=
  if frames.tail = [] then 0 else phaseIs [.totalled, .counted, .nested] frames

def finishing (frames : List DispatchFrame) : Nat := phaseIs [.finished] frames

def EntryLevels : List DispatchFrame → Prop
  | [] => True
  | f :: rest => f.levelAtEntry = rest.length ∧ EntryLevels rest

-- The accounts at every moment, also between two statements of the dispatcher.
structure Accounts (d : DispatchState) : Prop where
  below : ∀ f ∈ d.frames.tail, f.phase = .running
  levels : EntryLevels d.frames
  level : d.kernel.gIntController.nestedLevel + entering d.frames = d.frames.length
  total : (d.kernel.gIntController.stats.totalInterrupts : Int) + finishing d.frames =
    d.kernel.gIntController.stats.handledInterrupts +
      d.kernel.gIntController.stats.spuriousInterrupts +
      d.kernel.gIntController.nestedLevel + entering d.frames
  counts : countSum d.kernel.gIntController.stats.interruptCounts + uncounted d.frames =
    d.kernel.gIntController.stats.totalInterrupts
  nested : d.kernel.gIntController.stats.nestedInterrupts + untracked d.frames = d.begunWithin

theorem countSum_update (counts : BitVec 8 → Nat) (v : BitVec 8) :
    countSum (Function.update counts v (counts v + 1)) = countSum counts + 1 := by
  have hmem : v.toFin ∈ (Finset.univ : Finset (Fin 256)) := Finset.mem_univ _
  have hcomp : (fun i : Fin 256 => Function.update counts v (counts v + 1) (BitVec.ofFin i)) =
      Function.update (fun i : Fin 256 => counts (BitVec.ofFin i)) v.toFin (counts v + 1) := by
    funext i
    by_cases hi : i = v.toFin
    · subst hi
      rw [Function.update_self, Function.update_self]
    · rw [Function.update_of_ne hi]
      refine Function.update_of_ne ?_ _ _
      rintro rfl
      exact hi rfl
  have hrest : ∑ i : Fin 256, counts (BitVec.ofFin i) =
      counts v + ∑ i ∈ Finset.univ \ {v.toFin}, counts (BitVec.ofFin i) :=
    Finset.sum_eq_add_sum_sdiff_singleton_of_mem hmem fun i : Fin 256 => counts (BitVec.ofFin i)
  rw [countSum, countSum, hcomp, Finset.sum_update_of_mem hmem, hrest]
  omega

theorem phaseIs_inControl {phases : List DispatchPhase} {frames : List DispatchFrame}
    (hcontrol : inControl frames = true) (hphases : .running ∉ phases) :
    phaseIs phases frames = 0 := by
  cases frames with
  | nil => rfl
  | cons f rest =>
    have hrunning : f.phase = .running := by simpa [inControl] using hcontrol
    simp [phaseIs, hrunning, hphases]

theorem below_inControl {frames : List DispatchFrame} (hcontrol : inControl frames = true)
    (hbelow : ∀ f ∈ frames.tail, f.phase = .running) : ∀ f ∈ frames, f.phase = .running := by
  cases frames with
  | nil => simp
  | cons f rest =>
    intro g hg
    rcases List.mem_cons.mp hg with rfl | hg
    · simpa [inControl] using hcontrol
    · exact hbelow g hg

theorem rest_inControl {f : DispatchFrame} {rest : List DispatchFrame}
    (hbelow : ∀ g ∈ (f :: rest).tail, g.phase = .running) : inControl rest = true := by
  cases rest with
  | nil => rfl
  | cons g rest =>
    have hg : g.phase = .running := hbelow g List.mem_cons_self
    simp [inControl, hg]

structure Settled (d : DispatchState) : Prop where
  level : d.kernel.gIntController.nestedLevel = d.frames.length
  total : (d.kernel.gIntController.stats.totalInterrupts : Int) =
    d.kernel.gIntController.stats.handledInterrupts +
      d.kernel.gIntController.stats.spuriousInterrupts + d.kernel.gIntController.nestedLevel
  counts : countSum d.kernel.gIntController.stats.interruptCounts =
    d.kernel.gIntController.stats.totalInterrupts
  nested : d.kernel.gIntController.stats.nestedInterrupts = d.begunWithin

theorem Accounts.settled {d : DispatchState} (h : Accounts d)
    (hcontrol : inControl d.frames = true) : Settled d := by
  have hentering : entering d.frames = 0 := phaseIs_inControl hcontrol (by decide)
  have huncounted : uncounted d.frames = 0 := phaseIs_inControl hcontrol (by decide)
  have hfinishing : finishing d.frames = 0 := phaseIs_inControl hcontrol (by decide)
  have huntracked : untracked d.frames = 0 := by
    rw [untracked, phaseIs_inControl hcontrol (by decide), ite_self]
  have hlevel := h.level
  have htotal := h.total
  have hcounts := h.counts
  have hnested := h.nested
  rw [hentering] at hlevel htotal
  rw [hfinishing] at htotal
  rw [huncounted] at hcounts
  rw [huntracked] at hnested
  refine ⟨?_, ?_, ?_, ?_⟩ <;> omega

theorem Accounts.of_controller {d : DispatchState} {k : KernelState} (h : Accounts d)
    (hstats : k.gIntController.stats = d.kernel.gIntController.stats)
    (hlevel : k.gIntController.nestedLevel = d.kernel.gIntController.nestedLevel) :
    Accounts { d with kernel := k } := by
  refine ⟨h.below, h.levels, ?_, ?_, ?_, ?_⟩
  · simpa only [hlevel] using h.level
  · simpa only [hstats, hlevel] using h.total
  · simpa only [hstats] using h.counts
  · simpa only [hstats] using h.nested

theorem Accounts.dispatched {d : DispatchState} (h : Accounts d)
    (hcontrol : inControl d.frames = true) (ctx : InterruptContext) :
    Accounts
      { kernel := addTotal d.kernel
        frames := ⟨ctx, .totalled, d.kernel.gIntController.nestedLevel⟩ :: d.frames
        begunWithin := if d.frames = [] then d.begunWithin else d.begunWithin + 1 } := by
  have hs := h.settled hcontrol
  have htotal := hs.total
  have hlevel := hs.level
  refine ⟨below_inControl hcontrol h.below, ⟨hlevel, h.levels⟩, ?_, ?_, ?_, ?_⟩
  · simp [addTotal, onStats, withController, withStats, entering, phaseIs, hlevel]
  · simp only [addTotal, onStats, withController, withStats, entering, phaseIs, finishing]
    simp
    omega
  · simp [addTotal, onStats, withController, withStats, uncounted, phaseIs, hs.counts]
  · by_cases hnil : d.frames = []
    · simp [addTotal, onStats, withController, withStats, untracked, hnil, hs.nested]
    · simp [addTotal, onStats, withController, withStats, untracked, phaseIs, hnil, hs.nested]

theorem trackNested_cases (k : KernelState) :
    k.gIntController.nestedLevel > 1 ∧
      trackNested k = onStats k
        (fun st => { st with nestedInterrupts := st.nestedInterrupts + 1 }) ∨
    k.gIntController.nestedLevel ≤ 1 ∧ trackNested k = k := by
  by_cases hdeep : k.gIntController.nestedLevel > 1
  · left
    exact ⟨hdeep, by rw [trackNested, withController, if_pos hdeep]; rfl⟩
  · right
    exact ⟨not_lt.mp hdeep, by rw [trackNested, withController, if_neg hdeep]⟩

section Phases

variable {k : KernelState} {f : DispatchFrame} {rest : List DispatchFrame} {n : Nat}

theorem Accounts.balanced {k' : KernelState} {phase : DispatchPhase}
    (h : Accounts ⟨k, f :: rest, n⟩)
    (hlevel : k'.gIntController.nestedLevel + entering ({ f with phase := phase } :: rest) =
      k.gIntController.nestedLevel + entering (f :: rest))
    (htotal : k'.gIntController.stats.totalInterrupts + finishing ({ f with phase := phase } :: rest) +
        k.gIntController.stats.handledInterrupts + k.gIntController.stats.spuriousInterrupts =
      k.gIntController.stats.totalInterrupts + finishing (f :: rest) +
        k'.gIntController.stats.handledInterrupts + k'.gIntController.stats.spuriousInterrupts)
    (hcounts : countSum k'.gIntController.stats.interruptCounts +
        uncounted ({ f with phase := phase } :: rest) + k.gIntController.stats.totalInterrupts =
      countSum k.gIntController.stats.interruptCounts + uncounted (f :: rest) +
        k'.gIntController.stats.totalInterrupts)
    (hnested : k'.gIntController.stats.nestedInterrupts +
        untracked ({ f with phase := phase } :: rest) =
      k.gIntController.stats.nestedInterrupts + untracked (f :: rest)) :
    Accounts ⟨k', { f with phase := phase } :: rest, n⟩ := by
  have hlevel₀ := h.level
  have htotal₀ := h.total
  have hcounts₀ := h.counts
  have hnested₀ := h.nested
  refine ⟨h.below, h.levels, ?_, ?_, ?_, ?_⟩
  · exact hlevel.trans hlevel₀
  · dsimp only at htotal₀ ⊢
    omega
  · dsimp only at hcounts₀ ⊢
    omega
  · exact hnested.trans hnested₀

theorem Accounts.counted (h : Accounts ⟨k, f :: rest, n⟩) (hphase : f.phase = .totalled) :
    Accounts ⟨addCount f.ctx k, { f with phase := .counted } :: rest, n⟩ := by
  refine h.balanced ?_ ?_ ?_ ?_
  · simp [addCount, onStats, withController, withStats, entering, phaseIs, hphase]
  · simp [addCount, onStats, withController, withStats, finishing, phaseIs, hphase]
  · simp [addCount, onStats, withController, withStats, uncounted, phaseIs, hphase, countSum_update]
  · simp [addCount, onStats, withController, withStats, untracked, phaseIs, hphase]

theorem Accounts.entered (h : Accounts ⟨k, f :: rest, n⟩) (hphase : f.phase = .counted) :
    Accounts ⟨enterNested k, { f with phase := .nested } :: rest, n⟩ := by
  refine h.balanced ?_ ?_ ?_ ?_
  · simp [enterNested, withPrivilege, withController, entering, phaseIs, hphase]
  · simp [enterNested, withPrivilege, withController, finishing, phaseIs, hphase]
  · simp [enterNested, withPrivilege, withController, uncounted, phaseIs, hphase]
  · simp [enterNested, withPrivilege, withController, untracked, phaseIs, hphase]

theorem Accounts.nestingTracked (h : Accounts ⟨k, f :: rest, n⟩) (hphase : f.phase = .nested) :
    Accounts ⟨trackNested k, { f with phase := .tracked } :: rest, n⟩ := by
  have hlevel := h.level
  simp only [entering, phaseIs, hphase] at hlevel
  rcases trackNested_cases k with ⟨hdeep, htracked⟩ | ⟨hshallow, htracked⟩
  · have hrest : rest ≠ [] := by
      rintro rfl
      simp at hlevel
      omega
    rw [htracked]
    refine h.balanced ?_ ?_ ?_ ?_
    · simp [onStats, withController, withStats, entering, phaseIs, hphase]
    · simp [onStats, withController, withStats, finishing, phaseIs, hphase]
    · simp [onStats, withController, withStats, uncounted, phaseIs, hphase]
    · simp [onStats, withController, withStats, untracked, phaseIs, hphase, hrest]
  · have hrest : rest = [] := by
      rw [← List.length_eq_zero_iff]
      simp at hlevel
      omega
    rw [htracked]
    refine h.balanced ?_ ?_ ?_ ?_
    · simp [entering, phaseIs, hphase]
    · simp [finishing, phaseIs, hphase]
    · simp [uncounted, phaseIs, hphase]
    · simp [untracked, hrest]

theorem Accounts.called (h : Accounts ⟨k, f :: rest, n⟩) (hphase : f.phase = .tracked) :
    Accounts ⟨k, { f with phase := .running } :: rest, n⟩ := by
  refine h.balanced ?_ ?_ ?_ ?_
  · simp [entering, phaseIs, hphase]
  · simp [finishing, phaseIs, hphase]
  · simp [uncounted, phaseIs, hphase]
  · simp [untracked, phaseIs, hphase]

theorem Accounts.spurious (h : Accounts ⟨k, f :: rest, n⟩) (hphase : f.phase = .tracked) :
    Accounts ⟨addSpurious k, { f with phase := .finished } :: rest, n⟩ := by
  refine h.balanced ?_ ?_ ?_ ?_
  · simp [addSpurious, onStats, withController, withStats, entering, phaseIs, hphase]
  · simp [addSpurious, onStats, withController, withStats, finishing, phaseIs, hphase]
    omega
  · simp [addSpurious, onStats, withController, withStats, uncounted, phaseIs, hphase]
  · simp [addSpurious, onStats, withController, withStats, untracked, phaseIs, hphase]

theorem Accounts.returned (h : Accounts ⟨k, f :: rest, n⟩) (hphase : f.phase = .running) :
    Accounts ⟨addHandled k, { f with phase := .finished } :: rest, n⟩ := by
  refine h.balanced ?_ ?_ ?_ ?_
  · simp [addHandled, onStats, withController, withStats, entering, phaseIs, hphase]
  · simp [addHandled, onStats, withController, withStats, finishing, phaseIs, hphase]
    omega
  · simp [addHandled, onStats, withController, withStats, uncounted, phaseIs, hphase]
  · simp [addHandled, onStats, withController, withStats, untracked, phaseIs, hphase]

theorem Accounts.left (h : Accounts ⟨k, f :: rest, n⟩) (hphase : f.phase = .finished) :
    Accounts ⟨leaveNested k, rest, n⟩ := by
  have hlevel := h.level
  have htotal := h.total
  have hcounts := h.counts
  have hnested := h.nested
  simp [entering, finishing, uncounted, untracked, phaseIs, hphase] at hlevel htotal hcounts hnested
  have hcontrol : inControl rest = true := rest_inControl h.below
  have hentering : entering rest = 0 := phaseIs_inControl hcontrol (by decide)
  have huncounted : uncounted rest = 0 := phaseIs_inControl hcontrol (by decide)
  have hfinishing : finishing rest = 0 := phaseIs_inControl hcontrol (by decide)
  have huntracked : untracked rest = 0 := by
    rw [untracked, phaseIs_inControl hcontrol (by decide), ite_self]
  refine ⟨fun g hg => h.below g (List.mem_of_mem_tail hg), h.levels.2, ?_, ?_, ?_, ?_⟩
  · simp [leaveNested, withController, hentering, hlevel]
  · simp [leaveNested, withController, hentering, hfinishing]
    omega
  · simpa [leaveNested, withController, huncounted] using hcounts
  · simpa [leaveNested, withController, huntracked] using hnested

theorem Accounts.advanced {p : KernelState × List DispatchFrame}
    (h : Accounts ⟨k, f :: rest, n⟩) (hadvanced : advanced1 k f rest = some p) :
    Accounts ⟨p.1, p.2, n⟩ := by
  unfold advanced1 at hadvanced
  cases hphase : f.phase with
  | totalled =>
    simp only [hphase, Option.some.injEq] at hadvanced
    subst hadvanced
    exact h.counted hphase
  | counted =>
    simp only [hphase, Option.some.injEq] at hadvanced
    subst hadvanced
    exact h.entered hphase
  | nested =>
    simp only [hphase, Option.some.injEq] at hadvanced
    subst hadvanced
    exact h.nestingTracked hphase
  | tracked =>
    cases hhandler : k.gIntController.handlers (vector f.ctx) with
    | some handler =>
      simp only [hphase, hhandler, Option.some.injEq] at hadvanced
      subst hadvanced
      exact h.called hphase
    | none =>
      simp only [hphase, hhandler, Option.some.injEq] at hadvanced
      subst hadvanced
      exact h.spurious hphase
  | running => simp [hphase] at hadvanced
  | finished =>
    simp only [hphase, Option.some.injEq] at hadvanced
    subst hadvanced
    exact h.left hphase

end Phases

theorem dispatchStep_accounts {d d' : DispatchState} {e : DispatchEvent} (h : Accounts d)
    (hkept : countersKept d e) (hstep : dispatchStep d e = some d') : Accounts d' := by
  cases e with
  | dispatch context =>
    cases context with
    | none =>
      simp only [dispatchStep, Option.ite_none_right_eq_some, Option.some.injEq] at hstep
      obtain ⟨hcontrol, rfl⟩ := hstep
      exact h
    | some ctx =>
      simp only [dispatchStep, Option.ite_none_right_eq_some, Option.some.injEq] at hstep
      obtain ⟨hcontrol, rfl⟩ := hstep
      exact h.dispatched hcontrol ctx
  | advance =>
    obtain ⟨k, frames, n⟩ := d
    cases frames with
    | nil => simp [dispatchStep] at hstep
    | cons f rest =>
      obtain ⟨p, hadvanced, rfl⟩ := Option.map_eq_some_iff.mp hstep
      exact h.advanced hadvanced
  | handlerReturns =>
    obtain ⟨k, frames, n⟩ := d
    cases frames with
    | nil => simp [dispatchStep] at hstep
    | cons f rest =>
      simp only [dispatchStep, Option.ite_none_right_eq_some, Option.some.injEq] at hstep
      obtain ⟨hrunning, rfl⟩ := hstep
      exact h.returned hrunning
  | register intNo handler =>
    simp only [dispatchStep, Option.ite_none_right_eq_some, Option.some.injEq] at hstep
    obtain ⟨hcontrol, rfl⟩ := hstep
    exact h.of_controller rfl rfl
  | unregister intNo =>
    simp only [dispatchStep, Option.ite_none_right_eq_some, Option.some.injEq] at hstep
    obtain ⟨hcontrol, rfl⟩ := hstep
    exact h.of_controller rfl rfl
  | work kernel =>
    simp only [dispatchStep, Option.ite_none_right_eq_some, Option.some.injEq] at hstep
    obtain ⟨hcontrol, rfl⟩ := hstep
    exact h.of_controller hkept.1 hkept.2

section Handlers

variable (others : Nat → InterruptContext → KernelState → KernelState)

theorem entry_reached (d : DispatchState) (ctx : InterruptContext)
    (hcontrol : inControl d.frames = true) :
    Run dispatchStep countersKept d [.dispatch (some ctx), .advance, .advance, .advance]
      ⟨dispatchEntry ctx d.kernel,
        ⟨ctx, .tracked, d.kernel.gIntController.nestedLevel⟩ :: d.frames,
        if d.frames = [] then d.begunWithin else d.begunWithin + 1⟩ := by
  have hbegun : Run dispatchStep countersKept d [.dispatch (some ctx)] _ :=
    Run.single trivial (by rw [dispatchStep, if_pos hcontrol])
  have hcounted : Run dispatchStep countersKept d [.dispatch (some ctx), .advance] _ :=
    hbegun.call trivial rfl
  have hnested : Run dispatchStep countersKept d [.dispatch (some ctx), .advance, .advance] _ :=
    hcounted.call trivial rfl
  exact hnested.call trivial rfl

theorem dispatchEntry_reached (d : DispatchState) (ctx : InterruptContext)
    (handler : InterruptHandler) (hcontrol : inControl d.frames = true)
    (hhandler : d.kernel.gIntController.handlers (vector ctx) = some handler) :
    Run dispatchStep countersKept d
      [.dispatch (some ctx), .advance, .advance, .advance, .advance]
      ⟨dispatchEntry ctx d.kernel,
        ⟨ctx, .running, d.kernel.gIntController.nestedLevel⟩ :: d.frames,
        if d.frames = [] then d.begunWithin else d.begunWithin + 1⟩ := by
  have hentry : (dispatchEntry ctx d.kernel).gIntController.handlers (vector ctx) = some handler := by
    rw [dispatchEntry_handlers, hhandler]
  refine (entry_reached d ctx hcontrol).call trivial ?_
  simp only [dispatchStep, advanced1, hentry]
  rfl

theorem runHandler_counters (ctx : InterruptContext) (k : KernelState)
    (handler : InterruptHandler)
    (hothers : ∀ address k,
      (others address ctx k).gIntController.stats = k.gIntController.stats ∧
        (others address ctx k).gIntController.nestedLevel = k.gIntController.nestedLevel) :
    (runHandler others ctx k handler).gIntController.stats = k.gIntController.stats ∧
      (runHandler others ctx k handler).gIntController.nestedLevel =
        k.gIntController.nestedLevel := by
  cases handler with
  | other address => exact hothers address k
  | irqKeyboard =>
    rw [runHandler, irqKeyboard]
    split
    · exact ⟨rfl, rfl⟩
    · exact ⟨rfl, rfl⟩
  | _ => exact ⟨rfl, rfl⟩

theorem spurious_reached (d : DispatchState) (ctx : InterruptContext)
    (hcontrol : inControl d.frames = true)
    (hhandler : d.kernel.gIntController.handlers (vector ctx) = none) :
    Run dispatchStep countersKept d
      [.dispatch (some ctx), .advance, .advance, .advance, .advance, .advance]
      ⟨interruptDispatch others (some ctx) d.kernel, d.frames,
        if d.frames = [] then d.begunWithin else d.begunWithin + 1⟩ := by
  have hentry : (dispatchEntry ctx d.kernel).gIntController.handlers (vector ctx) = none := by
    rw [dispatchEntry_handlers, hhandler]
  have hfinished : Run dispatchStep countersKept d
      [.dispatch (some ctx), .advance, .advance, .advance, .advance]
      ⟨addSpurious (dispatchEntry ctx d.kernel),
        ⟨ctx, .finished, d.kernel.gIntController.nestedLevel⟩ :: d.frames,
        if d.frames = [] then d.begunWithin else d.begunWithin + 1⟩ := by
    refine (entry_reached d ctx hcontrol).call trivial ?_
    simp only [dispatchStep, advanced1, hentry]
    rfl
  refine hfinished.call trivial ?_
  simp only [interruptDispatch, hentry]
  rfl

theorem handled_reached (d : DispatchState) (ctx : InterruptContext)
    (handler : InterruptHandler) (es : List DispatchEvent) (n : Nat)
    (hcontrol : inControl d.frames = true)
    (hhandler : d.kernel.gIntController.handlers (vector ctx) = some handler)
    (hrun : Run dispatchStep countersKept
      ⟨dispatchEntry ctx d.kernel,
        ⟨ctx, .running, d.kernel.gIntController.nestedLevel⟩ :: d.frames,
        if d.frames = [] then d.begunWithin else d.begunWithin + 1⟩ es
      ⟨runHandler others ctx (dispatchEntry ctx d.kernel) handler,
        ⟨ctx, .running, d.kernel.gIntController.nestedLevel⟩ :: d.frames, n⟩) :
    Run dispatchStep countersKept d
      ([.dispatch (some ctx), .advance, .advance, .advance, .advance] ++ es ++
        [.handlerReturns, .advance])
      ⟨interruptDispatch others (some ctx) d.kernel, d.frames, n⟩ := by
  have hentry : (dispatchEntry ctx d.kernel).gIntController.handlers (vector ctx) = some handler := by
    rw [dispatchEntry_handlers, hhandler]
  have hreturned : Run dispatchStep countersKept
      ⟨runHandler others ctx (dispatchEntry ctx d.kernel) handler,
        ⟨ctx, .running, d.kernel.gIntController.nestedLevel⟩ :: d.frames, n⟩
      [.handlerReturns]
      ⟨addHandled (runHandler others ctx (dispatchEntry ctx d.kernel) handler),
        ⟨ctx, .finished, d.kernel.gIntController.nestedLevel⟩ :: d.frames, n⟩ :=
    Run.single trivial rfl
  refine (dispatchEntry_reached d ctx handler hcontrol hhandler).append hrun |>.append ?_
  refine hreturned.call trivial ?_
  simp only [interruptDispatch, hentry]
  rfl

theorem interruptDispatch_run (d : DispatchState) (ctx : InterruptContext)
    (hothers : ∀ address k,
      (others address ctx k).gIntController.stats = k.gIntController.stats ∧
        (others address ctx k).gIntController.nestedLevel = k.gIntController.nestedLevel)
    (hcontrol : inControl d.frames = true) :
    ∃ es, Run dispatchStep countersKept d es
      ⟨interruptDispatch others (some ctx) d.kernel, d.frames,
        if d.frames = [] then d.begunWithin else d.begunWithin + 1⟩ := by
  cases hhandler : d.kernel.gIntController.handlers (vector ctx) with
  | none => exact ⟨_, spurious_reached others d ctx hcontrol hhandler⟩
  | some handler =>
    have hkept : (runHandler others ctx (dispatchEntry ctx d.kernel) handler).gIntController.stats =
          (dispatchEntry ctx d.kernel).gIntController.stats ∧
        (runHandler others ctx (dispatchEntry ctx d.kernel) handler).gIntController.nestedLevel =
          (dispatchEntry ctx d.kernel).gIntController.nestedLevel :=
      runHandler_counters others ctx _ handler hothers
    exact ⟨_, handled_reached others d ctx handler
      [.work (runHandler others ctx (dispatchEntry ctx d.kernel) handler)] _ hcontrol hhandler
      (Run.single hkept rfl)⟩

end Handlers

def InterruptStats.zero : InterruptStats := ⟨0, 0, 0, 0, fun _ => 0⟩

abbrev DispatchRun (k : KernelState) := Run dispatchStep countersKept ⟨k, [], 0⟩

theorem fresh_accounts {k : KernelState} (hstats : k.gIntController.stats = InterruptStats.zero)
    (hlevel : k.gIntController.nestedLevel = 0) : Accounts ⟨k, [], 0⟩ := by
  refine ⟨by simp, trivial, ?_, ?_, ?_, ?_⟩
  · simp [hlevel, entering, phaseIs]
  · simp [hstats, hlevel, InterruptStats.zero, entering, finishing, phaseIs]
  · simp [hstats, InterruptStats.zero, uncounted, phaseIs, countSum]
  · simp [hstats, InterruptStats.zero, untracked]

theorem Accounts.run {d d' : DispatchState} {es : List DispatchEvent} (h : Accounts d)
    (hrun : Run dispatchStep countersKept d es d') : Accounts d' :=
  hrun.invariant h fun _ _ _ hd hkept hstep => dispatchStep_accounts hd hkept hstep

theorem Accounts.leaves_at_entry {d d' : DispatchState} {f : DispatchFrame}
    {rest : List DispatchFrame} (h : Accounts d) (hframes : d.frames = f :: rest)
    (hfinished : f.phase = .finished) (hstep : dispatchStep d .advance = some d') :
    d'.frames = rest ∧ d'.kernel.gIntController.nestedLevel = f.levelAtEntry := by
  obtain ⟨k, frames, n⟩ := d
  subst hframes
  have hlevel := h.level
  have hentry := h.levels.1
  simp [entering, phaseIs, hfinished] at hlevel
  simp only [dispatchStep, advanced1, hfinished, Option.map_some, Option.some.injEq] at hstep
  subst hstep
  refine ⟨rfl, ?_⟩
  simp [leaveNested, withController, hlevel, hentry]

theorem interrupts_accounted {k : KernelState} {es : List DispatchEvent} {d : DispatchState}
    (hstats : k.gIntController.stats = InterruptStats.zero)
    (hlevel : k.gIntController.nestedLevel = 0) (hrun : DispatchRun k es d) :
    Accounts d ∧ (inControl d.frames = true → Settled d) ∧
      ∀ f rest d', d.frames = f :: rest → f.phase = .finished →
        dispatchStep d .advance = some d' →
        d'.frames = rest ∧ d'.kernel.gIntController.nestedLevel = f.levelAtEntry := by
  have haccounts : Accounts d := (fresh_accounts hstats hlevel).run hrun
  refine ⟨haccounts, haccounts.settled, ?_⟩
  intro f rest d' hframes hfinished hstep
  exact haccounts.leaves_at_entry hframes hfinished hstep

def keyInterrupted : List DispatchEvent :=
  [.dispatch (some ⟨0x21⟩), .advance, .advance, .advance, .advance,
    .dispatch (some ⟨0x99⟩), .advance, .advance, .advance, .advance, .advance,
    .unregister 0x21, .handlerReturns, .advance]

def quietEvent : DispatchEvent → Bool
  | .work _ => false
  | _ => true

theorem quiet_keeps {d : DispatchState} {e : DispatchEvent} (hquiet : quietEvent e = true) :
    countersKept d e := by
  cases e with
  | work kernel => simp [quietEvent] at hquiet
  | _ => trivial

def keyInterruptedEnd : DispatchState :=
  (exec (guarded dispatchStep fun _ e => quietEvent e)
    ⟨booted numbered 0x1000 0x2000, [], 0⟩ keyInterrupted).getD
    ⟨booted numbered 0x1000 0x2000, [], 0⟩

theorem keyInterrupted_run :
    DispatchRun (booted numbered 0x1000 0x2000) keyInterrupted keyInterruptedEnd :=
  (Run.of_exec_isSome (by decide)).mono fun _ _ hquiet => quiet_keeps hquiet

theorem interrupts_accounted_key_interrupted :
    keyInterruptedEnd.frames = [] ∧ keyInterruptedEnd.begunWithin = 1 ∧
      keyInterruptedEnd.kernel.gIntController.stats.totalInterrupts = 2 ∧
      Settled keyInterruptedEnd :=
  ⟨by decide, by decide, by decide,
    (interrupts_accounted rfl rfl keyInterrupted_run).2.1 (by decide)⟩

theorem total_counted_before_level :
    ¬ ∀ (k : KernelState) (es : List DispatchEvent) (d : DispatchState),
      k.gIntController.stats = InterruptStats.zero → k.gIntController.nestedLevel = 0 →
      DispatchRun k es d →
      (d.kernel.gIntController.stats.totalInterrupts : Int) =
        d.kernel.gIntController.stats.handledInterrupts +
          d.kernel.gIntController.stats.spuriousInterrupts +
          d.kernel.gIntController.nestedLevel := by
  intro hall
  have hrun : DispatchRun (booted numbered 0x1000 0x2000) [.dispatch (some ⟨0x21⟩)]
      ⟨addTotal (booted numbered 0x1000 0x2000), [⟨⟨0x21⟩, .totalled, 0⟩], 0⟩ :=
    Run.single trivial rfl
  exact absurd (hall _ _ _ rfl rfl hrun) (by decide)

end ZoraVM.Kernel

import ZoraVM.Kernel.Cpu
import ZoraVM.Kernel.InterruptAccounting

namespace ZoraVM.Kernel

open Foundation

structure DeliveryState where
  calls : DispatchState
  interruptMask : BitVec 32

inductive DeliveryEvent where
  | interruptsEnable
  | interruptsDisable
  | interruptsSetMask (mask : BitVec 32)
  | dispatcher (event : DispatchEvent)

section Model

def intIrqBase : Nat := 0x20

def isIrq (v : BitVec 8) : Bool := intIrqBase ≤ v.toNat && v.toNat < intIrqBase + 16

def masked (mask : BitVec 32) (v : BitVec 8) : Bool := mask.getLsbD (v.toNat - intIrqBase)

def withKernel (d : DeliveryState) (f : KernelState → KernelState) : DeliveryState :=
  { d with calls := { d.calls with kernel := f d.calls.kernel } }

def interruptsEnabled (d : DeliveryState) : Bool := d.calls.kernel.gIntController.interruptsEnabled

def deliveryStep (d : DeliveryState) : DeliveryEvent → Option DeliveryState
  | .interruptsEnable =>
    if inControl d.calls.frames then some (withKernel d fun k => (interruptsEnable k).1) else none
  | .interruptsDisable =>
    if inControl d.calls.frames then some (withKernel d fun k => (interruptsDisable k).1) else none
  | .interruptsSetMask mask =>
    if inControl d.calls.frames then some { d with interruptMask := mask } else none
  | .dispatcher event => (dispatchStep d.calls event).map fun calls => { d with calls := calls }

-- interrupts_enabled is private to interrupts.c.
def flagKept (d : DeliveryState) : DeliveryEvent → Prop
  | .dispatcher (.work kernel) => kernel.gIntController.interruptsEnabled = interruptsEnabled d
  | _ => True

def runningIrq (frames : List DispatchFrame) : Option (BitVec 8) :=
  match frames with
  | [] => none
  | f :: _ => if f.phase = .running ∧ isIrq (vector f.ctx) = true then some (vector f.ctx) else none

def deliverable (d : DeliveryState) (v : BitVec 8) : Bool :=
  interruptsEnabled d && !masked d.interruptMask v

def HeldBack (d : DeliveryState) : Prop :=
  ∀ v, runningIrq d.calls.frames = some v → deliverable d v = true

-- What the caller would have to see to, since the dispatcher does not.
def callerWaits (d : DeliveryState) : DeliveryEvent → Bool
  | .interruptsDisable => (runningIrq d.calls.frames).isNone
  | .interruptsSetMask mask => (runningIrq d.calls.frames).all fun v => !masked mask v
  | .dispatcher .advance =>
    match d.calls.frames with
    | [] => true
    | f :: rest =>
      match f.phase with
      | .tracked =>
        !(isIrq (vector f.ctx) && (d.calls.kernel.gIntController.handlers (vector f.ctx)).isSome) ||
          deliverable d (vector f.ctx)
      | .finished => (runningIrq rest).all (deliverable d)
      | _ => true
  | _ => true

end Model

section Steps

variable {d d' : DeliveryState}

theorem eq_of_guard {α : Type} {c : Prop} [Decidable c] {a b : α}
    (h : (if c then some a else none) = some b) : a = b :=
  Option.some.inj (Option.ite_none_right_eq_some.mp h).2

theorem heldBack_of_idle (h : runningIrq d.calls.frames = none) : HeldBack d := by
  intro v hv
  rw [h] at hv
  cases hv

theorem heldBack_iff_all : HeldBack d ↔ (runningIrq d.calls.frames).all (deliverable d) = true := by
  cases h : runningIrq d.calls.frames with
  | none => exact iff_of_true (heldBack_of_idle h) rfl
  | some v => simp [HeldBack, h]

theorem runningIrq_phase {f : DispatchFrame} {rest : List DispatchFrame} (h : f.phase ≠ .running) :
    runningIrq (f :: rest) = none := by simp [runningIrq, h]

theorem HeldBack.of_same (h : HeldBack d) (hframes : d'.calls.frames = d.calls.frames)
    (hflag : interruptsEnabled d' = interruptsEnabled d)
    (hmask : d'.interruptMask = d.interruptMask) : HeldBack d' := by
  intro v hv
  rw [hframes] at hv
  rw [deliverable, hflag, hmask]
  exact h v hv

theorem enable_step (h : HeldBack d) (hstep : deliveryStep d .interruptsEnable = some d') :
    HeldBack d' := by
  obtain rfl := eq_of_guard hstep
  intro v hv
  have hwas := h v hv
  rw [deliverable, Bool.and_eq_true] at hwas ⊢
  exact ⟨rfl, hwas.2⟩

theorem disable_step (hstep : deliveryStep d .interruptsDisable = some d') :
    HeldBack d' ↔ callerWaits d .interruptsDisable = true := by
  obtain rfl := eq_of_guard hstep
  rw [heldBack_iff_all, callerWaits]
  change (runningIrq d.calls.frames).all (fun _ => false && _) = true ↔ _
  cases runningIrq d.calls.frames <;> simp

theorem setMask_step {mask : BitVec 32} (h : HeldBack d)
    (hstep : deliveryStep d (.interruptsSetMask mask) = some d') :
    HeldBack d' ↔ callerWaits d (.interruptsSetMask mask) = true := by
  obtain rfl := eq_of_guard hstep
  rw [heldBack_iff_all, callerWaits]
  dsimp only
  cases hirq : runningIrq d.calls.frames with
  | none => simp
  | some v =>
    have hwas := h v hirq
    rw [deliverable, Bool.and_eq_true] at hwas
    have hflag : interruptsEnabled { d with interruptMask := mask } = true := hwas.1
    simp [deliverable, hflag]

theorem advance_step (hstep : deliveryStep d (.dispatcher .advance) = some d') :
    HeldBack d' ↔ callerWaits d (.dispatcher .advance) = true := by
  obtain ⟨⟨k, frames, n⟩, mask⟩ := d
  obtain ⟨calls, hcalls, rfl⟩ := Option.map_eq_some_iff.mp hstep
  cases frames with
  | nil => cases hcalls
  | cons f rest =>
    obtain ⟨p, hp, rfl⟩ := Option.map_eq_some_iff.mp hcalls
    dsimp only [advanced1] at hp
    rw [callerWaits]
    dsimp only
    cases hphase : f.phase with
    | totalled =>
      rw [hphase] at hp
      obtain rfl := Option.some.inj hp
      exact iff_of_true (heldBack_of_idle (runningIrq_phase (by simp))) rfl
    | counted =>
      rw [hphase] at hp
      obtain rfl := Option.some.inj hp
      exact iff_of_true (heldBack_of_idle (runningIrq_phase (by simp))) rfl
    | nested =>
      rw [hphase] at hp
      obtain rfl := Option.some.inj hp
      exact iff_of_true (heldBack_of_idle (runningIrq_phase (by simp))) rfl
    | tracked =>
      rw [hphase] at hp
      dsimp only at hp
      cases hhandler : k.gIntController.handlers (vector f.ctx) with
      | none =>
        rw [hhandler] at hp
        obtain rfl := Option.some.inj hp
        refine iff_of_true (heldBack_of_idle (runningIrq_phase (by simp))) ?_
        simp
      | some handler =>
        rw [hhandler] at hp
        obtain rfl := Option.some.inj hp
        rw [heldBack_iff_all]
        cases hirq : isIrq (vector f.ctx) with
        | false => simp [runningIrq, hirq]
        | true => simp [runningIrq, hirq, deliverable, interruptsEnabled]
    | running =>
      rw [hphase] at hp
      cases hp
    | finished =>
      rw [hphase] at hp
      obtain rfl := Option.some.inj hp
      exact heldBack_iff_all

theorem dispatcher_step {event : DispatchEvent} (h : HeldBack d)
    (hkept : flagKept d (.dispatcher event))
    (hstep : deliveryStep d (.dispatcher event) = some d') :
    HeldBack d' ↔ callerWaits d (.dispatcher event) = true := by
  cases event with
  | advance => exact advance_step hstep
  | dispatch context =>
    refine iff_of_true ?_ rfl
    obtain ⟨calls, hcalls, rfl⟩ := Option.map_eq_some_iff.mp hstep
    cases context with
    | none =>
      obtain rfl := eq_of_guard hcalls
      exact h
    | some ctx =>
      obtain rfl := eq_of_guard hcalls
      exact heldBack_of_idle (runningIrq_phase (by simp))
  | handlerReturns =>
    refine iff_of_true ?_ rfl
    obtain ⟨⟨k, frames, n⟩, mask⟩ := d
    obtain ⟨calls, hcalls, rfl⟩ := Option.map_eq_some_iff.mp hstep
    cases frames with
    | nil => cases hcalls
    | cons f rest =>
      obtain rfl := eq_of_guard hcalls
      exact heldBack_of_idle (runningIrq_phase (by simp))
  | register intNo handler =>
    refine iff_of_true ?_ rfl
    obtain ⟨calls, hcalls, rfl⟩ := Option.map_eq_some_iff.mp hstep
    obtain rfl := eq_of_guard hcalls
    exact h.of_same rfl rfl rfl
  | unregister intNo =>
    refine iff_of_true ?_ rfl
    obtain ⟨calls, hcalls, rfl⟩ := Option.map_eq_some_iff.mp hstep
    obtain rfl := eq_of_guard hcalls
    exact h.of_same rfl rfl rfl
  | work kernel =>
    refine iff_of_true ?_ rfl
    obtain ⟨calls, hcalls, rfl⟩ := Option.map_eq_some_iff.mp hstep
    obtain rfl := eq_of_guard hcalls
    exact h.of_same rfl hkept rfl

theorem delivery_step {e : DeliveryEvent} (h : HeldBack d) (hkept : flagKept d e)
    (hstep : deliveryStep d e = some d') : HeldBack d' ↔ callerWaits d e = true := by
  cases e with
  | interruptsEnable => exact iff_of_true (enable_step h hstep) rfl
  | interruptsDisable => exact disable_step hstep
  | interruptsSetMask mask => exact setMask_step h hstep
  | dispatcher event => exact dispatcher_step h hkept hstep

end Steps

section Runs

theorem dispatcher_run {allowed : DispatchState → DispatchEvent → Prop} {c c' : DispatchState}
    {es : List DispatchEvent} (mask : BitVec 32) (hrun : Run dispatchStep allowed c es c')
    (hquiet : ∀ e ∈ es, quietEvent e = true) :
    Run deliveryStep flagKept ⟨c, mask⟩ (es.map .dispatcher) ⟨c', mask⟩ := by
  induction hrun with
  | start => exact .start
  | @call es c c' e _ _ hs ih =>
    rw [List.map_append]
    refine (ih fun e he => hquiet e (List.mem_append_left _ he)).call ?_ ?_
    · have hlast : quietEvent e = true :=
        hquiet e (List.mem_append_right _ List.mem_cons_self)
      cases e with
      | work kernel => cases hlast
      | _ => trivial
    · rw [deliveryStep, hs]
      rfl

theorem dispatchEntry_flag (ctx : InterruptContext) (k : KernelState) :
    (dispatchEntry ctx k).gIntController.interruptsEnabled =
      k.gIntController.interruptsEnabled := by
  rw [dispatchEntry_statements]
  rcases trackNested_cases (enterNested (addCount ctx (addTotal k))) with ⟨_, h⟩ | ⟨_, h⟩
  · rw [h]
    rfl
  · rw [h]
    rfl

theorem irq_delivered (d : DeliveryState) (ctx : InterruptContext) (handler : InterruptHandler)
    (hcontrol : inControl d.calls.frames = true) (hirq : isIrq (vector ctx) = true)
    (hhandler : d.calls.kernel.gIntController.handlers (vector ctx) = some handler) :
    ∃ es d', Run deliveryStep flagKept d es d' ∧
      runningIrq d'.calls.frames = some (vector ctx) ∧
      interruptsEnabled d' = interruptsEnabled d ∧ d'.interruptMask = d.interruptMask := by
  have hreached := dispatchEntry_reached d.calls ctx handler hcontrol hhandler
  refine ⟨_, _, dispatcher_run d.interruptMask hreached (by simp [quietEvent]), ?_, ?_, rfl⟩
  · simp [runningIrq, hirq]
  · exact dispatchEntry_flag ctx d.calls.kernel

abbrev DeliveryRun (allowed : DeliveryState → DeliveryEvent → Prop) (k : KernelState)
    (mask : BitVec 32) := Run deliveryStep allowed ⟨⟨k, [], 0⟩, mask⟩

theorem irqs_held_back {k : KernelState} {mask : BitVec 32} {es : List DeliveryEvent}
    {d : DeliveryState}
    (hrun : DeliveryRun (fun d e => flagKept d e ∧ callerWaits d e = true) k mask es d) :
    HeldBack d ∧ ∀ e d', flagKept d e → deliveryStep d e = some d' →
      (HeldBack d' ↔ callerWaits d e = true) := by
  have hheld : HeldBack d := by
    refine hrun.invariant (heldBack_of_idle rfl) ?_
    intro d e d' h hok hstep
    exact (delivery_step h hok.1 hstep).mpr hok.2
  exact ⟨hheld, fun e d' hkept hstep => delivery_step hheld hkept hstep⟩

def noWork : DeliveryEvent → Bool
  | .dispatcher event => quietEvent event
  | _ => true

theorem flagKept_of_noWork {d : DeliveryState} {e : DeliveryEvent} (h : noWork e = true) :
    flagKept d e := by
  cases e with
  | dispatcher event =>
    cases event with
    | work kernel => cases h
    | _ => trivial
  | _ => trivial

def handled (v : BitVec 32) : List DeliveryEvent :=
  [.dispatcher (.dispatch (some ⟨v⟩)), .dispatcher .advance, .dispatcher .advance,
    .dispatcher .advance, .dispatcher .advance]

def booting : DeliveryState := ⟨⟨booted numbered 0x1000 0x2000, [], 0⟩, 0⟩

def politeCalls : List DeliveryEvent :=
  [.interruptsSetMask 2] ++ handled 0x20 ++
    [.dispatcher .handlerReturns, .dispatcher .advance, .interruptsDisable] ++ handled 0x2F ++
    [.dispatcher .advance, .interruptsEnable] ++ handled 0x20

def politeEnd : DeliveryState :=
  (exec (guarded deliveryStep fun d e => noWork e && callerWaits d e) booting politeCalls).getD
    booting

theorem irqs_held_back_polite :
    runningIrq politeEnd.calls.frames = some 0x20 ∧ HeldBack politeEnd := by
  have hrun : Run deliveryStep (fun d e => (noWork e && callerWaits d e) = true) booting
      politeCalls politeEnd := Run.of_exec_isSome (by decide)
  refine ⟨by decide, (irqs_held_back (hrun.mono fun d e h => ?_)).1⟩
  rw [Bool.and_eq_true] at h
  exact ⟨flagKept_of_noWork h.1, h.2⟩

def disabledEnd : DeliveryState :=
  (exec (guarded deliveryStep fun _ e => noWork e) booting
    (.interruptsDisable :: handled 0x20)).getD booting

theorem timer_runs_disabled :
    ¬ ∀ (es : List DeliveryEvent) (d : DeliveryState),
      DeliveryRun flagKept (booted numbered 0x1000 0x2000) 0 es d → HeldBack d := by
  intro hall
  have hrun : Run deliveryStep (fun _ e => noWork e = true) booting
      (.interruptsDisable :: handled 0x20) disabledEnd := Run.of_exec_isSome (by decide)
  have hheld := hall _ _ (hrun.mono fun d e h => flagKept_of_noWork h)
  exact absurd (heldBack_iff_all.mp hheld) (by decide)

end Runs

end ZoraVM.Kernel

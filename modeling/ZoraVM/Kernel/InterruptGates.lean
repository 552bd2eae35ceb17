import Mathlib.Tactic

namespace ZoraVM.Kernel

structure IdtEntry where
  offsetLow : BitVec 16
  selector : BitVec 16
  zero : BitVec 8
  typeAttr : BitVec 8
  offsetHigh : BitVec 16
  deriving DecidableEq, Repr

namespace IdtEntry

def present (e : IdtEntry) : Bool := e.typeAttr.getLsbD 7

def dpl (e : IdtEntry) : BitVec 8 := (e.typeAttr >>> 5) &&& 3

def offset (e : IdtEntry) : BitVec 32 :=
  (e.offsetHigh.setWidth 32 <<< 16) ||| e.offsetLow.setWidth 32

end IdtEntry

def intSyscall : BitVec 8 := 0x80
def kernelCodeSegment : BitVec 16 := 0x08

-- The two tables of the controller; a handler is its address, and 0 is NULL.
structure GateTables where
  idt : BitVec 8 → IdtEntry
  handlers : BitVec 8 → BitVec 32

def GateTables.zeroed : GateTables := ⟨fun _ => ⟨0, 0, 0, 0, 0⟩, fun _ => 0⟩

def idtSetGate (g : GateTables) (num : BitVec 8) (handler : BitVec 32) (selector : BitVec 16)
    (flags : BitVec 8) : GateTables :=
  { g with
    idt := Function.update g.idt num
      { offsetLow := (handler &&& 0xFFFF).setWidth 16
        offsetHigh := ((handler >>> 16) &&& 0xFFFF).setWidth 16
        selector := selector
        zero := 0
        typeAttr := flags } }

def gateFlags (intNo : BitVec 8) : BitVec 8 := if intNo = intSyscall then 0xEE else 0x8E

-- MAX_INTERRUPTS is 256: the test of the vector against it never fails on a byte.
def interruptRegisterGate (g : GateTables) (intNo : BitVec 8) (handler : BitVec 32) : GateTables :=
  idtSetGate { g with handlers := Function.update g.handlers intNo handler } intNo handler
    kernelCodeSegment (gateFlags intNo)

def interruptUnregisterGate (g : GateTables) (intNo : BitVec 8) : GateTables :=
  { g with handlers := Function.update g.handlers intNo 0 }

inductive GateCall where
  | register (intNo : BitVec 8) (handler : BitVec 32)
  | unregister (intNo : BitVec 8)
  deriving DecidableEq, Repr

def GateCall.intNo : GateCall → BitVec 8
  | .register v _ => v
  | .unregister v => v

def gateCall (g : GateTables) : GateCall → GateTables
  | .register v a => interruptRegisterGate g v a
  | .unregister v => interruptUnregisterGate g v

def gateRun (calls : List GateCall) : GateTables := calls.foldl gateCall .zeroed

structure GateAgrees (g : GateTables) (v : BitVec 8) : Prop where
  present_iff : (g.idt v).present = true ↔ g.handlers v ≠ 0
  offset_eq : g.handlers v ≠ 0 → (g.idt v).offset = g.handlers v
  dpl_iff : g.handlers v ≠ 0 → ((g.idt v).dpl = 3 ↔ v = intSyscall)

def lastCall (v : BitVec 8) (calls : List GateCall) : Option GateCall :=
  (calls.filter fun c => c.intNo = v).getLast?

def everRegistered (v : BitVec 8) (calls : List GateCall) : Prop :=
  ∃ a, GateCall.register v a ∈ calls

def gateOf (v : BitVec 8) (a : BitVec 32) : IdtEntry where
  offsetLow := (a &&& 0xFFFF).setWidth 16
  offsetHigh := ((a >>> 16) &&& 0xFFFF).setWidth 16
  selector := kernelCodeSegment
  zero := 0
  typeAttr := gateFlags v

variable {v w : BitVec 8} {a : BitVec 32} {calls : List GateCall}

theorem lowMask : (0xFFFF : BitVec 32) = (BitVec.allOnes 16).setWidth 32 := by decide

theorem gateOf_offset (v : BitVec 8) (a : BitVec 32) : (gateOf v a).offset = a := by
  refine BitVec.eq_of_getLsbD_eq fun i hi => ?_
  simp only [gateOf, IdtEntry.offset, lowMask, BitVec.getLsbD_or, BitVec.getLsbD_shiftLeft,
    BitVec.getLsbD_setWidth, BitVec.getLsbD_and, BitVec.getLsbD_ushiftRight,
    BitVec.getLsbD_allOnes]
  by_cases hlow : i < 16
  · simp [hi, hlow]
  · have hbit : i - 16 < 16 := by omega
    have hword : i - 16 < 32 := by omega
    have hback : 16 + (i - 16) = i := by omega
    simp [hi, hlow, hbit, hword, hback]

theorem gateFlags_cases (v : BitVec 8) :
    (v = intSyscall ∧ gateFlags v = 0xEE) ∨ (v ≠ intSyscall ∧ gateFlags v = 0x8E) := by
  by_cases hv : v = intSyscall
  · exact .inl ⟨hv, if_pos hv⟩
  · exact .inr ⟨hv, if_neg hv⟩

theorem gateOf_present (v : BitVec 8) (a : BitVec 32) : (gateOf v a).present = true := by
  rcases gateFlags_cases v with ⟨-, h⟩ | ⟨-, h⟩ <;>
  · simp only [gateOf, IdtEntry.present, h]
    decide

theorem gateOf_dpl (v : BitVec 8) (a : BitVec 32) : (gateOf v a).dpl = 3 ↔ v = intSyscall := by
  rcases gateFlags_cases v with ⟨hv, h⟩ | ⟨hv, h⟩ <;>
  · simp only [gateOf, IdtEntry.dpl, h, hv]
    decide

theorem lastCall_concat (v : BitVec 8) (calls : List GateCall) (c : GateCall) :
    lastCall v (calls ++ [c]) = if c.intNo = v then some c else lastCall v calls := by
  by_cases hc : c.intNo = v
  · simp [lastCall, List.filter_append, hc]
  · simp [lastCall, List.filter_append, hc]

theorem everRegistered_concat {c : GateCall} (h : everRegistered v calls) :
    everRegistered v (calls ++ [c]) :=
  h.imp fun _ hmem => List.mem_append_left _ hmem

theorem not_everRegistered_concat {c : GateCall} (h : ¬ everRegistered v calls)
    (hc : ∀ a, c ≠ .register v a) : ¬ everRegistered v (calls ++ [c]) := by
  rintro ⟨a, hmem⟩
  rcases List.mem_append.mp hmem with hmem | hmem
  · exact h ⟨a, hmem⟩
  · exact hc a (List.mem_singleton.mp hmem).symm

inductive Entries (v : BitVec 8) (calls : List GateCall) : IdtEntry → BitVec 32 → Prop
  | untouched : ¬ everRegistered v calls → Entries v calls ⟨0, 0, 0, 0, 0⟩ 0
  | registered {a : BitVec 32} : everRegistered v calls →
      lastCall v calls = some (.register v a) → Entries v calls (gateOf v a) a
  | unregistered {a : BitVec 32} : everRegistered v calls →
      lastCall v calls = some (.unregister v) → Entries v calls (gateOf v a) 0

theorem Entries.elsewhere {c : GateCall} {e : IdtEntry} (h : Entries v calls e a)
    (hc : c.intNo ≠ v) : Entries v (calls ++ [c]) e a := by
  have hlast := lastCall_concat v calls c
  rw [if_neg hc] at hlast
  cases h with
  | untouched hnever =>
    refine .untouched (not_everRegistered_concat hnever fun a => ?_)
    rintro rfl
    exact hc rfl
  | registered hever hreg => exact .registered (everRegistered_concat hever) (hlast.trans hreg)
  | unregistered hever hun => exact .unregistered (everRegistered_concat hever) (hlast.trans hun)

theorem Entries.register (v : BitVec 8) (a : BitVec 32) (calls : List GateCall) :
    Entries v (calls ++ [.register v a]) (gateOf v a) a :=
  .registered ⟨a, List.mem_append_right _ List.mem_cons_self⟩
    ((lastCall_concat v calls _).trans (if_pos rfl))

theorem Entries.unregister {e : IdtEntry} (h : Entries v calls e a) :
    Entries v (calls ++ [.unregister v]) e 0 := by
  have hlast : lastCall v (calls ++ [.unregister v]) = some (.unregister v) :=
    (lastCall_concat v calls _).trans (if_pos rfl)
  cases h with
  | untouched hnever =>
    exact .untouched (not_everRegistered_concat hnever fun a => GateCall.noConfusion)
  | registered hever => exact .unregistered (everRegistered_concat hever) hlast
  | unregistered hever => exact .unregistered (everRegistered_concat hever) hlast

theorem entries_run (v : BitVec 8) (calls : List GateCall) :
    Entries v calls ((gateRun calls).idt v) ((gateRun calls).handlers v) := by
  induction calls using List.reverseRecOn with
  | nil => exact .untouched (by rintro ⟨a, ⟨⟩⟩)
  | append_singleton calls c ih =>
    rw [gateRun, List.foldl_append, ← gateRun, List.foldl_cons, List.foldl_nil]
    by_cases hc : c.intNo = v
    · subst hc
      cases c with
      | register v a =>
        simp only [gateCall, interruptRegisterGate, idtSetGate, GateCall.intNo,
          Function.update_self]
        exact .register v a calls
      | unregister v =>
        simp only [gateCall, interruptUnregisterGate, GateCall.intNo, Function.update_self]
        exact ih.unregister
    · have hsame : (gateCall (gateRun calls) c).idt v = (gateRun calls).idt v ∧
          (gateCall (gateRun calls) c).handlers v = (gateRun calls).handlers v := by
        cases c with
        | register w a =>
          have hw : v ≠ w := fun h => hc h.symm
          simp [gateCall, interruptRegisterGate, idtSetGate, hw]
        | unregister w =>
          have hw : v ≠ w := fun h => hc h.symm
          simp [gateCall, interruptUnregisterGate, hw]
      rw [hsame.1, hsame.2]
      exact ih.elsewhere hc

theorem gate_agrees_iff (v : BitVec 8) (calls : List GateCall) :
    GateAgrees (gateRun calls) v ↔
      (everRegistered v calls → ∃ a, a ≠ 0 ∧ lastCall v calls = some (.register v a)) := by
  have hentries := entries_run v calls
  generalize hidt : (gateRun calls).idt v = e at hentries
  generalize hhandler : (gateRun calls).handlers v = a at hentries
  constructor
  · intro hagrees hever
    have hpresent := hagrees.present_iff
    rw [hidt, hhandler] at hpresent
    cases hentries with
    | untouched hnever => exact absurd hever hnever
    | registered _ hreg => exact ⟨a, hpresent.mp (gateOf_present v a), hreg⟩
    | unregistered => exact absurd rfl (hpresent.mp (gateOf_present v _))
  · intro hlast
    cases hentries with
    | untouched hnever =>
      refine ⟨?_, fun h => absurd hhandler h, fun h => absurd hhandler h⟩
      rw [hidt, hhandler]
      decide
    | registered hever hreg =>
      obtain ⟨b, hb, hreg'⟩ := hlast hever
      rw [hreg] at hreg'
      cases hreg'
      refine ⟨?_, ?_, ?_⟩ <;> rw [hidt, hhandler]
      · exact iff_of_true (gateOf_present v a) hb
      · exact fun _ => gateOf_offset v a
      · exact fun _ => gateOf_dpl v a
    | unregistered hever hun =>
      obtain ⟨b, -, hreg⟩ := hlast hever
      rw [hun] at hreg
      cases hreg

theorem gates_agree_iff (calls : List GateCall) :
    (∀ v, GateAgrees (gateRun calls) v) ↔
      ∀ v, everRegistered v calls → ∃ a, a ≠ 0 ∧ lastCall v calls = some (.register v a) :=
  forall_congr' fun v => gate_agrees_iff v calls

theorem unregistered_gate_present :
    ¬ ∀ (calls : List GateCall) (v : BitVec 8), GateAgrees (gateRun calls) v := by
  intro hall
  have h := (hall [.register 0x21 0x401000, .unregister 0x21] 0x21).present_iff
  exact absurd rfl (h.mp (by decide))

end ZoraVM.Kernel

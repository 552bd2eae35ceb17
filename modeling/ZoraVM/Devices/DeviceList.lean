import ZoraVM.Devices.DeviceManager

namespace ZoraVM.Devices

open Foundation

structure Listed (manager : DeviceManager) (nodes : List DeviceRef) : Prop where
  chain : Segment manager.nextOf manager.deviceList nodes none
  count : nodes.length = manager.deviceCount.toNat
  ids : (nodes.map manager.idOf).Nodup

structure Kept (manager : DeviceManager) (nodes : List DeviceRef) : Prop extends
    Listed manager nodes where
  handed : ∀ p ∈ nodes, p.val < manager.created

structure SameList (manager manager' : DeviceManager) : Prop where
  nextOf_eq : manager'.nextOf = manager.nextOf
  idOf_eq : manager'.idOf = manager.idOf
  deviceList_eq : manager'.deviceList = manager.deviceList
  deviceCount_eq : manager'.deviceCount = manager.deviceCount
  created_eq : manager'.created = manager.created

def Fits (manager : DeviceManager) : DeviceCall → Prop
  | .register (some p) (some driver) => (driver.run (manager.devices p)).1 = 0 →
      deviceFindById manager (manager.idOf p) (maxDevices + 1) = some none
  | _ => True

section Updates

variable {manager manager' : DeviceManager} {nodes : List DeviceRef} {p : DeviceRef} {device : Device}
variable {driver : DeviceDriver}

theorem nextOf_put (manager : DeviceManager) (p : DeviceRef) (device : Device) :
    (manager.put p device).nextOf = Function.update manager.nextOf p device.next := by
  funext q
  by_cases hq : q = p
  · subst hq
    simp [DeviceManager.nextOf, DeviceManager.put]
  · simp [DeviceManager.nextOf, DeviceManager.put, hq]

theorem idOf_put (manager : DeviceManager) (p : DeviceRef) (device : Device) :
    (manager.put p device).idOf = Function.update manager.idOf p device.id := by
  funext q
  by_cases hq : q = p
  · subst hq
    simp [DeviceManager.idOf, DeviceManager.put]
  · simp [DeviceManager.idOf, DeviceManager.put, hq]

theorem SameList.refl (manager : DeviceManager) : SameList manager manager :=
  ⟨rfl, rfl, rfl, rfl, rfl⟩

theorem SameList.trans {later : DeviceManager} (h : SameList manager manager')
    (h' : SameList manager' later) : SameList manager later :=
  ⟨h'.nextOf_eq.trans h.nextOf_eq, h'.idOf_eq.trans h.idOf_eq,
    h'.deviceList_eq.trans h.deviceList_eq, h'.deviceCount_eq.trans h.deviceCount_eq,
    h'.created_eq.trans h.created_eq⟩

theorem sameList_put (hid : device.id = manager.idOf p) (hnext : device.next = manager.nextOf p) :
    SameList manager (manager.put p device) := by
  refine ⟨?_, ?_, rfl, rfl, rfl⟩
  · rw [nextOf_put, hnext, Function.update_eq_self]
  · rw [idOf_put, hid, Function.update_eq_self]

theorem SameList.listed_iff (h : SameList manager manager') :
    Listed manager' nodes ↔ Listed manager nodes := by
  constructor
  · rintro ⟨hchain, hcount, hids⟩
    exact ⟨h.nextOf_eq ▸ h.deviceList_eq ▸ hchain, h.deviceCount_eq ▸ hcount, h.idOf_eq ▸ hids⟩
  · rintro ⟨hchain, hcount, hids⟩
    refine ⟨?_, ?_, ?_⟩
    · rw [h.nextOf_eq, h.deviceList_eq]
      exact hchain
    · rw [h.deviceCount_eq]
      exact hcount
    · rw [h.idOf_eq]
      exact hids

theorem SameList.kept (h : SameList manager manager') (hkept : Kept manager nodes) :
    Kept manager' nodes :=
  ⟨h.listed_iff.mpr hkept.toListed, fun p hp => h.created_eq ▸ hkept.handed p hp⟩

theorem run_id (driver : DeviceDriver) (device : Device) : (driver.run device).2.id = device.id := by
  cases hinit : driver.init with
  | none => rw [DeviceDriver.run, hinit]
  | some init =>
    rw [DeviceDriver.run, hinit]
    exact driver.keepsId init (by simp [hinit]) device

theorem run_next (driver : DeviceDriver) (device : Device) :
    (driver.run device).2.next = device.next := by
  cases hinit : driver.init with
  | none => rw [DeviceDriver.run, hinit]
  | some init =>
    rw [DeviceDriver.run, hinit]
    exact driver.keepsNext init (by simp [hinit]) device

end Updates

section Lists

variable {manager manager' : DeviceManager} {nodes : List DeviceRef} {p : DeviceRef}
variable {driver : DeviceDriver} {fuel : Nat}

theorem Listed.length_le (h : Listed manager nodes) : nodes.length ≤ maxDevices := by
  simpa using h.chain.nodup.length_le_card

theorem Listed.findById_eq (h : Listed manager nodes) (id : UInt32) (hfuel : nodes.length < fuel) :
    deviceFindById manager id fuel = some (nodes.find? fun p => manager.idOf p = id) :=
  h.chain.findFrom_eq hfuel

theorem Listed.findByType_eq (h : Listed manager nodes) (type : DeviceType)
    (hfuel : nodes.length < fuel) : deviceFindByType manager type fuel =
      some (nodes.find? fun p => (manager.devices p).type = type) :=
  h.chain.findFrom_eq hfuel

theorem Listed.fits_iff (h : Listed manager nodes) :
    Fits manager (.register (some p) (some driver)) ↔
      ((driver.run (manager.devices p)).1 = 0 → ∀ q ∈ nodes, manager.idOf q ≠ manager.idOf p) := by
  have hlen := h.length_le
  rw [Fits, h.findById_eq _ (by omega)]
  simp

theorem register_fails (h : (driver.run (manager.devices p)).1 ≠ 0) :
    SameList manager (deviceRegister manager (some p) (some driver)).2 := by
  have hcall : deviceRegister manager (some p) (some driver) =
      (-1, manager.put p (driver.run (manager.devices p)).2) := if_pos h
  rw [hcall]
  exact sameList_put (run_id _ _) (run_next _ _)

theorem register_links (h : (driver.run (manager.devices p)).1 = 0) :
    (deviceRegister manager (some p) (some driver)).2.nextOf =
        Function.update manager.nextOf p manager.deviceList ∧
      (deviceRegister manager (some p) (some driver)).2.idOf = manager.idOf ∧
      (deviceRegister manager (some p) (some driver)).2.deviceList = some p ∧
      (deviceRegister manager (some p) (some driver)).2.deviceCount = manager.deviceCount + 1 ∧
      (deviceRegister manager (some p) (some driver)).2.created = manager.created := by
  have hcall : deviceRegister manager (some p) (some driver) = _ := if_neg (not_not.mpr h)
  rw [hcall]
  refine ⟨nextOf_put manager p _, (idOf_put manager p _).trans ?_, rfl, rfl, rfl⟩
  have hid := congrArg (Function.update manager.idOf p) (run_id driver (manager.devices p))
  exact hid.trans (Function.update_eq_self p manager.idOf)

theorem Kept.register (h : Kept manager nodes) (hp : p.val < manager.created)
    (hlinks : (driver.run (manager.devices p)).1 = 0)
    (hfresh : ∀ q ∈ nodes, manager.idOf q ≠ manager.idOf p) :
    Kept (deviceRegister manager (some p) (some driver)).2 (p :: nodes) := by
  obtain ⟨hnext, hid, hlist, hcount, hcreated⟩ := register_links (p := p) hlinks
  have hnotin : p ∉ nodes := fun hmem => hfresh p hmem rfl
  have hlen : (p :: nodes).length ≤ maxDevices := by
    simpa using (List.nodup_cons.mpr ⟨hnotin, h.chain.nodup⟩).length_le_card
  refine ⟨⟨?_, ?_, ?_⟩, ?_⟩
  · rw [hnext, hlist]
    exact h.chain.push hnotin
  · have hold := h.count
    have hmax : maxDevices = 64 := rfl
    rw [List.length_cons] at hlen
    rw [hcount, UInt32.toNat_add, List.length_cons, hold, UInt32.toNat_one]
    omega
  · rw [hid, List.map_cons, List.nodup_cons]
    refine ⟨fun hmem => ?_, h.ids⟩
    obtain ⟨q, hq, hsame⟩ := List.mem_map.mp hmem
    exact hfresh q hq hsame
  · rw [hcreated]
    exact List.forall_mem_cons.mpr ⟨hp, h.handed⟩

theorem register_breaks (h : Listed manager nodes) (hlinks : (driver.run (manager.devices p)).1 = 0)
    {q : DeviceRef} (hq : q ∈ nodes) (hsame : manager.idOf q = manager.idOf p)
    (nodes' : List DeviceRef) :
    ¬ Listed (deviceRegister manager (some p) (some driver)).2 nodes' := by
  obtain ⟨hnext, hid, hlist, -, -⟩ := register_links (p := p) hlinks
  intro h'
  have hchain' := h'.chain
  have hids' := h'.ids
  rw [hnext, hlist] at hchain'
  rw [hid] at hids'
  by_cases hp : p ∈ nodes
  · obtain ⟨front, behind, rfl⟩ := List.append_of_mem hp
    exact h.chain.push_cycle.no_end_of_cycle hchain'
  · rw [hchain'.unique (h.chain.push hp), List.map_cons, List.nodup_cons] at hids'
    exact hids'.1 (List.mem_map.mpr ⟨q, hq, hsame⟩)

theorem register_never_returns (h : Listed manager nodes)
    (hlinks : (driver.run (manager.devices p)).1 = 0) (hp : p ∈ nodes) {id : UInt32}
    (hid : ∀ q ∈ nodes, manager.idOf q ≠ id) (fuel : Nat) :
    deviceFindById (deviceRegister manager (some p) (some driver)).2 id fuel = none := by
  obtain ⟨hnext, hidOf, hlist, -, -⟩ := register_links (p := p) hlinks
  obtain ⟨front, behind, rfl⟩ := List.append_of_mem hp
  rw [deviceFindById, hnext, hidOf, hlist]
  refine h.chain.push_cycle.findFrom_cycle (fun q hq => decide_eq_false (hid q ?_)) fuel
  rcases List.mem_cons.mp hq with rfl | hq
  · exact hp
  · exact List.mem_append_left _ hq

theorem Kept.create (h : Kept manager nodes) (deviceClass : DeviceClass) (type : DeviceType)
    (name : Bytes) (allocated : Bool) :
    Kept (deviceCreate manager deviceClass type name allocated).2 nodes := by
  rw [deviceCreate]
  split
  · next hroom =>
    have hfresh : (⟨manager.created, hroom⟩ : DeviceRef) ∉ nodes := fun hmem => by
      simpa using h.handed _ hmem
    have hids : ∀ id, nodes.map (Function.update manager.idOf ⟨manager.created, hroom⟩ id) =
        nodes.map manager.idOf := fun id =>
      List.map_congr_left fun q hq => Function.update_of_ne (ne_of_mem_of_not_mem hq hfresh) _ _
    have hlisted : ∀ device, Listed (manager.put ⟨manager.created, hroom⟩ device) nodes := by
      intro device
      refine ⟨?_, h.count, ?_⟩
      · rw [nextOf_put]
        exact h.chain.congr_of_notMem hfresh _
      · rw [idOf_put, hids]
        exact h.ids
    cases allocated with
    | true =>
      obtain ⟨hchain, hcount, hids⟩ := hlisted _
      exact ⟨⟨hchain, hcount, hids⟩, fun q hq => Nat.lt_succ_of_lt (h.handed q hq)⟩
    | false =>
      obtain ⟨hchain, hcount, hids⟩ := hlisted _
      exact ⟨⟨hchain, hcount, hids⟩, h.handed⟩
  · exact h

theorem sameList_setState (p : DeviceRef) (state : DeviceState) :
    SameList manager (manager.put p { manager.devices p with state := state }) :=
  sameList_put rfl rfl

theorem sameList_completeIo (p : DeviceRef) : SameList manager (completeIo manager p) := by
  rw [completeIo]
  split
  · exact sameList_setState p .ready
  · exact .refl manager

theorem sameList_processIo (h : processIoOperations manager fuel = some manager') :
    SameList manager manager' :=
  walkFrom_preserves (P := SameList manager) (fun _ p hsame => hsame.trans (sameList_completeIo p))
    (.refl manager) h

theorem sameList_manageState (h : manageDeviceState manager fuel = some manager') :
    SameList manager manager' := by
  obtain ⟨counts, -, hdone⟩ := Option.bind_eq_some_iff.mp h
  exact Option.some.inj hdone ▸ ⟨rfl, rfl, rfl, rfl, rfl⟩

theorem Listed.traversals_end (h : Listed manager nodes) (hfuel : nodes.length < fuel) :
    (processIoOperations manager fuel).isSome ∧ (manageDeviceState manager fuel).isSome := by
  constructor
  · rw [processIoOperations, h.chain.walkFrom_eq (fun s p => (sameList_completeIo p).nextOf_eq) hfuel]
    rfl
  · have hwalk := @Segment.walkFrom_eq _ _ (fun _ => manager.nextOf) (countState manager) _ _ (0, 0)
      (fun _ _ => rfl) h.chain _ hfuel
    rw [manageDeviceState, hwalk]
    rfl

end Lists

section Runs

variable {manager manager' : DeviceManager} {nodes : List DeviceRef} {call : DeviceCall}
variable {calls : List DeviceCall}

theorem Kept.step (h : Kept manager nodes) (hfits : Fits manager call)
    (hcall : deviceCall manager call = some manager') : ∃ nodes', Kept manager' nodes' := by
  cases call with
  | create deviceClass type name allocated =>
    exact ⟨nodes, Option.some.inj hcall ▸ h.create deviceClass type name allocated⟩
  | register device driver =>
    obtain ⟨hhanded, rfl⟩ : (∀ p ∈ device, p.val < manager.created) ∧
        (deviceRegister manager device driver).2 = manager' := by
      simpa [deviceCall] using hcall
    cases device with
    | none => exact ⟨nodes, h⟩
    | some p =>
      cases driver with
      | none => exact ⟨nodes, h⟩
      | some driver =>
        by_cases hlinks : (driver.run (manager.devices p)).1 = 0
        · have hfresh := h.toListed.fits_iff.mp hfits hlinks
          exact ⟨p :: nodes, h.register (hhanded p rfl) hlinks hfresh⟩
        · exact ⟨nodes, (register_fails hlinks).kept h⟩
  | setState p state =>
    obtain ⟨-, rfl⟩ : p.val < manager.created ∧
        manager.put p { manager.devices p with state := state } = manager' := by
      simpa [deviceCall] using hcall
    exact ⟨nodes, (sameList_setState p state).kept h⟩
  | processIo fuel => exact ⟨nodes, (sameList_processIo hcall).kept h⟩
  | manageState fuel => exact ⟨nodes, (sameList_manageState hcall).kept h⟩

theorem kept_init : Kept deviceManagerInit [] := ⟨⟨rfl, rfl, List.nodup_nil⟩, by simp⟩

theorem run_kept (h : Run deviceCall Fits deviceManagerInit calls manager) :
    ∃ nodes, Kept manager nodes := by
  refine h.invariant (P := fun manager => ∃ nodes, Kept manager nodes) ⟨[], kept_init⟩ ?_
  rintro manager call manager' ⟨nodes, hkept⟩ hfits hcall
  exact hkept.step hfits hcall

theorem step_listed_iff (h : Kept manager nodes) (hcall : deviceCall manager call = some manager') :
    (∃ nodes', Listed manager' nodes') ↔ Fits manager call := by
  constructor
  · rintro ⟨nodes', hlisted⟩
    by_contra hnot
    cases call with
    | register device driver =>
      cases device with
      | none => exact hnot trivial
      | some p =>
        cases driver with
        | none => exact hnot trivial
        | some driver =>
          obtain ⟨-, rfl⟩ : p.val < manager.created ∧
              (deviceRegister manager (some p) (some driver)).2 = manager' := by
            simpa [deviceCall] using hcall
          rw [h.toListed.fits_iff, Classical.not_imp] at hnot
          obtain ⟨q, hq, hsame⟩ : ∃ q ∈ nodes, manager.idOf q = manager.idOf p := by
            simpa using hnot.2
          exact register_breaks h.toListed hnot.1 hq hsame nodes' hlisted
    | _ => exact hnot trivial
  · intro hfits
    obtain ⟨nodes', hkept⟩ := h.step hfits hcall
    exact ⟨nodes', hkept.toListed⟩

theorem device_list_well_formed (h : Run deviceCall Fits deviceManagerInit calls manager) :
    (∃ nodes, Segment manager.nextOf manager.deviceList nodes none ∧
      nodes.length = manager.deviceCount.toNat ∧ nodes.Nodup ∧ (nodes.map manager.idOf).Nodup) ∧
    ∀ fuel, manager.deviceCount.toNat < fuel →
      (∀ id, ∃ found, deviceFindById manager id fuel = some found) ∧
        ∀ type, ∃ found, deviceFindByType manager type fuel = some found := by
  obtain ⟨nodes, hkept⟩ := run_kept h
  have hcount := hkept.count
  refine ⟨⟨nodes, hkept.chain, hcount, hkept.chain.nodup, hkept.ids⟩, fun fuel hfuel => ⟨?_, ?_⟩⟩
  · exact fun id => ⟨_, hkept.findById_eq id (by omega)⟩
  · exact fun type => ⟨_, hkept.findByType_eq type (by omega)⟩

def terminalDriverInit (device : Device) : Int × Device := (0, { device with state := .ready })

def terminalDriver : DeviceDriver where
  init := some terminalDriverInit
  keepsId := fun f hf device => by
    obtain rfl := Option.some.inj hf
    rfl
  keepsNext := fun f hf device => by
    obtain rfl := Option.some.inj hf
    rfl

instance (manager : DeviceManager) (call : DeviceCall) : Decidable (Fits manager call) :=
  match call with
  | .register (some _) (some _) => inferInstanceAs (Decidable (_ → _))
  | .register none _ => .isTrue trivial
  | .register (some _) none => .isTrue trivial
  | .create _ _ _ _ => .isTrue trivial
  | .setState _ _ => .isTrue trivial
  | .processIo _ => .isTrue trivial
  | .manageState _ => .isTrue trivial

def createTerminal : DeviceCall := .create .output .terminal (str "Virtual Terminal") true

def registerTerminal : DeviceCall := .register (some 0) (some terminalDriver)

def startCalls : List DeviceCall :=
  [createTerminal, registerTerminal, .create .storage .hdd (str "Virtual Disk") true,
    .register (some 1) (some terminalDriver), .setState 1 .busy, .processIo 3, .manageState 3]

def started : DeviceManager :=
  (exec (guarded deviceCall fun manager call => decide (Fits manager call)) deviceManagerInit
    startCalls).getD deviceManagerInit

theorem started_list_well_formed :
    (∃ nodes, Segment started.nextOf started.deviceList nodes none ∧
      nodes.length = started.deviceCount.toNat ∧ nodes.Nodup ∧ (nodes.map started.idOf).Nodup) ∧
    ∀ fuel, started.deviceCount.toNat < fuel →
      (∀ id, ∃ found, deviceFindById started id fuel = some found) ∧
        ∀ type, ∃ found, deviceFindByType started type fuel = some found := by
  have hrun : Run deviceCall Fits deviceManagerInit startCalls started := by
    refine (Run.of_exec_isSome ?_).mono fun manager call hfits => of_decide_eq_true hfits
    decide +kernel
  exact device_list_well_formed hrun

def registeredTwice : DeviceManager :=
  (exec (guarded deviceCall fun _ _ => true) deviceManagerInit
    [createTerminal, registerTerminal, registerTerminal]).getD deviceManagerInit

theorem registered_twice_has_no_end :
    ¬ ∀ calls manager, Run deviceCall (fun _ _ => True) deviceManagerInit calls manager →
      ∃ nodes, Segment manager.nextOf manager.deviceList nodes none := by
  intro hall
  have hrun : Run deviceCall (fun _ _ => True) deviceManagerInit
      [createTerminal, registerTerminal, registerTerminal] registeredTwice := by
    refine (Run.of_exec_isSome ?_).mono fun _ _ _ => trivial
    decide +kernel
  obtain ⟨nodes, hnodes⟩ := hall _ _ hrun
  have hnext : registeredTwice.nextOf 0 = some 0 := by decide +kernel
  have hself : Segment registeredTwice.nextOf (some 0) [0] (some 0) := ⟨rfl, hnext⟩
  rw [show registeredTwice.deviceList = some 0 by decide +kernel] at hnodes
  exact hself.no_end_of_cycle hnodes

end Runs

end ZoraVM.Devices

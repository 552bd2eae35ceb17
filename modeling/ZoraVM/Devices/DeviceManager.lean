import ZoraVM.Foundation.CString
import ZoraVM.Foundation.LinkedList
import ZoraVM.Foundation.Run

namespace ZoraVM.Devices

open Foundation

abbrev maxDevices : Nat := 64

def maxDeviceName : Nat := 32

inductive DeviceClass where
  | storage
  | network
  | input
  | output
  | display
  | audio
  | serial
  | parallel
  | usb
  | pci
  | system
  deriving DecidableEq, Repr

inductive DeviceType where
  | hdd
  | ssd
  | floppy
  | cdrom
  | usbStorage
  | ethernet
  | wifi
  | bluetooth
  | keyboard
  | mouse
  | joystick
  | touchpad
  | terminal
  | printer
  | vga
  | hdmi
  | dp
  | speakers
  | microphone
  | soundCard
  | timer
  | rtc
  | pic
  | dma
  deriving DecidableEq, Repr

inductive DeviceState where
  | unknown
  | initializing
  | ready
  | busy
  | error
  | offline
  | suspended
  deriving DecidableEq, Repr

-- A device is known by its place in g_devices.
abbrev DeviceRef := Fin maxDevices

structure Device where
  id : UInt32
  name : Bytes
  deviceClass : DeviceClass
  type : DeviceType
  state : DeviceState
  next : Option DeviceRef
  deriving DecidableEq, Repr

-- What a driver's init answers, and how it leaves the device. The id and the list are the manager's.
structure DeviceDriver where
  init : Option (Device → Int × Device)
  keepsId : ∀ f ∈ init, ∀ device, (f device).2.id = device.id
  keepsNext : ∀ f ∈ init, ∀ device, (f device).2.next = device.next

-- deviceCount counts the list, created the devices that g_devices holds.
structure DeviceManager where
  devices : DeviceRef → Device
  created : Nat
  deviceList : Option DeviceRef
  deviceCount : UInt32
  nextDeviceId : UInt32
  devicesOnline : UInt32
  devicesError : UInt32

def deviceManagerInit : DeviceManager :=
  { devices := fun _ => ⟨0, [], .storage, .hdd, .unknown, none⟩
    created := 0
    deviceList := none
    deviceCount := 0
    nextDeviceId := 1
    devicesOnline := 0
    devicesError := 0 }

namespace DeviceManager

def nextOf (manager : DeviceManager) (p : DeviceRef) : Option DeviceRef := (manager.devices p).next

def idOf (manager : DeviceManager) (p : DeviceRef) : UInt32 := (manager.devices p).id

def put (manager : DeviceManager) (p : DeviceRef) (device : Device) : DeviceManager :=
  { manager with devices := Function.update manager.devices p device }

end DeviceManager

-- allocated: whether malloc has a buffer for the device.
def deviceCreate (manager : DeviceManager) (deviceClass : DeviceClass) (type : DeviceType)
    (name : Bytes) (allocated : Bool) : Option DeviceRef × DeviceManager :=
  if h : manager.created < maxDevices then
    let device : Device :=
      ⟨manager.nextDeviceId, clip maxDeviceName name, deviceClass, type, .initializing, none⟩
    let manager' := { manager.put ⟨manager.created, h⟩ device with
      nextDeviceId := manager.nextDeviceId + 1 }
    if allocated then (some ⟨manager.created, h⟩, { manager' with created := manager.created + 1 })
    else (none, manager')
  else (none, manager)

def DeviceDriver.run (driver : DeviceDriver) (device : Device) : Int × Device :=
  match driver.init with
  | some init => init device
  | none => (0, device)

def deviceRegister (manager : DeviceManager) (device : Option DeviceRef)
    (driver : Option DeviceDriver) : Int × DeviceManager :=
  match device, driver with
  | some p, some driver =>
    let (result, device) := driver.run (manager.devices p)
    if result ≠ 0 then (-1, manager.put p device)
    else
      let manager := manager.put p { device with next := manager.deviceList }
      (0, { manager with
        deviceList := some p
        deviceCount := manager.deviceCount + 1
        devicesOnline :=
          if device.state = .ready then manager.devicesOnline + 1 else manager.devicesOnline })
  | _, _ => (-1, manager)

def deviceFindById (manager : DeviceManager) (id : UInt32) (fuel : Nat) : Option (Option DeviceRef) :=
  findFrom manager.nextOf (fun p => manager.idOf p = id) fuel manager.deviceList

def deviceFindByType (manager : DeviceManager) (type : DeviceType) (fuel : Nat) :
    Option (Option DeviceRef) :=
  findFrom manager.nextOf (fun p => (manager.devices p).type = type) fuel manager.deviceList

def completeIo (manager : DeviceManager) (p : DeviceRef) : DeviceManager :=
  if (manager.devices p).state = .busy then
    manager.put p { manager.devices p with state := .ready }
  else manager

def processIoOperations (manager : DeviceManager) (fuel : Nat) : Option DeviceManager :=
  walkFrom DeviceManager.nextOf completeIo fuel manager.deviceList manager

def countState (manager : DeviceManager) (counts : UInt32 × UInt32) (p : DeviceRef) :
    UInt32 × UInt32 :=
  match (manager.devices p).state with
  | .ready => (counts.1 + 1, counts.2)
  | .error => (counts.1, counts.2 + 1)
  | _ => counts

def manageDeviceState (manager : DeviceManager) (fuel : Nat) : Option DeviceManager := do
  let (online, error) ← walkFrom (fun _ => manager.nextOf) (countState manager) fuel
    manager.deviceList (0, 0)
  some { manager with devicesOnline := online, devicesError := error }

inductive DeviceCall where
  | create (deviceClass : DeviceClass) (type : DeviceType) (name : Bytes) (allocated : Bool)
  | register (device : Option DeviceRef) (driver : Option DeviceDriver)
  | setState (device : DeviceRef) (state : DeviceState)
  | processIo (fuel : Nat)
  | manageState (fuel : Nat)

-- Only device_create hands out devices. `none` where the call does not come back, too.
def deviceCall (manager : DeviceManager) : DeviceCall → Option DeviceManager
  | .create deviceClass type name allocated =>
    some (deviceCreate manager deviceClass type name allocated).2
  | .register device driver =>
    if ∀ p ∈ device, p.val < manager.created then some (deviceRegister manager device driver).2
    else none
  | .setState p state =>
    if p.val < manager.created then
      some (manager.put p { manager.devices p with state := state })
    else none
  | .processIo fuel => processIoOperations manager fuel
  | .manageState fuel => manageDeviceState manager fuel

end ZoraVM.Devices

import ZoraVM.Foundation.Heap

namespace ZoraVM.Kernel

open Foundation

abbrev Address := BitVec 64

def pageShift : Nat := 12
def physicalMemorySize : Nat := 64 * 1024 * 1024
def totalFrames : Nat := physicalMemorySize / 4096

def pagePresent : BitVec 32 := 0x001
def pageWritable : BitVec 32 := 0x002
def pageUser : BitVec 32 := 0x004
def pageWriteThrough : BitVec 32 := 0x008
def pageCacheDisable : BitVec 32 := 0x010
def pageGlobal : BitVec 32 := 0x100
def pageKernel : BitVec 32 := 0x200

structure PageTableEntry where
  present : Bool
  writable : Bool
  userMode : Bool
  writeThrough : Bool
  cacheDisable : Bool
  accessed : Bool
  dirty : Bool
  pat : Bool
  global : Bool
  available : BitVec 3
  frame : BitVec 20
  deriving DecidableEq, Repr

structure PageDirectoryEntry where
  present : Bool
  writable : Bool
  userMode : Bool
  writeThrough : Bool
  cacheDisable : Bool
  accessed : Bool
  available1 : Bool
  pageSize : Bool
  available2 : BitVec 4
  tableAddr : BitVec 20
  deriving DecidableEq, Repr

abbrev PageTable := BitVec 10 → PageTableEntry
abbrev PageDirectory := BitVec 10 → PageDirectoryEntry

def clearTableEntry : PageTableEntry :=
  ⟨false, false, false, false, false, false, false, false, false, 0, 0⟩

def clearDirectoryEntry : PageDirectoryEntry :=
  ⟨false, false, false, false, false, false, false, false, 0, 0⟩

structure FrameAllocator where
  bitmap : Nat → BitVec 32
  totalFrames : BitVec 32
  usedFrames : BitVec 32
  freeFrames : BitVec 32
  firstFreeFrame : BitVec 32

structure TlbStats where
  entriesFlushed : BitVec 32
  fullFlushes : BitVec 32
  singleFlushes : BitVec 32
  deriving DecidableEq, Repr

-- `tables` and `directories` are the pages VirtualAlloc has handed out, by host address.
structure Mmu where
  tables : Address → Option PageTable
  directories : Address → Option PageDirectory
  gFrameAllocator : FrameAllocator
  gTlbStats : TlbStats

def pdIndex (virtualAddr : BitVec 32) : BitVec 10 := (virtualAddr >>> 22).setWidth 10

def ptIndex (virtualAddr : BitVec 32) : BitVec 10 := ((virtualAddr >>> 12) &&& 0x3FF).setWidth 10

def pageOffset (virtualAddr : BitVec 32) : BitVec 32 := virtualAddr &&& 0xFFF

-- (uint32_t)((uintptr_t)table >> PAGE_SHIFT), cut down to the field by the assignment.
def tableAddrOf (table : Address) : BitVec 20 := ((table >>> pageShift).setWidth 32).setWidth 20

-- A 20-bit field promotes to int, so the shift is a signed one and the cast sign-extends.
def tablePointer (e : PageDirectoryEntry) : Address :=
  (e.tableAddr.setWidth 32 <<< pageShift).signExtend 64

def isFrameAllocated (g : FrameAllocator) (frame : BitVec 32) : Bool :=
  (g.bitmap (frame.toNat / 32)).getLsbD (frame.toNat % 32)

def setFrameAllocated (g : FrameAllocator) (frame : BitVec 32) : FrameAllocator :=
  { g with
    bitmap := Function.update g.bitmap (frame.toNat / 32)
      (g.bitmap (frame.toNat / 32) ||| (1 : BitVec 32) <<< (frame.toNat % 32)) }

def setFrameFree (g : FrameAllocator) (frame : BitVec 32) : FrameAllocator :=
  { g with
    bitmap := Function.update g.bitmap (frame.toNat / 32)
      (g.bitmap (frame.toNat / 32) &&& ~~~((1 : BitVec 32) <<< (frame.toNat % 32))) }

def emptyFrames : FrameAllocator where
  bitmap := fun _ => 0
  totalFrames := BitVec.ofNat 32 totalFrames
  usedFrames := 0
  freeFrames := BitVec.ofNat 32 totalFrames
  firstFreeFrame := 0

def firstFrame (g : FrameAllocator) : Option Nat :=
  (List.range' g.firstFreeFrame.toNat (g.totalFrames.toNat - g.firstFreeFrame.toNat)).find?
    fun f => !isFrameAllocated g (BitVec.ofNat 32 f)

def mmuAllocFrame (m : Mmu) : BitVec 32 × Mmu :=
  match firstFrame m.gFrameAllocator with
  | some f =>
    let g := setFrameAllocated m.gFrameAllocator (BitVec.ofNat 32 f)
    (BitVec.ofNat 32 f,
      { m with gFrameAllocator :=
        { g with
          usedFrames := g.usedFrames + 1
          freeFrames := g.freeFrames - 1
          firstFreeFrame := BitVec.ofNat 32 f + 1 } })
  | none => (0xFFFFFFFF, m)

def mmuFreeFrame (m : Mmu) (frame : BitVec 32) : Mmu :=
  if m.gFrameAllocator.totalFrames ≤ frame then m
  else if isFrameAllocated m.gFrameAllocator frame then
    let g := setFrameFree m.gFrameAllocator frame
    { m with gFrameAllocator :=
      { g with
        usedFrames := g.usedFrames - 1
        freeFrames := g.freeFrames + 1
        firstFreeFrame := if frame < g.firstFreeFrame then frame else g.firstFreeFrame } }
  else m

def mmuFlushTlbSingle (m : Mmu) (_virtualAddr : BitVec 32) : Mmu :=
  { m with gTlbStats :=
    { m.gTlbStats with
      singleFlushes := m.gTlbStats.singleFlushes + 1
      entriesFlushed := m.gTlbStats.entriesFlushed + 1 } }

def readDirectory (m : Mmu) (dir : Address) : Outcome PageDirectory :=
  match m.directories dir with
  | some d => .ok d
  | none => .error .wildPointer

def readTable (m : Mmu) (table : Address) : Outcome PageTable :=
  match m.tables table with
  | some t => .ok t
  | none => .error .wildPointer

def writeTableEntry (m : Mmu) (table : Address) (t : PageTable) (i : BitVec 10)
    (e : PageTableEntry) : Mmu :=
  { m with tables := Function.update m.tables table (some (Function.update t i e)) }

-- The first argument is what VirtualAlloc answers.
def mmuCreatePageDirectory (allocated : Option Address) (m : Mmu) : Option Address × Mmu :=
  match allocated with
  | none => (none, m)
  | some dir =>
    (some dir,
      { m with
        directories := Function.update m.directories dir (some fun _ => clearDirectoryEntry) })

def getOrCreatePageTable (allocated : Option Address) (m : Mmu) (dir : Option Address)
    (i : BitVec 10) : Outcome (Option Address × Mmu) :=
  match dir with
  | none => .ok (none, m)
  | some dir => do
    let d ← readDirectory m dir
    if (d i).present then
      .ok (if tablePointer (d i) = 0 then none else some (tablePointer (d i)), m)
    else
      match allocated with
      | none => .ok (none, m)
      | some table =>
        let entry :=
          { d i with
            present := true
            writable := true
            userMode := true
            tableAddr := tableAddrOf table }
        .ok (some table,
          { m with
            tables := Function.update m.tables table (some fun _ => clearTableEntry)
            directories := Function.update m.directories dir (some (Function.update d i entry)) })

def mmuMapPage (allocated : Option Address) (m : Mmu) (dir : Option Address)
    (virtualAddr physicalAddr flags : BitVec 32) : Outcome (Int × Mmu) := do
  match ← getOrCreatePageTable allocated m dir (pdIndex virtualAddr) with
  | (none, m) => .ok (-1, m)
  | (some table, m) =>
    let t ← readTable m table
    let entry :=
      { t (ptIndex virtualAddr) with
        present := flags &&& pagePresent != 0
        writable := flags &&& pageWritable != 0
        userMode := flags &&& pageUser != 0
        writeThrough := flags &&& pageWriteThrough != 0
        cacheDisable := flags &&& pageCacheDisable != 0
        accessed := false
        dirty := false
        global := flags &&& pageGlobal != 0
        frame := (physicalAddr >>> pageShift).setWidth 20 }
    .ok (0, mmuFlushTlbSingle (writeTableEntry m table t (ptIndex virtualAddr) entry) virtualAddr)

def mmuUnmapPage (m : Mmu) (dir : Option Address) (virtualAddr : BitVec 32) :
    Outcome (Int × Mmu) :=
  match dir with
  | none => .ok (-1, m)
  | some dir => do
    let d ← readDirectory m dir
    if !(d (pdIndex virtualAddr)).present then .ok (0, m)
    else
      let table := tablePointer (d (pdIndex virtualAddr))
      let t ← readTable m table
      let entry := t (ptIndex virtualAddr)
      if entry.present then
        let m := mmuFreeFrame m (entry.frame.setWidth 32)
        let m := writeTableEntry m table t (ptIndex virtualAddr) clearTableEntry
        .ok (0, mmuFlushTlbSingle m virtualAddr)
      else .ok (0, m)

def pageAlignDown (addr : BitVec 32) : BitVec 32 := addr &&& 0xFFFFF000

-- The loop of mmu_map_range; `n` counts down from its safety limit.
def mapPages (allocated : Nat → Option Address) (dir : Option Address)
    (flags endAddr : BitVec 32) : Nat → Mmu → BitVec 32 → BitVec 32 → Outcome (Int × Mmu)
  | 0, m, _, _ => .ok (0, m)
  | n + 1, m, virtualAddr, physicalAddr =>
    if virtualAddr < endAddr then do
      let (r, m) ← mmuMapPage (allocated n) m dir virtualAddr physicalAddr flags
      if r < 0 then .ok (-1, m)
      else mapPages allocated dir flags endAddr n m (virtualAddr + 4096) (physicalAddr + 4096)
    else .ok (0, m)

def mapLimit : Nat := 100000

def mmuMapRange (allocated : Nat → Option Address) (m : Mmu) (dir : Option Address)
    (virtualStart physicalStart size flags : BitVec 32) : Outcome (Int × Mmu) :=
  if size = 0 ∨ 0x80000000 < size then .ok (-1, m)
  else
    mapPages allocated dir flags (virtualStart + size) mapLimit m (pageAlignDown virtualStart)
      (pageAlignDown physicalStart)

def mmuIdentityMapRange (allocated : Nat → Option Address) (m : Mmu) (dir : Option Address)
    (physicalStart size flags : BitVec 32) : Outcome Mmu := do
  let (_, m) ← mmuMapRange allocated m dir physicalStart physicalStart size flags
  .ok m

def mmuVirtualToPhysical (m : Mmu) (dir : Option Address) (virtualAddr : BitVec 32) :
    Outcome (BitVec 32) :=
  match dir with
  | none => .ok 0xFFFFFFFF
  | some dir => do
    let d ← readDirectory m dir
    if !(d (pdIndex virtualAddr)).present then .ok 0xFFFFFFFF
    else
      let t ← readTable m (tablePointer (d (pdIndex virtualAddr)))
      let entry := t (ptIndex virtualAddr)
      if !entry.present then .ok 0xFFFFFFFF
      else .ok ((entry.frame.setWidth 32 <<< pageShift) ||| pageOffset virtualAddr)

def mmuSetPageFlags (m : Mmu) (dir : Option Address) (virtualAddr flags : BitVec 32) :
    Outcome (Int × Mmu) :=
  match dir with
  | none => .ok (-1, m)
  | some dir => do
    let d ← readDirectory m dir
    if !(d (pdIndex virtualAddr)).present then .ok (-1, m)
    else
      let table := tablePointer (d (pdIndex virtualAddr))
      let t ← readTable m table
      let entry := t (ptIndex virtualAddr)
      if !entry.present then .ok (-1, m)
      else
        let entry :=
          { entry with
            writable := flags &&& pageWritable != 0
            userMode := flags &&& pageUser != 0 }
        .ok (0, mmuFlushTlbSingle (writeTableEntry m table t (ptIndex virtualAddr) entry)
          virtualAddr)

-- VirtualFree of an address it never gave out fails and changes nothing.
def mmuDestroyPageDirectory (m : Mmu) (dir : Option Address) : Outcome Mmu :=
  match dir with
  | none => .ok m
  | some dir => do
    let d ← readDirectory m dir
    let used := (List.finRange 1024).filter fun i => (d (BitVec.ofFin i)).present
    let m := used.foldl (fun m i =>
      { m with tables := Function.update m.tables (tablePointer (d (BitVec.ofFin i))) none }) m
    .ok { m with directories := Function.update m.directories dir none }

structure MmuGlobals where
  mmu : Mmu
  gKernelPageDirectory : Option Address
  gCurrentPageDirectory : Option Address
  gMmuInitialized : Bool

-- VirtualAlloc answers `directory` first, and `tables` while the kernel space is mapped.
def mmuInit (directory : Option Address) (tables : Nat → Option Address) (g : MmuGlobals) :
    Outcome (Int × MmuGlobals) :=
  if g.gMmuInitialized then .ok (0, g)
  else
    match mmuCreatePageDirectory directory
      { g.mmu with gFrameAllocator := emptyFrames, gTlbStats := ⟨0, 0, 0⟩ } with
    | (none, m) => .ok (-1, { g with mmu := m, gKernelPageDirectory := none })
    | (some dir, m) => do
      let m ← mmuIdentityMapRange tables m (some dir) 0 (BitVec.ofNat 32 physicalMemorySize)
        (pagePresent ||| pageWritable ||| pageKernel)
      .ok (0, ⟨m, some dir, some dir, true⟩)

inductive MmuCall where
  | allocFrame
  | freeFrame (frame : BitVec 32)
  | mapPage (allocated : Option Address) (dir : Option Address)
      (virtualAddr physicalAddr flags : BitVec 32)
  | unmapPage (dir : Option Address) (virtualAddr : BitVec 32)
  | createPageDirectory (allocated : Option Address)
  | destroyPageDirectory (dir : Option Address)
  deriving DecidableEq, Repr

def mmuCall (m : Mmu) : MmuCall → Outcome Mmu
  | .allocFrame => .ok (mmuAllocFrame m).2
  | .freeFrame frame => .ok (mmuFreeFrame m frame)
  | .mapPage allocated dir virtualAddr physicalAddr flags => do
    let (_, m) ← mmuMapPage allocated m dir virtualAddr physicalAddr flags
    .ok m
  | .unmapPage dir virtualAddr => do
    let (_, m) ← mmuUnmapPage m dir virtualAddr
    .ok m
  | .createPageDirectory allocated => .ok (mmuCreatePageDirectory allocated m).2
  | .destroyPageDirectory dir => mmuDestroyPageDirectory m dir

def mmuStep (m : Mmu) (c : MmuCall) : Option Mmu := (mmuCall m c).toOption

end ZoraVM.Kernel

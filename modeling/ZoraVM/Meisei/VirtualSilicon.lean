import ZoraVM.Foundation.Slots

namespace ZoraVM.Meisei

open Foundation

-- Addresses are numbers, and NULL is 0.
structure MeiseiMemoryPool where
  poolStart : Nat
  poolCurrent : Nat
  poolSize : Nat
  blockSize : Nat
  allocations : Nat
  deriving DecidableEq, Repr

structure MeiseiVirtualSilicon where
  memoryPools : List (Option MeiseiMemoryPool)
  poolStats : List Nat
  initialized : Bool
  enabled : Bool
  deriving DecidableEq, Repr

def poolSizes : List Nat := [64, 256, 1024, 4096, 16384, 65536, 262144, 1048576]

-- What malloc answers for the structure of a pool, then VirtualAlloc and malloc for its blocks.
structure PoolMemory where
  structMade : Bool
  virtualAlloc : Option Nat
  malloc : Option Nat
  deriving DecidableEq, Repr

def PoolMemory.start (m : PoolMemory) : Nat := (m.virtualAlloc.or m.malloc).getD 0

def makePool (blockSize : Nat) (m : PoolMemory) : Option MeiseiMemoryPool :=
  if m.structMade then
    some ⟨m.start, m.start, blockSize * 1000, blockSize, 0⟩
  else none

def madeSilicon (memory : Nat → PoolMemory) : MeiseiVirtualSilicon where
  memoryPools := poolSizes.zipIdx.map fun p => makePool p.1 (memory p.2)
  poolStats := List.replicate 16 0
  initialized := true
  enabled := true

-- `silicon` and `cache` say whether calloc and malloc had memory for g_silicon and the cache.
def meiseiSiliconInit (g : Option MeiseiVirtualSilicon) (silicon cache : Bool)
    (memory : Nat → PoolMemory) : Option MeiseiVirtualSilicon × Int :=
  match g with
  | some s => (some s, 0)
  | none =>
    if !silicon then (none, -1)
    else if !cache then (none, -1)
    else (some (madeSilicon memory), 0)

def servesSize (size : Nat) (pool : Option MeiseiMemoryPool) : Bool :=
  pool.any fun pool => size ≤ pool.blockSize

def poolFor (s : MeiseiVirtualSilicon) (size : Nat) : Option Nat :=
  s.memoryPools.findIdx? (servesSize size)

def MeiseiMemoryPool.take (pool : MeiseiMemoryPool) : MeiseiMemoryPool × Nat :=
  let current :=
    if pool.poolCurrent + pool.blockSize > pool.poolStart + pool.poolSize then pool.poolStart
    else pool.poolCurrent
  ({ pool with poolCurrent := current + pool.blockSize, allocations := pool.allocations + 1 },
    current)

-- `answer` is what malloc answers where it is called.
structure MallocCall where
  size : Nat
  answer : Option Nat
  deriving DecidableEq, Repr

-- g_silicon is not NULL here.
def meiseiFastMalloc (s : MeiseiVirtualSilicon) (c : MallocCall) : MeiseiVirtualSilicon × Nat :=
  if !s.enabled then (s, c.answer.getD 0)
  else
    match poolFor s c.size with
    | none => (s, c.answer.getD 0)
    | some i =>
      match s.memoryPools[i]?.join with
      | none => (s, c.answer.getD 0)
      | some pool =>
        let taken := pool.take
        ({ s with
            memoryPools := s.memoryPools.set i (some taken.1)
            poolStats := s.poolStats.modify i (· + 1) }, taken.2)

def fillResults (s : MeiseiVirtualSilicon) (answers : List (Option Nat)) :
    MeiseiVirtualSilicon × List Nat :=
  match answers with
  | [] => (s, [])
  | answer :: answers =>
    let made := meiseiFastMalloc s ⟨256, answer⟩
    let rest := fillResults made.1 answers
    (rest.1, made.2 :: rest.2)

def meiseiParallelExecute (s : MeiseiVirtualSilicon) (array : Option Nat)
    (answers : Nat → Option Nat) (count : Int) :
    Option (MeiseiVirtualSilicon × Int × Nat × List Nat) :=
  if !s.enabled || count ≤ 0 then some (s, -1, 0, [])
  else
    let results := meiseiFastMalloc s ⟨8 * count.toNat, array⟩
    if results.2 = 0 then none
    else
      let filled := fillResults results.1 ((List.range count.toNat).map answers)
      some (filled.1, 0, results.2, filled.2)

end ZoraVM.Meisei

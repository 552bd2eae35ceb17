import ZoraVM.Meisei.VirtualSilicon

namespace ZoraVM.Meisei

open Foundation

def MeiseiMemoryPool.region (pool : MeiseiMemoryPool) : Block := ⟨pool.poolStart, pool.poolSize⟩

def MeiseiMemoryPool.layout (pool : MeiseiMemoryPool) : Nat × Nat × Nat :=
  (pool.poolStart, pool.poolSize, pool.blockSize)

def layout (s : MeiseiVirtualSilicon) : List (Option (Nat × Nat × Nat)) :=
  s.memoryPools.map (Option.map MeiseiMemoryPool.layout)

def pool (s : MeiseiVirtualSilicon) (i : Nat) : Option MeiseiMemoryPool := s.memoryPools[i]?.join

section Turns

variable {p q : MeiseiMemoryPool} {k : Nat}

structure Turn (p : MeiseiMemoryPool) (k : Nat) : Prop where
  backed : p.poolStart ≠ 0
  positive : 0 < p.blockSize
  size : p.poolSize = 1000 * p.blockSize
  current : p.poolCurrent = p.poolStart + k * p.blockSize
  within : k ≤ 1000

structure Bumped (p : MeiseiMemoryPool) (k : Nat) : Prop where
  positive : 0 < p.blockSize
  size : p.poolSize = 1000 * p.blockSize
  current : p.poolCurrent = p.poolStart + k * p.blockSize
  within : k ≤ 1000

theorem Turn.bumped (h : Turn p k) : Bumped p k := ⟨h.positive, h.size, h.current, h.within⟩

theorem take_layout : p.take.1.layout = p.layout := rfl

theorem take_full (h : Bumped p 1000) : p.take.2 = p.poolStart := by
  have hpos := h.positive
  refine if_pos ?_
  rw [h.current, h.size]
  omega

theorem take_room (h : Bumped p k) (hk : k < 1000) : p.take.2 = p.poolCurrent := by
  refine if_neg ?_
  have hle : (k + 1) * p.blockSize ≤ 1000 * p.blockSize := Nat.mul_le_mul_right _ hk
  rw [Nat.succ_mul] at hle
  rw [h.current, h.size]
  omega

theorem Bumped.take_address (h : Bumped p k) :
    p.take.2 = slot p.poolStart p.blockSize 1000 k := by
  rcases Nat.lt_or_eq_of_le h.within with hk | rfl
  · rw [take_room h hk, h.current, slot, Nat.mod_eq_of_lt hk]
  · rw [take_full h, slot, Nat.mod_self, Nat.zero_mul, Nat.add_zero]

theorem Bumped.take (h : Bumped p k) : Bumped p.take.1 (k % 1000 + 1) := by
  refine ⟨h.positive, h.size, ?_, Nat.mod_lt k (by decide)⟩
  change p.take.2 + p.blockSize = p.poolStart + (k % 1000 + 1) * p.blockSize
  rw [h.take_address, slot, Nat.succ_mul, Nat.add_assoc]

theorem take_address (h : Turn p k) : p.take.2 = slot p.poolStart p.blockSize 1000 k :=
  h.bumped.take_address

theorem take_turn (h : Turn p k) : Turn p.take.1 (k % 1000 + 1) :=
  ⟨h.backed, h.positive, h.size, h.bumped.take.current, h.bumped.take.within⟩

theorem turn_pos (h : Turn p k) : 0 < slot p.poolStart p.blockSize 1000 k :=
  Nat.lt_of_lt_of_le (Nat.pos_of_ne_zero h.backed) (Nat.le_add_right _ _)

theorem region_of_layout (h : q.layout = p.layout) : q.region = p.region := by
  obtain ⟨hstart, hrest⟩ := Prod.mk.inj h
  obtain ⟨hsize, -⟩ := Prod.mk.inj hrest
  rw [MeiseiMemoryPool.region, MeiseiMemoryPool.region, hstart, hsize]

end Turns

section Calls

variable {s s' : MeiseiVirtualSilicon} {p q : MeiseiMemoryPool} {c d : MallocCall} {i j k size : Nat}
variable {calls mid : List MallocCall}

theorem poolFor_layout (h : layout s' = layout s) : poolFor s' = poolFor s := by
  have hserves (t : MeiseiVirtualSilicon) (size : Nat) : poolFor t size =
      (layout t).findIdx? fun l => l.any fun l => size ≤ l.2.2 := by
    rw [layout, List.findIdx?_map, poolFor]
    refine congrArg (fun f => List.findIdx? f t.memoryPools) (funext fun o => ?_)
    cases o <;> rfl
  funext size
  rw [hserves, hserves, h]

theorem pool_layout (h : layout s' = layout s) (i : Nat) :
    (pool s' i).map MeiseiMemoryPool.layout = (pool s i).map MeiseiMemoryPool.layout := by
  have hjoin (t : MeiseiVirtualSilicon) :
      (pool t i).map MeiseiMemoryPool.layout = (layout t)[i]?.join := by
    rw [layout, List.getElem?_map, pool]
    rcases t.memoryPools[i]? with _ | _ | _ <;> rfl
  rw [hjoin, hjoin, h]

theorem pool_of_poolFor (h : poolFor s size = some i) :
    ∃ p, pool s i = some p ∧ size ≤ p.blockSize := by
  obtain ⟨hi, hserves, -⟩ := List.findIdx?_eq_some_iff_getElem.mp h
  rw [servesSize, Option.any_eq_true] at hserves
  obtain ⟨p, hp, hsize⟩ := hserves
  refine ⟨p, ?_, of_decide_eq_true hsize⟩
  rw [pool, List.getElem?_eq_getElem hi, hp, Option.join_some]

theorem fastMalloc_heap (h : poolFor s c.size = none) :
    meiseiFastMalloc s c = (s, c.answer.getD 0) := by
  rw [meiseiFastMalloc, h]
  exact ite_self _

theorem fastMalloc_pool (henabled : s.enabled = true) (hplace : poolFor s c.size = some i)
    (hpool : pool s i = some p) :
    meiseiFastMalloc s c = ({ s with
      memoryPools := s.memoryPools.set i (some p.take.1)
      poolStats := s.poolStats.modify i (· + 1) }, p.take.2) := by
  rw [pool] at hpool
  simp only [meiseiFastMalloc, henabled, hplace, hpool, Bool.not_true, Bool.false_eq_true, if_false]

theorem fastMalloc_layout (henabled : s.enabled = true) (c : MallocCall) :
    layout (meiseiFastMalloc s c).1 = layout s := by
  cases hplace : poolFor s c.size with
  | none => rw [fastMalloc_heap hplace]
  | some i =>
    obtain ⟨p, hpool, -⟩ := pool_of_poolFor hplace
    obtain ⟨hi, hat⟩ := List.getElem?_eq_some_iff.mp (Option.join_eq_some_iff.mp hpool)
    have hlen : i < (s.memoryPools.map (Option.map MeiseiMemoryPool.layout)).length := by
      rwa [List.length_map]
    have hsame : Option.map MeiseiMemoryPool.layout (some p.take.1) =
        (s.memoryPools.map (Option.map MeiseiMemoryPool.layout))[i] := by
      rw [List.getElem_map, hat]
      rfl
    rw [fastMalloc_pool henabled hplace hpool, layout, layout, List.map_set, hsame,
      List.set_getElem_self]

theorem fastMalloc_enabled (henabled : s.enabled = true) (c : MallocCall) :
    (meiseiFastMalloc s c).1.enabled = true := by
  cases hplace : poolFor s c.size with
  | none => rwa [fastMalloc_heap hplace]
  | some i =>
    obtain ⟨p, hpool, -⟩ := pool_of_poolFor hplace
    rwa [fastMalloc_pool henabled hplace hpool]

theorem pool_taken (henabled : s.enabled = true) (hplace : poolFor s c.size = some i)
    (hpool : pool s i = some p) : pool (meiseiFastMalloc s c).1 i = some p.take.1 := by
  obtain ⟨hi, -⟩ := List.getElem?_eq_some_iff.mp (Option.join_eq_some_iff.mp hpool)
  rw [fastMalloc_pool henabled hplace hpool, pool, List.getElem?_set_self hi, Option.join_some]

theorem pool_untouched (henabled : s.enabled = true) (hplace : poolFor s c.size ≠ some i) :
    pool (meiseiFastMalloc s c).1 i = pool s i := by
  cases hother : poolFor s c.size with
  | none => rw [fastMalloc_heap hother]
  | some j =>
    obtain ⟨p, hpool, -⟩ := pool_of_poolFor hother
    have hne : j ≠ i := by
      rintro rfl
      exact hplace hother
    rw [fastMalloc_pool henabled hother hpool, pool, List.getElem?_set_ne hne, pool]

theorem pools_kept {P : MeiseiMemoryPool → Prop} (henabled : s.enabled = true)
    (htake : ∀ p, P p → P p.take.1) (h : ∀ i p, pool s i = some p → P p) (c : MallocCall) :
    ∀ i p, pool (meiseiFastMalloc s c).1 i = some p → P p := by
  intro i p hp
  rcases Decidable.em (poolFor s c.size = some i) with hplace | hplace
  · obtain ⟨q, hq, -⟩ := pool_of_poolFor hplace
    rw [pool_taken henabled hplace hq] at hp
    exact Option.some.inj hp ▸ htake q (h i q hq)
  · rw [pool_untouched henabled hplace] at hp
    exact h i p hp

end Calls

section Backed

variable {s : MeiseiVirtualSilicon} {p q : MeiseiMemoryPool} {c d : MallocCall} {i j k : Nat}
variable {calls mid : List MallocCall}

structure Backed (s : MeiseiVirtualSilicon) : Prop where
  enabled : s.enabled = true
  turn : ∀ i p, pool s i = some p → ∃ k, Turn p k
  apart : ∀ i j p q, pool s i = some p → pool s j = some q → i ≠ j → p.region.Apart q.region

def siliconAfter (s : MeiseiVirtualSilicon) (calls : List MallocCall) : MeiseiVirtualSilicon :=
  calls.foldl (fun s c => (meiseiFastMalloc s c).1) s

theorem region_kept {s' : MeiseiVirtualSilicon} (h : layout s' = layout s)
    (hq : pool s' i = some q) : ∃ p, pool s i = some p ∧ q.layout = p.layout := by
  have hlayout := pool_layout h i
  rw [hq] at hlayout
  obtain ⟨p, hp, hsame⟩ := Option.map_eq_some_iff.mp hlayout.symm
  exact ⟨p, hp, hsame.symm⟩

theorem backed_fastMalloc (hs : Backed s) (c : MallocCall) : Backed (meiseiFastMalloc s c).1 := by
  have hlayout := fastMalloc_layout hs.enabled c
  refine ⟨fastMalloc_enabled hs.enabled c, ?_, ?_⟩
  · exact pools_kept hs.enabled (fun p ⟨k, hk⟩ => ⟨_, take_turn hk⟩) hs.turn c
  · intro i j p q hp hq hne
    obtain ⟨p', hp', hsame⟩ := region_kept hlayout hp
    obtain ⟨q', hq', hsame'⟩ := region_kept hlayout hq
    rw [region_of_layout hsame, region_of_layout hsame']
    exact hs.apart i j p' q' hp' hq' hne

theorem backed_after (hs : Backed s) (calls : List MallocCall) : Backed (siliconAfter s calls) := by
  induction calls generalizing s with
  | nil => exact hs
  | cons c calls ih => exact ih (backed_fastMalloc hs c)

theorem layout_after (hs : Backed s) (calls : List MallocCall) :
    layout (siliconAfter s calls) = layout s := by
  induction calls generalizing s with
  | nil => rfl
  | cons c calls ih => exact (ih (backed_fastMalloc hs c)).trans (fastMalloc_layout hs.enabled c)

def onPool (place : Nat → Option Nat) (i : Nat) (c : MallocCall) : Bool := place c.size = some i

theorem turn_after (hs : Backed s) (hpool : pool s i = some p) (hturn : Turn p k)
    (mid : List MallocCall) : ∃ q l, pool (siliconAfter s mid) i = some q ∧ Turn q l ∧
      q.layout = p.layout ∧ l % 1000 = (k + mid.countP (onPool (poolFor s) i)) % 1000 := by
  induction mid generalizing s p k with
  | nil => exact ⟨p, k, hpool, hturn, rfl, rfl⟩
  | cons c mid ih =>
    have hplaces := poolFor_layout (fastMalloc_layout hs.enabled c)
    rcases Decidable.em (poolFor s c.size = some i) with hplace | hplace
    · obtain ⟨q, l, hq, hl, hsame, hmod⟩ :=
        ih (backed_fastMalloc hs c) (pool_taken hs.enabled hplace hpool) (take_turn hturn)
      refine ⟨q, l, hq, hl, hsame.trans take_layout, ?_⟩
      rw [hplaces] at hmod
      rw [List.countP_cons_of_pos (by simpa [onPool] using hplace), hmod]
      omega
    · obtain ⟨q, l, hq, hl, hsame, hmod⟩ :=
        ih (backed_fastMalloc hs c) ((pool_untouched hs.enabled hplace).trans hpool) hturn
      refine ⟨q, l, hq, hl, hsame, ?_⟩
      rw [hplaces] at hmod
      rw [List.countP_cons_of_neg (by simpa [onPool] using hplace), hmod]

end Backed

end ZoraVM.Meisei

import ZoraVM.Meisei.PoolBlocks

namespace ZoraVM.Meisei

open Foundation

section Places

variable {s : MeiseiVirtualSilicon} {p q : MeiseiMemoryPool} {c : MallocCall} {i j k size : Nat}
variable {memory : Nat → PoolMemory}

structure Regular (s : MeiseiVirtualSilicon) : Prop where
  enabled : s.enabled = true
  bumped : ∀ i p, pool s i = some p → ∃ k, Bumped p k

theorem regular_made (memory : Nat → PoolMemory) : Regular (madeSilicon memory) := by
  refine ⟨rfl, fun i p hp => ?_⟩
  obtain ⟨size, hsize, rfl⟩ := pool_made hp
  exact ⟨0, (poolSizes_bounds hsize).1, Nat.mul_comm _ _, by simp, by decide⟩

theorem Regular.fastMalloc (hs : Regular s) (c : MallocCall) : Regular (meiseiFastMalloc s c).1 := by
  refine ⟨fastMalloc_enabled hs.enabled c, ?_⟩
  exact pools_kept hs.enabled (fun p ⟨k, hk⟩ => ⟨_, hk.take⟩) hs.bumped c

theorem Regular.after (hs : Regular s) (calls : List MallocCall) :
    Regular (siliconAfter s calls) ∧ layout (siliconAfter s calls) = layout s := by
  induction calls generalizing s with
  | nil => exact ⟨hs, rfl⟩
  | cons c calls ih =>
    obtain ⟨hafter, hlayout⟩ := ih (hs.fastMalloc c)
    exact ⟨hafter, hlayout.trans (fastMalloc_layout hs.enabled c)⟩

theorem not_served_before (h : poolFor s size = some i) (hj : j < i) (hq : pool s j = some q) :
    q.blockSize < size := by
  obtain ⟨hi, -, hbefore⟩ := List.findIdx?_eq_some_iff_getElem.mp h
  have hnot := hbefore j hj
  obtain ⟨hlt, hat⟩ := List.getElem?_eq_some_iff.mp (Option.join_eq_some_iff.mp hq)
  rw [hat, servesSize, Option.any_some, decide_eq_true_eq] at hnot
  omega

theorem poolSizes_increase : ∀ i j : Fin poolSizes.length, i < j → poolSizes[i] < poolSizes[j] := by
  decide

theorem index_lt_of_smaller (hp : pool (madeSilicon memory) i = some p)
    (hq : pool (madeSilicon memory) j = some q) (hsmaller : q.blockSize < p.blockSize) : j < i := by
  obtain ⟨a, ha, rfl⟩ := pool_made_at hp
  obtain ⟨b, hb, rfl⟩ := pool_made_at hq
  obtain ⟨hi, rfl⟩ := List.getElem?_eq_some_iff.mp ha
  obtain ⟨hj, rfl⟩ := List.getElem?_eq_some_iff.mp hb
  by_contra hle
  rcases Nat.lt_or_eq_of_le (Nat.le_of_not_lt hle) with hlt | rfl
  · exact Nat.lt_asymm hsmaller (poolSizes_increase ⟨i, hi⟩ ⟨j, hj⟩ hlt)
  · exact Nat.lt_irrefl _ hsmaller

end Places

section Law

variable {s : MeiseiVirtualSilicon} {p : MeiseiMemoryPool} {memory : Nat → PoolMemory}

structure WellPlaced (made : MeiseiVirtualSilicon) (p : MeiseiMemoryPool) (size address : Nat) :
    Prop where
  aligned : ∃ k, address = p.poolStart + k * p.blockSize
  inside : (⟨address, p.blockSize⟩ : Block).Inside p.region
  fits : size ≤ p.blockSize
  smallest : ∀ j q, pool made j = some q → q.blockSize < p.blockSize → q.blockSize < size

theorem Bumped.inside {k : Nat} (h : Bumped p k) :
    (⟨p.take.2, p.blockSize⟩ : Block).Inside p.region := by
  have hinside : (⟨slot p.poolStart p.blockSize 1000 k, p.blockSize⟩ : Block).Inside
      ⟨p.poolStart, 1000 * p.blockSize⟩ := slot_inside (by decide) (Nat.le_refl _)
  rwa [← h.size, ← h.take_address] at hinside

theorem pool_blocks_well_placed {silicon cache : Bool}
    (hinit : (meiseiSiliconInit none silicon cache memory).1 = some s) (calls : List MallocCall)
    (c : MallocCall) (i : Nat) (hplace : poolFor (siliconAfter s calls) c.size = some i) :
    ∃ p, pool s i = some p ∧ WellPlaced s p c.size (meiseiFastMalloc (siliconAfter s calls) c).2 := by
  obtain rfl := madeSilicon_of_init hinit
  obtain ⟨hregular, hlayout⟩ := (regular_made memory).after calls
  obtain ⟨q, hq, hsize⟩ := pool_of_poolFor hplace
  obtain ⟨k, hk⟩ := hregular.bumped i q hq
  obtain ⟨p, hp, hsame⟩ := region_kept hlayout hq
  have hregion := region_of_layout hsame
  obtain ⟨hstart, hrest⟩ := Prod.mk.inj hsame
  obtain ⟨-, hblock⟩ := Prod.mk.inj hrest
  rw [poolFor_layout hlayout] at hplace
  refine ⟨p, hp, ?_⟩
  rw [fastMalloc_pool hregular.enabled ((poolFor_layout hlayout).symm ▸ hplace) hq]
  refine ⟨⟨k % 1000, ?_⟩, ?_, hblock ▸ hsize, ?_⟩
  · rw [← hstart, ← hblock]
    exact hk.take_address
  · rw [← hblock, ← hregion]
    exact hk.inside
  · intro j r hr hsmaller
    exact not_served_before hplace (index_lt_of_smaller hp hr hsmaller) hr

theorem second_block_well_placed : ∃ p, pool (madeSilicon spacedMemory) 1 = some p ∧
    WellPlaced (madeSilicon spacedMemory) p 200
      (meiseiFastMalloc (siliconAfter (madeSilicon spacedMemory) [⟨65, none⟩]) ⟨200, none⟩).2 :=
  @pool_blocks_well_placed (madeSilicon spacedMemory) spacedMemory true true rfl [⟨65, none⟩]
    ⟨200, none⟩ 1 (by decide)

end Law

end ZoraVM.Meisei

import ZoraVM.Meisei.PoolTurns

namespace ZoraVM.Meisei

open Foundation

def blockAt (address size : Nat) : Block := if address = 0 then ⟨0, 0⟩ else ⟨address, size⟩

def blockOf (s : MeiseiVirtualSilicon) (c : MallocCall) : Block :=
  blockAt (meiseiFastMalloc s c).2 c.size

def blocks (s : MeiseiVirtualSilicon) (calls : List MallocCall) : List Block :=
  match calls with
  | [] => []
  | c :: calls => blockOf s c :: blocks (meiseiFastMalloc s c).1 calls

def MallocCall.heapBlock (c : MallocCall) : Block := blockAt (c.answer.getD 0) c.size

-- What malloc gives lies outside the pools and outside what it gave before.
structure MallocKeepsApart (s : MeiseiVirtualSilicon) (calls : List MallocCall) : Prop where
  pools : ∀ c ∈ calls, poolFor s c.size = none → ∀ i p, pool s i = some p →
    c.heapBlock.Apart p.region
  calls : calls.Pairwise fun c d => poolFor s c.size = none → poolFor s d.size = none →
    c.heapBlock.Apart d.heapBlock

def ComesRound (place : Nat → Option Nat) (c : MallocCall) (mid : List MallocCall)
    (d : MallocCall) : Prop :=
  0 < c.size ∧ 0 < d.size ∧ ∃ i, place c.size = some i ∧ place d.size = some i ∧
    1000 ∣ mid.countP (onPool place i) + 1

def NoneComesRound (place : Nat → Option Nat) (calls : List MallocCall) : Prop :=
  ∀ before c mid d after, calls = before ++ c :: (mid ++ d :: after) → ¬ ComesRound place c mid d

section Pairs

variable {s : MeiseiVirtualSilicon} {p q : MeiseiMemoryPool} {c d : MallocCall} {i j k : Nat}
variable {calls mid after : List MallocCall} {place : Nat → Option Nat} {b : Block}

theorem block_on_heap (h : poolFor s c.size = none) : blockOf s c = c.heapBlock := by
  rw [blockOf, fastMalloc_heap h, MallocCall.heapBlock]

theorem block_on_pool (henabled : s.enabled = true) (hplace : poolFor s c.size = some i)
    (hpool : pool s i = some p) (hturn : Turn p k) :
    blockOf s c = ⟨slot p.poolStart p.blockSize 1000 k, c.size⟩ := by
  have hpos := turn_pos hturn
  rw [blockOf, fastMalloc_pool henabled hplace hpool, take_address hturn, blockAt,
    if_neg (Nat.ne_of_gt hpos)]

theorem block_inside (hturn : Turn p k) (hsize : c.size ≤ p.blockSize) :
    (⟨slot p.poolStart p.blockSize 1000 k, c.size⟩ : Block).Inside p.region := by
  have hinside : (⟨slot p.poolStart p.blockSize 1000 k, c.size⟩ : Block).Inside
      ⟨p.poolStart, 1000 * p.blockSize⟩ := slot_inside (by decide) hsize
  rwa [← hturn.size] at hinside

theorem mem_blocks : b ∈ blocks s calls ↔ ∃ mid d after, calls = mid ++ d :: after ∧
    b = blockOf (siliconAfter s mid) d := by
  induction calls generalizing s with
  | nil =>
    refine iff_of_false List.not_mem_nil ?_
    rintro ⟨mid, d, after, h, -⟩
    cases mid <;> cases h
  | cons c calls ih =>
    rw [blocks, List.mem_cons, ih]
    constructor
    · rintro (rfl | ⟨mid, d, after, rfl, rfl⟩)
      · exact ⟨[], c, calls, rfl, rfl⟩
      · exact ⟨c :: mid, d, after, rfl, rfl⟩
    · rintro ⟨mid, d, after, h, rfl⟩
      cases mid with
      | nil =>
        obtain ⟨rfl, rfl⟩ := List.cons.inj h
        exact .inl rfl
      | cons e mid =>
        obtain ⟨rfl, rfl⟩ := List.cons.inj h
        exact .inr ⟨mid, d, after, rfl, rfl⟩

theorem noneComesRound_cons : NoneComesRound place (c :: calls) ↔
    (∀ mid d after, calls = mid ++ d :: after → ¬ ComesRound place c mid d) ∧
      NoneComesRound place calls := by
  constructor
  · intro h
    refine ⟨fun mid d after hsplit => h [] c mid d after (by rw [hsplit, List.nil_append]), ?_⟩
    intro before e mid d after hsplit
    exact h (c :: before) e mid d after (by rw [hsplit, List.cons_append])
  · rintro ⟨hhead, htail⟩ before e mid d after hsplit
    cases before with
    | nil =>
      obtain ⟨rfl, rfl⟩ := List.cons.inj hsplit
      exact hhead mid d after rfl
    | cons f before =>
      obtain ⟨rfl, rfl⟩ := List.cons.inj hsplit
      exact htail before e mid d after rfl

theorem not_comesRound_of_ne (hne : place c.size ≠ place d.size) : ¬ ComesRound place c mid d := by
  rintro ⟨-, -, i, hc, hd, -⟩
  exact hne (hc.trans hd.symm)

theorem comesRound_iff (hc : place c.size = some i) (hd : place d.size = some i) :
    ComesRound place c mid d ↔
      0 < c.size ∧ 0 < d.size ∧ 1000 ∣ mid.countP (onPool place i) + 1 := by
  constructor
  · rintro ⟨hcpos, hdpos, j, hcj, -, hdvd⟩
    rw [hc] at hcj
    obtain rfl := Option.some.inj hcj
    exact ⟨hcpos, hdpos, hdvd⟩
  · rintro ⟨hcpos, hdpos, hdvd⟩
    exact ⟨hcpos, hdpos, i, hc, hd, hdvd⟩

theorem places_after (hs : Backed s) (c : MallocCall) (mid : List MallocCall) :
    poolFor (siliconAfter s (c :: mid)) = poolFor s :=
  poolFor_layout (layout_after hs (c :: mid))

theorem same_pool_apart_iff (hs : Backed s) (hc : poolFor s c.size = some i)
    (hd : poolFor s d.size = some i) (mid : List MallocCall) :
    (blockOf s c).Apart (blockOf (siliconAfter s (c :: mid)) d) ↔
      ¬ ComesRound (poolFor s) c mid d := by
  obtain ⟨p, hp, hcsize⟩ := pool_of_poolFor hc
  obtain ⟨k, hk⟩ := hs.turn i p hp
  obtain ⟨q, l, hq, hl, hsame, hmod⟩ := turn_after hs hp hk (c :: mid)
  have hafter := backed_after hs (c :: mid)
  have hd' : poolFor (siliconAfter s (c :: mid)) d.size = some i := by rwa [places_after hs c mid]
  obtain ⟨q', hq', hdsize⟩ := pool_of_poolFor hd'
  rw [hq] at hq'
  obtain rfl := Option.some.inj hq'
  obtain ⟨hstart, hrest⟩ := Prod.mk.inj hsame
  obtain ⟨-, hblock⟩ := Prod.mk.inj hrest
  rw [block_on_pool hs.enabled hc hp hk, block_on_pool hafter.enabled hd' hq hl, hstart, hblock,
    slots_apart_iff hcsize (by omega), comesRound_iff hc hd]
  rw [List.countP_cons_of_pos (by simpa [onPool] using hc)] at hmod
  omega

theorem different_pools_apart (hs : Backed s) (hne : i ≠ j) (hc : poolFor s c.size = some i)
    (hd : poolFor s d.size = some j) (mid : List MallocCall) :
    (blockOf s c).Apart (blockOf (siliconAfter s (c :: mid)) d) := by
  obtain ⟨p, hp, hcsize⟩ := pool_of_poolFor hc
  obtain ⟨k, hk⟩ := hs.turn i p hp
  have hafter := backed_after hs (c :: mid)
  have hd' : poolFor (siliconAfter s (c :: mid)) d.size = some j := by rwa [places_after hs c mid]
  obtain ⟨q, hq, hdsize⟩ := pool_of_poolFor hd'
  obtain ⟨l, hl⟩ := hafter.turn j q hq
  obtain ⟨q', hq', hsame⟩ := region_kept (layout_after hs (c :: mid)) hq
  have hregions := hs.apart i j p q' hp hq' hne
  rw [← region_of_layout hsame] at hregions
  rw [block_on_pool hs.enabled hc hp hk, block_on_pool hafter.enabled hd' hq hl]
  have hinside := (block_inside hk hcsize).apart hregions
  exact ((block_inside hl hdsize).apart hinside.symm).symm

theorem heap_apart_of_pool (hs : Backed s)
    (hgiven : ∀ i p, pool s i = some p → c.heapBlock.Apart p.region)
    (hd : poolFor s d.size = some i) : c.heapBlock.Apart (blockOf s d) := by
  obtain ⟨p, hp, hsize⟩ := pool_of_poolFor hd
  obtain ⟨k, hk⟩ := hs.turn i p hp
  rw [block_on_pool hs.enabled hd hp hk]
  exact ((block_inside hk hsize).apart (hgiven i p hp).symm).symm

theorem regions_after (hs : Backed s) (mid : List MallocCall) {b : Block}
    (hgiven : ∀ i p, pool s i = some p → b.Apart p.region) (i : Nat) (p : MeiseiMemoryPool)
    (hp : pool (siliconAfter s mid) i = some p) : b.Apart p.region := by
  obtain ⟨q, hq, hsame⟩ := region_kept (layout_after hs mid) hp
  rw [region_of_layout hsame]
  exact hgiven i q hq

theorem mallocKeepsApart_tail (hs : Backed s) (h : MallocKeepsApart s (c :: calls)) :
    MallocKeepsApart (meiseiFastMalloc s c).1 calls := by
  have hplaces : poolFor (meiseiFastMalloc s c).1 = poolFor s := places_after hs c []
  constructor
  · intro d hd hplace i p hp
    rw [hplaces] at hplace
    exact regions_after hs [c] (h.pools d (List.mem_cons_of_mem _ hd) hplace) i p hp
  · rw [hplaces]
    exact (List.pairwise_cons.mp h.calls).2

theorem pair_apart_iff (hs : Backed s) (hcalls : calls = mid ++ d :: after)
    (h : MallocKeepsApart s (c :: calls)) :
    (blockOf s c).Apart (blockOf (siliconAfter s (c :: mid)) d) ↔
      ¬ ComesRound (poolFor s) c mid d := by
  have hmem : d ∈ calls := by
    rw [hcalls]
    exact List.mem_append_right _ List.mem_cons_self
  have hplaces := places_after hs c mid
  have hpools := h.pools d (List.mem_cons_of_mem _ hmem)
  cases hc : poolFor s c.size with
  | none =>
    have hcpools := h.pools c List.mem_cons_self hc
    refine iff_of_true ?_ ?_
    · rw [block_on_heap hc]
      cases hd : poolFor s d.size with
      | none =>
        rw [block_on_heap (by rwa [hplaces])]
        exact (List.pairwise_cons.mp h.calls).1 d hmem hc hd
      | some j =>
        have hgiven := regions_after hs (c :: mid) hcpools
        exact heap_apart_of_pool (backed_after hs (c :: mid)) hgiven (by rwa [hplaces])
    · rintro ⟨-, -, i, hi, -⟩
      rw [hc] at hi
      cases hi
  | some i =>
    cases hd : poolFor s d.size with
    | none =>
      refine iff_of_true ?_ (not_comesRound_of_ne ?_)
      · rw [block_on_heap (c := d) (by rwa [hplaces])]
        exact (heap_apart_of_pool hs (hpools hd) hc).symm
      · rw [hc, hd]
        exact Option.some_ne_none i
    | some j =>
      rcases Decidable.em (i = j) with rfl | hne
      · exact same_pool_apart_iff hs hc hd mid
      · refine iff_of_true (different_pools_apart hs hne hc hd mid) (not_comesRound_of_ne ?_)
        rw [hc, hd]
        exact fun he => hne (Option.some.inj he)

theorem blocks_apart_iff (hs : Backed s) (h : MallocKeepsApart s calls) :
    (blocks s calls).Pairwise Block.Apart ↔ NoneComesRound (poolFor s) calls := by
  induction calls generalizing s with
  | nil =>
    refine iff_of_true .nil ?_
    intro before c mid d after hsplit
    cases before <;> cases hsplit
  | cons c calls ih =>
    have hplaces : poolFor (meiseiFastMalloc s c).1 = poolFor s := places_after hs c []
    rw [blocks, List.pairwise_cons, ih (backed_fastMalloc hs c) (mallocKeepsApart_tail hs h),
      hplaces, noneComesRound_cons]
    refine and_congr_left' ?_
    constructor
    · intro hall mid d after hsplit
      have hblock : blockOf (siliconAfter s (c :: mid)) d ∈ blocks (meiseiFastMalloc s c).1 calls :=
        mem_blocks.mpr ⟨mid, d, after, hsplit, rfl⟩
      exact (pair_apart_iff hs hsplit h).mp (hall _ hblock)
    · intro hnone b hb
      obtain ⟨mid, d, after, hsplit, rfl⟩ := mem_blocks.mp hb
      exact (pair_apart_iff hs hsplit h).mpr (hnone mid d after hsplit)

end Pairs

section Parallel

variable {s : MeiseiVirtualSilicon} {place : Nat → Option Nat} {calls : List MallocCall}
variable {array : Option Nat} {answers : Nat → Option Nat} {count : Nat} {i : Nat}

def resultCalls (answers : List (Option Nat)) : List MallocCall :=
  answers.map fun answer => ⟨256, answer⟩

def parallelCalls (array : Option Nat) (answers : Nat → Option Nat) (count : Nat) :
    List MallocCall :=
  ⟨8 * count, array⟩ :: resultCalls ((List.range count).map answers)

def takenFromPool (place : Nat → Option Nat) (count : Nat) : Nat :=
  if place 256 = none then 0
  else if place (8 * count) = place 256 then count + 1
  else count

theorem noneComesRound_of_few
    (h : ∀ i, calls.countP (onPool place i) ≤ 1000) : NoneComesRound place calls := by
  rintro before c mid d after rfl ⟨-, -, i, hc, hd, hdvd⟩
  have hfew := h i
  have hc' : onPool place i c = true := decide_eq_true hc
  have hd' : onPool place i d = true := decide_eq_true hd
  rw [List.countP_append, List.countP_cons_of_pos hc', List.countP_append,
    List.countP_cons_of_pos hd'] at hfew
  have hle := Nat.le_of_dvd (Nat.succ_pos _) hdvd
  omega

theorem comesRound_of_many (before : List MallocCall) (hmany : 1000 < calls.length)
    (hall : ∀ c ∈ calls, 0 < c.size ∧ place c.size = some i) :
    ¬ NoneComesRound place (before ++ calls) := by
  intro hnone
  have hfirst : 0 < calls.length := by omega
  have hsplit : calls = calls[0] :: ((calls.drop 1).take 999 ++ calls[1000] :: calls.drop 1001) := by
    have htail : (calls.drop 1).take 999 ++ calls[1000] :: calls.drop 1001 = calls.drop 1 := by
      rw [← List.drop_eq_getElem_cons hmany]
      have htake := List.take_append_drop 999 (calls.drop 1)
      rwa [List.drop_drop] at htake
    rw [htail, ← List.drop_eq_getElem_cons hfirst, List.drop_zero]
  obtain ⟨hcpos, hc⟩ := hall calls[0] (List.getElem_mem _)
  obtain ⟨hdpos, hd⟩ := hall calls[1000] (List.getElem_mem _)
  refine hnone before _ _ _ _ (congrArg (before ++ ·) hsplit) ⟨hcpos, hdpos, i, hc, hd, ?_⟩
  have hcount : ((calls.drop 1).take 999).countP (onPool place i) = 999 := by
    rw [List.countP_eq_length.mpr, List.length_take, List.length_drop]
    · omega
    · intro c hmem
      exact decide_eq_true (hall c (List.mem_of_mem_drop (List.mem_of_mem_take hmem))).2
  rw [hcount]

theorem mem_resultCalls {answers : List (Option Nat)} {c : MallocCall}
    (h : c ∈ resultCalls answers) : c.size = 256 := by
  obtain ⟨answer, -, rfl⟩ := List.mem_map.mp h
  rfl

theorem length_resultCalls :
    (resultCalls ((List.range count).map answers)).length = count := by
  simp [resultCalls]

theorem countP_results (i : Nat) (answers : List (Option Nat)) :
    (resultCalls answers).countP (onPool place i) =
      if place 256 = some i then answers.length else 0 := by
  by_cases hplace : place 256 = some i
  · rw [if_pos hplace, List.countP_eq_length.mpr, resultCalls, List.length_map]
    intro c hc
    exact decide_eq_true (by rwa [mem_resultCalls hc])
  · rw [if_neg hplace, List.countP_eq_zero]
    intro c hc
    rw [onPool, mem_resultCalls hc]
    simpa using hplace

theorem countP_parallel (i : Nat) : (parallelCalls array answers count).countP (onPool place i) =
    (if place 256 = some i then count else 0) + if place (8 * count) = some i then 1 else 0 := by
  rw [parallelCalls, List.countP_cons, countP_results, List.length_map, List.length_range]
  simp only [onPool, decide_eq_true_eq]

theorem parallel_comesRound_iff (hcount : 0 < count) :
    NoneComesRound place (parallelCalls array answers count) ↔ takenFromPool place count ≤ 1000 := by
  constructor
  · intro hnone
    by_contra hmany
    cases hplace : place 256 with
    | none =>
      rw [takenFromPool, if_pos hplace] at hmany
      exact hmany (Nat.zero_le _)
    | some i =>
      rw [takenFromPool, if_neg (by rw [hplace]; exact Option.some_ne_none i)] at hmany
      have hresults : ∀ c ∈ resultCalls ((List.range count).map answers),
          0 < c.size ∧ place c.size = some i := by
        intro c hc
        rw [mem_resultCalls hc]
        exact ⟨by decide, hplace⟩
      rcases Decidable.em (place (8 * count) = place 256) with hsame | hsame
      · rw [if_pos hsame] at hmany
        have hlength : 1000 < (parallelCalls array answers count).length := by
          rw [parallelCalls, List.length_cons, length_resultCalls]
          omega
        have hall : ∀ c ∈ parallelCalls array answers count,
            0 < c.size ∧ place c.size = some i := by
          intro c hc
          rcases List.mem_cons.mp hc with rfl | hc
          · exact ⟨by simpa using hcount, hsame.trans hplace⟩
          · exact hresults c hc
        exact comesRound_of_many [] hlength hall hnone
      · rw [if_neg hsame] at hmany
        have hlength : 1000 < (resultCalls ((List.range count).map answers)).length := by
          rw [length_resultCalls]
          omega
        exact comesRound_of_many [⟨8 * count, array⟩] hlength hresults hnone
  · intro hfew
    refine noneComesRound_of_few fun i => ?_
    rw [countP_parallel]
    rw [takenFromPool] at hfew
    split_ifs at hfew ⊢ <;> simp_all

theorem fillResults_blocks (answers : List (Option Nat)) :
    (fillResults s answers).2.map (blockAt · 256) = blocks s (resultCalls answers) := by
  induction answers generalizing s with
  | nil => rfl
  | cons answer answers ih =>
    change blockOf s ⟨256, answer⟩ :: (fillResults _ answers).2.map (blockAt · 256) = _
    rw [ih]
    rfl

theorem parallelExecute_blocks {s' : MeiseiVirtualSilicon} {code : Int} {results : Nat}
    {entries : List Nat} {count : Int} (henabled : s.enabled = true) (hcount : 0 < count)
    (h : meiseiParallelExecute s array answers count = some (s', code, results, entries)) :
    blockAt results (8 * count.toNat) :: entries.map (blockAt · 256) =
      blocks s (parallelCalls array answers count.toNat) := by
  have hgo : ¬ ((!s.enabled || decide (count ≤ 0)) = true) := by
    rw [henabled, Bool.not_true, Bool.false_or, decide_eq_true_eq]
    omega
  rw [meiseiParallelExecute, if_neg hgo] at h
  rcases Decidable.em ((meiseiFastMalloc s ⟨8 * count.toNat, array⟩).2 = 0) with hnull | hnull
  · rw [if_pos hnull] at h
    cases h
  · rw [if_neg hnull] at h
    obtain ⟨-, hrest⟩ := Prod.mk.inj (Option.some.inj h)
    obtain ⟨-, hrest⟩ := Prod.mk.inj hrest
    obtain ⟨rfl, rfl⟩ := Prod.mk.inj hrest
    rw [fillResults_blocks]
    rfl

end Parallel

section Law

-- VirtualAlloc or malloc gave every pool its memory, and gave no byte twice.
structure MemoryGiven (memory : Nat → PoolMemory) : Prop where
  backed : ∀ i p, pool (madeSilicon memory) i = some p → p.poolStart ≠ 0
  apart : ∀ i j p q, pool (madeSilicon memory) i = some p → pool (madeSilicon memory) j = some q →
    i ≠ j → p.region.Apart q.region

variable {memory : Nat → PoolMemory} {s : MeiseiVirtualSilicon} {p : MeiseiMemoryPool} {i : Nat}

theorem pool_made_at (h : pool (madeSilicon memory) i = some p) : ∃ size,
    poolSizes[i]? = some size ∧ p = ⟨(memory i).start, (memory i).start, size * 1000, size, 0⟩ := by
  rw [pool, madeSilicon, List.getElem?_map, List.getElem?_zipIdx] at h
  cases hsize : poolSizes[i]? with
  | none =>
    rw [hsize] at h
    cases h
  | some size =>
    rw [hsize, Nat.zero_add] at h
    have hmade : makePool size (memory i) = some p := h
    rw [makePool] at hmade
    exact ⟨size, rfl, (Option.some.inj (Option.ite_none_right_eq_some.mp hmade).2).symm⟩

theorem pool_made (h : pool (madeSilicon memory) i = some p) :
    ∃ size ∈ poolSizes, p = ⟨(memory i).start, (memory i).start, size * 1000, size, 0⟩ := by
  obtain ⟨size, hsize, hp⟩ := pool_made_at h
  exact ⟨size, List.mem_of_getElem? hsize, hp⟩

theorem poolSizes_bounds {size : Nat} (h : size ∈ poolSizes) : 0 < size ∧ size ≤ 1048576 := by
  revert size
  decide

theorem backed_made (hmemory : MemoryGiven memory) : Backed (madeSilicon memory) := by
  refine ⟨rfl, ?_, hmemory.apart⟩
  intro i p hp
  have hbacked := hmemory.backed i p hp
  obtain ⟨size, hsize, rfl⟩ := pool_made hp
  exact ⟨0, hbacked, (poolSizes_bounds hsize).1, Nat.mul_comm _ _, by simp, by decide⟩

theorem madeSilicon_of_init {silicon cache : Bool}
    (h : (meiseiSiliconInit none silicon cache memory).1 = some s) : s = madeSilicon memory := by
  cases silicon <;> cases cache <;> cases h
  rfl

theorem pool_blocks_apart_iff {silicon cache : Bool} (hmemory : MemoryGiven memory)
    (hinit : (meiseiSiliconInit none silicon cache memory).1 = some s) (before : List MallocCall) :
    (∀ calls, MallocKeepsApart (siliconAfter s before) calls →
      ((blocks (siliconAfter s before) calls).Pairwise Block.Apart ↔
        NoneComesRound (poolFor s) calls)) ∧
    ∀ array answers count s' code results entries, 0 < count →
      MallocKeepsApart (siliconAfter s before) (parallelCalls array answers count.toNat) →
      meiseiParallelExecute (siliconAfter s before) array answers count =
        some (s', code, results, entries) →
      ((blockAt results (8 * count.toNat) :: entries.map (blockAt · 256)).Pairwise Block.Apart ↔
        takenFromPool (poolFor s) count.toNat ≤ 1000) := by
  obtain rfl := madeSilicon_of_init hinit
  have hmade := backed_made hmemory
  have hs := backed_after hmade before
  have hplaces := poolFor_layout (layout_after hmade before)
  constructor
  · intro calls hcalls
    rw [blocks_apart_iff hs hcalls, hplaces]
  · intro array answers count s' code results entries hcount hcalls hran
    rw [parallelExecute_blocks hs.enabled hcount hran, blocks_apart_iff hs hcalls, hplaces,
      parallel_comesRound_iff (by omega)]

def spacedMemory (i : Nat) : PoolMemory := ⟨true, some ((i + 1) * 2 ^ 31), none⟩

theorem spacedMemory_given : MemoryGiven spacedMemory := by
  constructor
  · intro i p hp
    obtain ⟨size, -, rfl⟩ := pool_made hp
    change (i + 1) * 2 ^ 31 ≠ 0
    omega
  · intro i j p q hp hq hne
    obtain ⟨a, ha, rfl⟩ := pool_made hp
    obtain ⟨b, hb, rfl⟩ := pool_made hq
    have ha' := (poolSizes_bounds ha).2
    have hb' := (poolSizes_bounds hb).2
    rw [apart_iff]
    change _ ∨ _ ∨ (i + 1) * 2 ^ 31 + a * 1000 ≤ (j + 1) * 2 ^ 31 ∨
      (j + 1) * 2 ^ 31 + b * 1000 ≤ (i + 1) * 2 ^ 31
    omega

theorem mallocKeepsApart_of_pools {calls : List MallocCall}
    (h : ∀ c ∈ calls, poolFor s c.size ≠ none) : MallocKeepsApart s calls := by
  constructor
  · intro c hc hnone
    exact absurd hnone (h c hc)
  · refine List.pairwise_iff_forall_sublist.mpr ?_
    intro c d hcd hnone
    exact absurd hnone (h c (hcd.subset List.mem_cons_self))

theorem pool_blocks_apart_three :
    (blocks (madeSilicon spacedMemory) [⟨64, none⟩, ⟨200, none⟩, ⟨60, none⟩]).Pairwise
      Block.Apart := by
  have hinit : (meiseiSiliconInit none true true spacedMemory).1 = some (madeSilicon spacedMemory) :=
    rfl
  refine ((pool_blocks_apart_iff spacedMemory_given hinit []).1 _ ?_).mpr ?_
  · exact mallocKeepsApart_of_pools (by decide)
  · refine noneComesRound_of_few fun i => ?_
    exact Nat.le_trans List.countP_le_length (by decide)

theorem fast_malloc_restarts :
    ¬ ∀ (memory : Nat → PoolMemory) (calls : List MallocCall), MemoryGiven memory →
      MallocKeepsApart (madeSilicon memory) calls →
      (blocks (madeSilicon memory) calls).Pairwise Block.Apart := by
  intro hall
  have hplace : poolFor (madeSilicon spacedMemory) 64 = some 0 := by decide
  have hcalls : ∀ c ∈ List.replicate 1001 (⟨64, none⟩ : MallocCall),
      0 < c.size ∧ poolFor (madeSilicon spacedMemory) c.size = some 0 := by
    intro c hc
    obtain rfl := List.eq_of_mem_replicate hc
    exact ⟨by decide, hplace⟩
  have hkept : MallocKeepsApart (madeSilicon spacedMemory) (List.replicate 1001 ⟨64, none⟩) := by
    refine mallocKeepsApart_of_pools fun c hc => ?_
    rw [(hcalls c hc).2]
    exact Option.some_ne_none 0
  have h := hall spacedMemory _ spacedMemory_given hkept
  rw [blocks_apart_iff (backed_made spacedMemory_given) hkept] at h
  exact comesRound_of_many [] (by rw [List.length_replicate]; decide) hcalls h

end Law

end ZoraVM.Meisei

import ZoraVM.Foundation.Pool
import ZoraVM.Foundation.Run
import ZoraVM.Kernel.Mapping

namespace ZoraVM.Kernel

open Foundation

section Definitions

variable (g : FrameAllocator)

def frameTaken (f : Nat) : Bool := isFrameAllocated g (BitVec.ofNat 32 f)

def setBits : Nat := ((Finset.range totalFrames).filter fun f => frameTaken g f).card

structure FramesAccounted : Prop where
  total : g.totalFrames.toNat = totalFrames
  used : g.usedFrames.toNat = setBits g
  free : g.usedFrames.toNat + g.freeFrames.toNat = totalFrames
  hint : ∀ f < g.firstFreeFrame.toNat, frameTaken g f = true

structure AllocatesLowest (m : Mmu) : Prop where
  exhausted : (mmuAllocFrame m).1 = 0xFFFFFFFF ↔
    ∀ f < totalFrames, frameTaken m.gFrameAllocator f = true
  lowest : ∀ f, (mmuAllocFrame m).1 = f → f ≠ 0xFFFFFFFF →
    f.toNat < totalFrames ∧ frameTaken m.gFrameAllocator f.toNat = false ∧
      ∀ f' < f.toNat, frameTaken m.gFrameAllocator f' = true

def mappedFrame (m : Mmu) (dir : Option Address) (v : BitVec 32) : Option (BitVec 32) := do
  let d ← m.directories (← dir)
  if (d (pdIndex v)).present then
    let t ← m.tables (tablePointer (d (pdIndex v)))
    if (t (ptIndex v)).present then some ((t (ptIndex v)).frame.setWidth 32) else none
  else none

structure MarksFrames (m : Mmu) : Prop where
  alloc : ∀ f < totalFrames, frameTaken (mmuAllocFrame m).2.gFrameAllocator f = true ↔
    f = (mmuAllocFrame m).1.toNat ∨ frameTaken m.gFrameAllocator f = true
  free : ∀ frame, ∀ f < totalFrames, frameTaken (mmuFreeFrame m frame).gFrameAllocator f = true ↔
    f ≠ frame.toNat ∧ frameTaken m.gFrameAllocator f = true
  unmap : ∀ dir v r m', mmuUnmapPage m dir v = .ok (r, m') → ∀ f < totalFrames,
    frameTaken m'.gFrameAllocator f = true ↔
      mappedFrame m dir v ≠ some (BitVec.ofNat 32 f) ∧ frameTaken m.gFrameAllocator f = true

structure Represents (p : Pool totalFrames) : Prop where
  total : g.totalFrames = BitVec.ofNat 32 totalFrames
  taken : ∀ f < totalFrames, frameTaken g f = true ↔ f ∈ p.taken
  used : g.usedFrames.toNat = p.taken.card
  free : g.freeFrames.toNat + p.taken.card = totalFrames
  hint : ∀ f < g.firstFreeFrame.toNat, f ∈ p.taken

end Definitions

variable {g : FrameAllocator} {p : Pool totalFrames} {m m' : Mmu} {f : Nat} {frame : BitVec 32}

section Bits

theorem bit_shift (b : Nat) (hb : b < 32) (i : Nat) :
    ((1 : BitVec 32) <<< b).getLsbD i = decide (i = b) := by
  rw [BitVec.getLsbD_shiftLeft]
  by_cases hi : i = b
  · subst hi
    simp [hb]
  · rcases Nat.lt_or_gt_of_ne hi with hlt | hgt
    · simp [hi, hlt]
    · have hne : ¬ i - b = 0 := by omega
      simp [BitVec.getLsbD_one, hi, hne]

theorem isFrameAllocated_set (g : FrameAllocator) (frame other : BitVec 32) :
    isFrameAllocated (setFrameAllocated g frame) other =
      (decide (other = frame) || isFrameAllocated g other) := by
  unfold isFrameAllocated setFrameAllocated
  have hmod : frame.toNat % 32 < 32 := Nat.mod_lt _ (by decide)
  by_cases hword : other.toNat / 32 = frame.toNat / 32
  · have hsame : (other.toNat % 32 = frame.toNat % 32) ↔ other = frame := by
      rw [← BitVec.toNat_inj]
      omega
    simp only [hword, Function.update_self, BitVec.getLsbD_or, bit_shift _ hmod, hsame]
    exact Bool.or_comm _ _
  · have hne : other ≠ frame := fun he => hword (he ▸ rfl)
    simp [Function.update_of_ne hword, hne]

theorem isFrameAllocated_free (g : FrameAllocator) (frame other : BitVec 32) :
    isFrameAllocated (setFrameFree g frame) other =
      (!decide (other = frame) && isFrameAllocated g other) := by
  unfold isFrameAllocated setFrameFree
  have hmod : frame.toNat % 32 < 32 := Nat.mod_lt _ (by decide)
  by_cases hword : other.toNat / 32 = frame.toNat / 32
  · have hsame : (other.toNat % 32 = frame.toNat % 32) ↔ other = frame := by
      rw [← BitVec.toNat_inj]
      omega
    have hbit : other.toNat % 32 < 32 := Nat.mod_lt _ (by decide)
    simp only [hword, Function.update_self, BitVec.getLsbD_and, BitVec.getLsbD_not,
      bit_shift _ hmod, hsame, hbit, decide_true, Bool.true_and]
    exact Bool.and_comm _ _
  · have hne : other ≠ frame := fun he => hword (he ▸ rfl)
    simp [Function.update_of_ne hword, hne]

theorem ofNat_eq_iff (hf : f < totalFrames) :
    BitVec.ofNat 32 f = frame ↔ f = frame.toNat := by
  have hlt : f < 2 ^ 32 := Nat.lt_trans hf (by decide)
  rw [← BitVec.toNat_inj, BitVec.toNat_ofNat, Nat.mod_eq_of_lt hlt]

end Bits

section Simulation

theorem frameTaken_iff (h : Represents g p) (hlt : frame.toNat < totalFrames) :
    isFrameAllocated g frame = true ↔ frame.toNat ∈ p.taken := by
  have htaken := h.taken frame.toNat hlt
  rwa [frameTaken, BitVec.ofNat_toNat, BitVec.setWidth_eq] at htaken

theorem toNat_totalFrames (h : Represents g p) : g.totalFrames.toNat = totalFrames := by
  rw [h.total]
  rfl

theorem firstFrame_eq (h : Represents g p) :
    firstFrame g = p.search g.firstFreeFrame.toNat := by
  rw [firstFrame, Pool.search, toNat_totalFrames h]
  refine List.find?_congr fun f hf => ?_
  obtain ⟨_, hlt⟩ := List.mem_range'_1.mp hf
  have hhint : g.firstFreeFrame.toNat ≤ totalFrames := by
    by_contra hover
    exact Nat.lt_irrefl _ (p.bounded (h.hint totalFrames (by omega)))
  have htaken := h.taken f (by omega)
  rw [frameTaken] at htaken
  rw [Bool.eq_iff_iff, Bool.not_eq_true', decide_eq_true_iff, ← htaken, Bool.not_eq_true]

theorem represents_empty : Represents emptyFrames (Pool.empty totalFrames) := by
  refine ⟨rfl, fun f _ => ?_, rfl, rfl, fun f hf => ?_⟩
  · simp [frameTaken, isFrameAllocated, emptyFrames, Pool.empty]
  · exact absurd hf (Nat.not_lt_zero f)

def afterAlloc (g : FrameAllocator) (f : Nat) : FrameAllocator :=
  { setFrameAllocated g (BitVec.ofNat 32 f) with
    usedFrames := g.usedFrames + 1
    freeFrames := g.freeFrames - 1
    firstFreeFrame := BitVec.ofNat 32 f + 1 }

theorem mmuAllocFrame_some (h : firstFrame m.gFrameAllocator = some f) :
    mmuAllocFrame m =
      (BitVec.ofNat 32 f, { m with gFrameAllocator := afterAlloc m.gFrameAllocator f }) := by
  rw [mmuAllocFrame, h]
  rfl

theorem toNat_ofNat_frame (hlt : f < totalFrames) : (BitVec.ofNat 32 f).toNat = f := by
  rw [BitVec.toNat_ofNat, Nat.mod_eq_of_lt (Nat.lt_trans hlt (by decide))]

theorem frameTaken_afterAlloc (hlt : f < totalFrames) {f' : Nat} (hf' : f' < totalFrames) :
    frameTaken (afterAlloc g f) f' = true ↔ f' = f ∨ frameTaken g f' = true := by
  have hsame : BitVec.ofNat 32 f' = BitVec.ofNat 32 f ↔ f' = f := by
    rw [ofNat_eq_iff hf', toNat_ofNat_frame hlt]
  have hset := isFrameAllocated_set g (BitVec.ofNat 32 f) (BitVec.ofNat 32 f')
  have hbits : frameTaken (afterAlloc g f) f' =
      isFrameAllocated (setFrameAllocated g (BitVec.ofNat 32 f)) (BitVec.ofNat 32 f') := rfl
  rw [hbits, hset, Bool.or_eq_true, decide_eq_true_iff, hsame]
  rfl

theorem represents_alloc (h : Represents g p) (hlow : p.Lowest f) :
    Represents (afterAlloc g f) (p.take f hlow.1) := by
  obtain ⟨hlt, hfree, hbelow⟩ := hlow
  have hcard := Pool.card_lt hlt hfree
  have htotal : totalFrames < 2 ^ 32 := by decide
  have hone : (1 : BitVec 32).toNat = 1 := rfl
  refine ⟨h.total, fun f' hf' => ?_, ?_, ?_, fun f' hf' => Pool.below_take hlt hbelow ?_⟩
  · rw [frameTaken_afterAlloc hlt hf', h.taken f' hf']
    exact Finset.mem_insert.symm
  · have hused : (afterAlloc g f).usedFrames = g.usedFrames + 1 := rfl
    rw [hused, Pool.card_take hlt hfree, BitVec.toNat_add, h.used, hone, Nat.mod_eq_of_lt (by omega)]
  · have hroom := h.free
    have hleft : (afterAlloc g f).freeFrames = g.freeFrames - 1 := rfl
    rw [hleft, Pool.card_take hlt hfree, BitVec.toNat_sub, hone]
    omega
  · have hhint : (afterAlloc g f).firstFreeFrame = BitVec.ofNat 32 f + 1 := rfl
    rw [hhint, BitVec.toNat_add, toNat_ofNat_frame hlt, hone, Nat.mod_eq_of_lt (by omega)] at hf'
    exact hf'

theorem alloc_full (h : Represents m.gFrameAllocator p) (hfull : p.Full) :
    mmuAllocFrame m = (0xFFFFFFFF, m) := by
  have hfirst : firstFrame m.gFrameAllocator = none := by
    rw [firstFrame_eq h]
    exact (Pool.search_eq_none h.hint).mpr hfull
  rw [mmuAllocFrame, hfirst]

theorem mmuAllocFrame_cases (h : Represents m.gFrameAllocator p) :
    (p.Full ∧ mmuAllocFrame m = (0xFFFFFFFF, m)) ∨ ∃ f, p.Lowest f ∧ mmuAllocFrame m =
      (BitVec.ofNat 32 f, { m with gFrameAllocator := afterAlloc m.gFrameAllocator f }) := by
  rcases Classical.em p.Full with hfull | hroom
  · exact .inl ⟨hfull, alloc_full h hfull⟩
  · obtain ⟨f, hf⟩ := Option.ne_none_iff_exists'.mp (mt (Pool.search_eq_none h.hint).mp hroom)
    exact .inr ⟨f, (Pool.search_eq_some h.hint).mp hf,
      mmuAllocFrame_some ((firstFrame_eq h).trans hf)⟩

def afterFree (g : FrameAllocator) (frame : BitVec 32) : FrameAllocator :=
  { setFrameFree g frame with
    usedFrames := g.usedFrames - 1
    freeFrames := g.freeFrames + 1
    firstFreeFrame := if frame < g.firstFreeFrame then frame else g.firstFreeFrame }

theorem mmuFreeFrame_cases (m : Mmu) (frame : BitVec 32) :
    mmuFreeFrame m frame = m ∨
      (frame < m.gFrameAllocator.totalFrames ∧ isFrameAllocated m.gFrameAllocator frame = true ∧
        mmuFreeFrame m frame = { m with gFrameAllocator := afterFree m.gFrameAllocator frame }) := by
  unfold mmuFreeFrame
  split
  · exact .inl rfl
  · next hin =>
    split
    · next halloc => exact .inr ⟨BitVec.not_le.mp hin, halloc, rfl⟩
    · exact .inl rfl

theorem frameTaken_afterFree (hf : f < totalFrames) :
    frameTaken (afterFree g frame) f = true ↔ f ≠ frame.toNat ∧ frameTaken g f = true := by
  have hset := isFrameAllocated_free g frame (BitVec.ofNat 32 f)
  have hbits : frameTaken (afterFree g frame) f =
      isFrameAllocated (setFrameFree g frame) (BitVec.ofNat 32 f) := rfl
  rw [hbits, hset, Bool.and_eq_true, Bool.not_eq_true', decide_eq_false_iff_not, ofNat_eq_iff hf]
  rfl

theorem represents_free (h : Represents g p) (hlt : frame.toNat < totalFrames)
    (halloc : isFrameAllocated g frame = true) :
    Represents (afterFree g frame) (p.give frame.toNat) := by
  have hcard := Pool.card_give ((frameTaken_iff h hlt).mp halloc)
  have htotal : totalFrames < 2 ^ 32 := by decide
  have hone : (1 : BitVec 32).toNat = 1 := rfl
  refine ⟨h.total, fun f hf => ?_, ?_, ?_, fun f hf => Pool.below_give h.hint ?_⟩
  · rw [frameTaken_afterFree hf, h.taken f hf]
    exact Finset.mem_erase.symm
  · have hused := h.used
    have hwide := g.usedFrames.isLt
    have hless : (afterFree g frame).usedFrames = g.usedFrames - 1 := rfl
    rw [hless, BitVec.toNat_sub, hone]
    omega
  · have hroom := h.free
    have hmore : (afterFree g frame).freeFrames = g.freeFrames + 1 := rfl
    rw [hmore, BitVec.toNat_add, hone]
    omega
  · have hhint : (afterFree g frame).firstFreeFrame =
        if frame < g.firstFreeFrame then frame else g.firstFreeFrame := rfl
    rw [hhint] at hf
    split at hf
    · next hlow =>
      have hlow' := BitVec.lt_def.mp hlow
      omega
    · next hhigh =>
      have hhigh' := BitVec.le_def.mp (BitVec.not_lt.mp hhigh)
      omega

theorem represents_mmuFreeFrame (h : Represents m.gFrameAllocator p) (frame : BitVec 32) :
    ∃ p', Represents (mmuFreeFrame m frame).gFrameAllocator p' := by
  rcases mmuFreeFrame_cases m frame with heq | ⟨hlt, halloc, heq⟩
  · rw [heq]
    exact ⟨p, h⟩
  · rw [heq]
    have hlt' : frame.toNat < totalFrames := by
      rw [← toNat_totalFrames h]
      exact BitVec.lt_def.mp hlt
    exact ⟨_, represents_free h hlt' halloc⟩

end Simulation

section Runs

theorem represents_step {c : MmuCall} (h : Represents m.gFrameAllocator p)
    (hstep : mmuStep m c = some m') : ∃ p', Represents m'.gFrameAllocator p' := by
  have hcall := mmuStep_eq hstep
  cases c with
  | allocFrame =>
    obtain rfl := Except.ok.inj hcall
    rcases mmuAllocFrame_cases h with ⟨-, heq⟩ | ⟨f, hlow, heq⟩
    · rw [heq]
      exact ⟨p, h⟩
    · rw [heq]
      exact ⟨_, represents_alloc h hlow⟩
  | freeFrame frame =>
    obtain rfl := Except.ok.inj hcall
    exact represents_mmuFreeFrame h frame
  | mapPage allocated dir v pa flags =>
    obtain ⟨⟨r, t⟩, hmap, hrest⟩ := Outcome.bind_eq_ok.mp hcall
    obtain rfl := Except.ok.inj hrest
    rw [frames_mmuMapPage hmap]
    exact ⟨p, h⟩
  | unmapPage dir v =>
    obtain ⟨⟨r, t⟩, hunmap, hrest⟩ := Outcome.bind_eq_ok.mp hcall
    obtain rfl := Except.ok.inj hrest
    rcases mmuUnmapPage_cases hunmap with rfl | ⟨_, d, table, _, _, _, _, _, rfl⟩
    · exact ⟨p, h⟩
    · exact represents_mmuFreeFrame h _
  | createPageDirectory allocated =>
    obtain rfl := Except.ok.inj hcall
    rw [frames_create]
    exact ⟨p, h⟩
  | destroyPageDirectory dir =>
    rw [frames_destroy hcall]
    exact ⟨p, h⟩

theorem represents_run {m₀ : Mmu} {calls : List MmuCall} (hinit : m₀.gFrameAllocator = emptyFrames)
    (hrun : Run mmuStep (fun _ _ => True) m₀ calls m) : ∃ p, Represents m.gFrameAllocator p := by
  refine hrun.invariant (P := fun m => ∃ p, Represents m.gFrameAllocator p) ?_ ?_
  · rw [hinit]
    exact ⟨_, represents_empty⟩
  · rintro m c m' ⟨p, h⟩ _ hstep
    exact represents_step h hstep

theorem setBits_eq (h : Represents g p) : setBits g = p.taken.card := by
  refine congrArg Finset.card (Finset.ext fun f => ?_)
  rw [Finset.mem_filter, Finset.mem_range]
  constructor
  · rintro ⟨hlt, htaken⟩
    exact (h.taken f hlt).mp htaken
  · intro hin
    exact ⟨p.bounded hin, (h.taken f (p.bounded hin)).mpr hin⟩

theorem framesAccounted (h : Represents g p) : FramesAccounted g := by
  refine ⟨toNat_totalFrames h, h.used.trans (setBits_eq h).symm, ?_, fun f hf => ?_⟩
  · have hroom := h.free
    rw [h.used]
    omega
  · have hin := h.hint f hf
    exact (h.taken f (p.bounded hin)).mpr hin

theorem allocatesLowest (h : Represents m.gFrameAllocator p) : AllocatesLowest m := by
  have hfull : p.Full ↔ ∀ f < totalFrames, frameTaken m.gFrameAllocator f = true :=
    forall₂_congr fun f hf => (h.taken f hf).symm
  rcases mmuAllocFrame_cases h with ⟨hall, hcall⟩ | ⟨f, ⟨hlt, hfree, hlow⟩, hcall⟩
  · refine ⟨?_, fun f hf hne => ?_⟩
    · rw [hcall]
      exact ⟨fun _ => hfull.mp hall, fun _ => rfl⟩
    · rw [hcall] at hf
      exact absurd hf.symm hne
  · have hfound := toNat_ofNat_frame hlt
    have hall : ¬ p.Full := fun hall => hfree (hall f hlt)
    have hvalid : BitVec.ofNat 32 f ≠ 0xFFFFFFFF := by
      intro he
      have hnat := congrArg BitVec.toNat he
      rw [hfound] at hnat
      have htotal : totalFrames < (0xFFFFFFFF : BitVec 32).toNat := by decide
      omega
    rw [hfull] at hall
    refine ⟨?_, fun f' hf' _ => ?_⟩
    · rw [hcall]
      exact ⟨fun he => absurd he hvalid, fun htaken => absurd htaken hall⟩
    · rw [hcall] at hf'
      subst hf'
      rw [hfound]
      refine ⟨hlt, ?_, fun j hj => (h.taken j (by omega)).mpr (hlow j hj)⟩
      rw [← Bool.not_eq_true, h.taken f hlt]
      exact hfree

theorem frameTaken_mmuFreeFrame (h : Represents m.gFrameAllocator p) (hf : f < totalFrames) :
    frameTaken (mmuFreeFrame m frame).gFrameAllocator f = true ↔
      f ≠ frame.toNat ∧ frameTaken m.gFrameAllocator f = true := by
  rw [mmuFreeFrame]
  split
  · next hover =>
    have hne : f ≠ frame.toNat := by
      rw [BitVec.le_def, toNat_totalFrames h] at hover
      omega
    exact (and_iff_right hne).symm
  · split
    · exact frameTaken_afterFree hf
    · next hfree =>
      refine ⟨fun htaken => ⟨?_, htaken⟩, And.right⟩
      rintro rfl
      rw [frameTaken, BitVec.ofNat_toNat, BitVec.setWidth_eq] at htaken
      exact hfree htaken

theorem mmuUnmapPage_frames {dir : Option Address} {v : BitVec 32} {r : Int}
    (h : mmuUnmapPage m dir v = .ok (r, m')) :
    m'.gFrameAllocator = ((mappedFrame m dir v).elim m (mmuFreeFrame m)).gFrameAllocator := by
  cases dir with
  | none =>
    obtain ⟨-, rfl⟩ := Prod.mk.inj (Except.ok.inj h)
    rfl
  | some da =>
    obtain ⟨d, hd, hrest⟩ := Outcome.bind_eq_ok.mp h
    rw [mappedFrame, Option.bind_eq_bind, Option.bind_some, readDirectory_ok hd]
    cases hp : (d (pdIndex v)).present with
    | false =>
      rw [hp, Bool.not_false, if_pos rfl] at hrest
      obtain ⟨-, rfl⟩ := Prod.mk.inj (Except.ok.inj hrest)
      simp [hp]
    | true =>
      rw [hp, Bool.not_true, if_neg Bool.false_ne_true] at hrest
      obtain ⟨t, ht, hrest⟩ := Outcome.bind_eq_ok.mp hrest
      cases he : (t (ptIndex v)).present with
      | false =>
        simp only [he, Bool.false_eq_true, if_false] at hrest
        obtain ⟨-, rfl⟩ := Prod.mk.inj (Except.ok.inj hrest)
        simp [hp, readTable_ok ht, he]
      | true =>
        simp only [he, if_true] at hrest
        obtain ⟨-, rfl⟩ := Prod.mk.inj (Except.ok.inj hrest)
        simp only [Option.bind_eq_bind, Option.bind_some, hp, readTable_ok ht, he, if_true,
          Option.elim_some]
        rfl

theorem marksFrames (h : Represents m.gFrameAllocator p) : MarksFrames m where
  alloc f hf := by
    rcases mmuAllocFrame_cases h with ⟨-, heq⟩ | ⟨low, hlow, heq⟩
    · rw [heq]
      have hnone : f ≠ (0xFFFFFFFF : BitVec 32).toNat := Nat.ne_of_lt (Nat.lt_trans hf (by decide))
      exact (or_iff_right hnone).symm
    · rw [heq, toNat_ofNat_frame hlow.1]
      exact frameTaken_afterAlloc hlow.1 hf
  free frame f hf := frameTaken_mmuFreeFrame h hf
  unmap dir v r m' hunmap f hf := by
    rw [mmuUnmapPage_frames hunmap]
    cases mappedFrame m dir v with
    | none => simp
    | some frame =>
      have hsame : f ≠ frame.toNat ↔ some frame ≠ some (BitVec.ofNat 32 f) := by
        rw [Ne, Ne, Option.some_inj, eq_comm (a := frame), ofNat_eq_iff hf]
      rw [Option.elim_some, frameTaken_mmuFreeFrame h hf, hsame]

theorem frames_accounted_in_every_run {m₀ : Mmu} {calls : List MmuCall}
    (hinit : m₀.gFrameAllocator = emptyFrames)
    (hrun : Run mmuStep (fun _ _ => True) m₀ calls m) :
    FramesAccounted m.gFrameAllocator ∧ AllocatesLowest m ∧ MarksFrames m := by
  obtain ⟨p, h⟩ := represents_run hinit hrun
  exact ⟨framesAccounted h, allocatesLowest h, marksFrames h⟩

def readyMmu : Mmu := { oneDirectory with gFrameAllocator := emptyFrames }

def frameCalls : List MmuCall :=
  [.allocFrame, .allocFrame, .mapPage (some 0x20000) (some 0x10000) 0x5000 0x1000 pagePresent,
    .freeFrame 0, .freeFrame 0, .freeFrame 0xFFFFFFFF, .unmapPage (some 0x10000) 0x5000, .allocFrame]

theorem frames_accounted_in_one_run :
    FramesAccounted ((exec (guarded mmuStep fun _ _ => true) readyMmu frameCalls).getD
        readyMmu).gFrameAllocator ∧
      AllocatesLowest ((exec (guarded mmuStep fun _ _ => true) readyMmu frameCalls).getD readyMmu) ∧
      MarksFrames ((exec (guarded mmuStep fun _ _ => true) readyMmu frameCalls).getD readyMmu) := by
  have hrun : Run mmuStep (fun _ _ => true = true) readyMmu frameCalls
      ((exec (guarded mmuStep fun _ _ => true) readyMmu frameCalls).getD readyMmu) :=
    Run.of_exec_isSome (by decide +kernel)
  exact frames_accounted_in_every_run rfl (hrun.mono fun _ _ _ => trivial)

end Runs

end ZoraVM.Kernel

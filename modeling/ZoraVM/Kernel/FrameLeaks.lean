import Mathlib.Data.FinEnum
import ZoraVM.Kernel.FrameOwnership
import ZoraVM.Kernel.RangeCalls

namespace ZoraVM.Kernel

open Foundation

-- What the owner of a directory does with it: map the frame the allocator gives out next, and unmap.
inductive DirectoryCall where
  | mapFresh (allocated : Option Address) (virtualAddr flags : BitVec 32)
  | unmap (virtualAddr : BitVec 32)
  deriving DecidableEq, Repr

section Model

variable (dir : Address) (m : Mmu)

-- A frame that could not be mapped is given back.
def mapFresh (allocated : Option Address) (virtualAddr flags : BitVec 32) : Outcome Mmu :=
  let fresh := mmuAllocFrame m
  if fresh.1 = 0xFFFFFFFF then .ok fresh.2
  else do
    let (r, m) ← mmuMapPage allocated fresh.2 (some dir) virtualAddr (fresh.1 <<< pageShift) flags
    .ok (if r < 0 then mmuFreeFrame m fresh.1 else m)

def directoryCall : DirectoryCall → Outcome Mmu
  | .mapFresh allocated virtualAddr flags => mapFresh dir m allocated virtualAddr flags
  | .unmap virtualAddr => Prod.snd <$> mmuUnmapPage m (some dir) virtualAddr

def directoryStep (c : DirectoryCall) : Option Mmu := (directoryCall dir m c).toOption

-- VirtualAlloc gives memory of its own, at an address a directory entry can hold.
def Served : DirectoryCall → Prop
  | .mapFresh allocated _ _ => ∀ a, allocated = some a → a ≠ 0 ∧ FitsEntry a ∧ m.tables a = none
  | .unmap _ => True

def FrameLeft : Prop := ∃ f < totalFrames, frameTaken m.gFrameAllocator f = false

def TableReady (allocated : Option Address) (v : BitVec 32) : Prop :=
  (tableFor m dir (dirIndex (pageOf v))).isSome = true ∨ allocated.isSome = true

def Tidy : DirectoryCall → Prop
  | .mapFresh allocated v flags => FrameLeft m → TableReady dir m allocated v →
    flags &&& pagePresent ≠ 0 ∧ (pageEntry m dir (pageOf v)).present = false
  | .unmap _ => True

end Model

def AllServed (dir : Address) : Mmu → List DirectoryCall → Prop
  | _, [] => True
  | m, c :: calls => Served m c ∧ ∀ m', directoryStep dir m c = some m' → AllServed dir m' calls

def AllTidy (dir : Address) : Mmu → List DirectoryCall → Prop
  | _, [] => True
  | m, c :: calls => Tidy dir m c ∧ ∀ m', directoryStep dir m c = some m' → AllTidy dir m' calls

def mappedPages (m : Mmu) (dir : Address) : Finset (BitVec 20) :=
  Finset.univ.filter fun page => (pageEntry m dir page).present = true

-- Every frame taken since the directory was made is mapped in it, or is one of the `lost`.
structure Ledger (m : Mmu) (dir : Address) (p : Pool totalFrames) (base lost : Nat) : Prop where
  tabled : ∃ d, Tabled m dir d
  null : m.tables 0 = none
  frames : Represents m.gFrameAllocator p
  owned : ∀ page, (pageEntry m dir page).present = true →
    (pageEntry m dir page).frame.toNat ∈ p.taken
  apart : ∀ page other, (pageEntry m dir page).present = true →
    (pageEntry m dir other).present = true →
    (pageEntry m dir page).frame = (pageEntry m dir other).frame → page = other
  balance : p.taken.card = base + (mappedPages m dir).card + lost

variable {m m' : Mmu} {dir : Address} {d : PageDirectory} {p p' : Pool totalFrames} {base lost f : Nat}
  {v pa flags frame : BitVec 32} {page : BitVec 20} {allocated : Option Address}

section Counting

theorem mem_mappedPages : page ∈ mappedPages m dir ↔ (pageEntry m dir page).present = true := by
  rw [mappedPages, Finset.mem_filter]
  exact and_iff_right (Finset.mem_univ page)

theorem mappedPages_update {b : Bool} (h : ∀ other, (pageEntry m' dir other).present =
    if other = page then b else (pageEntry m dir other).present) :
    mappedPages m' dir =
      if b then insert page (mappedPages m dir) else (mappedPages m dir).erase page := by
  ext other
  rw [mem_mappedPages, h]
  cases b with
  | true =>
    rw [if_pos rfl, Finset.mem_insert, mem_mappedPages]
    split
    · next heq => exact ⟨fun _ => .inl heq, fun _ => rfl⟩
    · next hne => exact (or_iff_right hne).symm
  | false =>
    rw [if_neg Bool.false_ne_true, Finset.mem_erase, mem_mappedPages]
    split
    · next heq => exact ⟨fun hfalse => Bool.noConfusion hfalse, fun hin => absurd heq hin.1⟩
    · next hne => exact (and_iff_right hne).symm

end Counting

section Apart

theorem Ledger.apart_of_same (h : Ledger m dir p base lost)
    (hsame : ∀ {page}, (pageEntry m' dir page).present = true →
      pageEntry m' dir page = pageEntry m dir page) :
    ∀ x y, (pageEntry m' dir x).present = true → (pageEntry m' dir y).present = true →
      (pageEntry m' dir x).frame = (pageEntry m' dir y).frame → x = y := by
  intro x y hx hy hframe
  have hentry := hsame hx
  have hentry' := hsame hy
  rw [hentry] at hx hframe
  rw [hentry'] at hy hframe
  exact h.apart x y hx hy hframe

theorem Ledger.apart_of_fresh (h : Ledger m dir p base lost)
    (hother : ∀ {other}, other ≠ page → pageEntry m' dir other = pageEntry m dir other)
    (hfresh : ∀ {other}, (pageEntry m dir other).present = true →
      (pageEntry m dir other).frame ≠ (pageEntry m' dir page).frame) :
    ∀ x y, (pageEntry m' dir x).present = true → (pageEntry m' dir y).present = true →
      (pageEntry m' dir x).frame = (pageEntry m' dir y).frame → x = y := by
  intro x y hx hy hframe
  rcases eq_or_ne x page with rfl | hne
  · rcases eq_or_ne y x with rfl | hne'
    · rfl
    · rw [hother hne'] at hy hframe
      exact absurd hframe.symm (hfresh hy)
  · rw [hother hne] at hx hframe
    rcases eq_or_ne y page with rfl | hne'
    · exact absurd hframe (hfresh hx)
    · rw [hother hne'] at hy hframe
      exact h.apart x y hx hy hframe

end Apart

section Unmapping

theorem mmuFreeFrame_taken (h : Represents m.gFrameAllocator p) (hin : frame.toNat ∈ p.taken) :
    mmuFreeFrame m frame = { m with gFrameAllocator := afterFree m.gFrameAllocator frame } ∧
      Represents (afterFree m.gFrameAllocator frame) (p.give frame.toNat) := by
  have hlt := p.bounded hin
  have halloc := (frameTaken_iff h hlt).mpr hin
  have htotal := toNat_totalFrames h
  have hvalid : ¬ m.gFrameAllocator.totalFrames ≤ frame := by
    rw [BitVec.le_def]
    omega
  refine ⟨?_, represents_free h hlt halloc⟩
  rw [mmuFreeFrame, if_neg hvalid, if_pos halloc]
  rfl

theorem tables_unmap {r : Int} {table : Address} (hcall : mmuUnmapPage m (some dir) v = .ok (r, m'))
    (hnone : m.tables table = none) : m'.tables table = none := by
  rcases mmuUnmapPage_cases hcall with rfl | ⟨_, d, t, _, _, _, ht, _, rfl⟩
  · exact hnone
  · have hne : table ≠ tablePointer (d (pdIndex v)) := by
      rintro rfl
      rw [hnone] at ht
      cases ht
    have hflush : ∀ u : Mmu, (mmuFlushTlbSingle u v).tables = u.tables := fun _ => rfl
    rw [hflush, tables_write_of_ne hne, tables_freeFrame]
    exact hnone

theorem present_unmap (hentries : ∀ page, pageEntry m' dir page =
    if page = pageOf v then unmapEntry (pageEntry m dir page) else pageEntry m dir page)
    (page : BitVec 20) : (pageEntry m' dir page).present =
      if page = pageOf v then false else (pageEntry m dir page).present := by
  rw [hentries]
  split
  · exact unmapEntry_absent _
  · rfl

theorem kept_unmap (hentries : ∀ page, pageEntry m' dir page =
      if page = pageOf v then unmapEntry (pageEntry m dir page) else pageEntry m dir page)
    {page : BitVec 20} (hon : (pageEntry m' dir page).present = true) :
    page ≠ pageOf v ∧ pageEntry m' dir page = pageEntry m dir page := by
  rw [present_unmap hentries] at hon
  have hne : page ≠ pageOf v := by
    rintro rfl
    rw [if_pos rfl] at hon
    cases hon
  exact ⟨hne, by rw [hentries, if_neg hne]⟩

theorem ledger_unmap (h : Ledger m dir p base lost) (v : BitVec 32) :
    ∃ m' p', directoryStep dir m (.unmap v) = some m' ∧ Ledger m' dir p' base lost := by
  obtain ⟨d, hd⟩ := h.tabled
  obtain ⟨m', hcall, hd', hentries, hframes⟩ := mmuUnmapPage_spec hd v
  have hstep : directoryStep dir m (.unmap v) = some m' := by
    rw [directoryStep, directoryCall, hcall]
    rfl
  have hnull := tables_unmap hcall h.null
  have hpresent := present_unmap hentries
  have hother := fun {page} => @kept_unmap m m' dir v hentries page
  have hapart := h.apart_of_same fun hon => (hother hon).2
  have hmapped := mappedPages_update (b := false) hpresent
  rw [if_neg Bool.false_ne_true] at hmapped
  cases hon : (pageEntry m dir (pageOf v)).present with
  | false =>
    rw [hon, if_neg Bool.false_ne_true] at hframes
    have hout : pageOf v ∉ mappedPages m dir := by
      rw [mem_mappedPages, hon]
      exact Bool.false_ne_true
    refine ⟨m', p, hstep, ⟨d, hd'⟩, hnull, hframes ▸ h.frames, fun page hpage => ?_, hapart, ?_⟩
    · have hsame := (hother hpage).2
      rw [hsame] at hpage ⊢
      exact h.owned page hpage
    · rw [hmapped, Finset.erase_eq_of_notMem hout]
      exact h.balance
  | true =>
    have hwide : ((pageEntry m dir (pageOf v)).frame.setWidth 32).toNat =
        (pageEntry m dir (pageOf v)).frame.toNat := BitVec.toNat_setWidth_of_le (by decide)
    have hin := h.owned _ hon
    rw [← hwide] at hin
    obtain ⟨hfree, hrep⟩ := mmuFreeFrame_taken h.frames hin
    rw [hon, if_pos rfl, hfree] at hframes
    refine ⟨m', _, hstep, ⟨d, hd'⟩, hnull, by rw [hframes]; exact hrep, fun page hpage => ?_, hapart, ?_⟩
    · obtain ⟨hne, hsame⟩ := hother hpage
      rw [hsame] at hpage ⊢
      refine Finset.mem_erase.mpr ⟨fun heq => hne ?_, h.owned page hpage⟩
      rw [hwide] at heq
      exact h.apart page _ hpage hon (BitVec.eq_of_toNat_eq heq)
    · have hcard := Pool.card_give hin
      have hfewer := Finset.card_erase_add_one (mem_mappedPages.mpr hon)
      have hbalance := h.balance
      rw [hmapped]
      omega

end Unmapping

section Mapping

theorem tableReady_iff (h : Tabled m dir d) : TableReady dir m allocated v ↔
    (d (dirIndex (pageOf v))).present = true ∨ allocated.isSome = true := by
  refine or_congr_left ?_
  cases hon : (d (dirIndex (pageOf v))).present with
  | false => simp [tableFor_of_absent h hon]
  | true =>
    obtain ⟨t, ht⟩ := h.held _ hon
    simp [tableFor_of_present h hon, ht]

variable (pa flags) in
theorem mmuMapPage_ready (h : Tabled m dir d) (hnull : m.tables 0 = none)
    (hanswer : ∀ a, allocated = some a → FitsEntry a ∧ m.tables a = none)
    (hready : TableReady dir m allocated v) :
    ∃ m', mmuMapPage allocated m (some dir) v pa flags = .ok (0, m') := by
  rw [tableReady_iff h, ← pdIndex_eq] at hready
  cases hon : (d (pdIndex v)).present with
  | true => exact mmuMapPage_of_table h hanswer (getOrCreate_present h hnull hon)
  | false =>
    rw [hon] at hready
    obtain ⟨a, rfl⟩ := Option.isSome_iff_exists.mp (hready.resolve_left Bool.false_ne_true)
    exact mmuMapPage_of_table h hanswer (getOrCreatePageTable_new h.found hon)

variable (pa flags) in
theorem mmuMapPage_unready (h : Tabled m dir d) (hready : ¬ TableReady dir m allocated v) :
    mmuMapPage allocated m (some dir) v pa flags = .ok (-1, m) := by
  rw [tableReady_iff h, ← pdIndex_eq, not_or] at hready
  obtain ⟨hoff, hnone⟩ := hready
  rw [Bool.not_eq_true] at hoff hnone
  rw [Option.isSome_eq_false_iff, Option.isNone_iff_eq_none] at hnone
  subst hnone
  simp [mmuMapPage, getOrCreatePageTable, readDirectory, h.found, hoff, bind, Except.bind]

theorem mapFresh_full (hfull : mmuAllocFrame m = (0xFFFFFFFF, m)) :
    mapFresh dir m allocated v flags = .ok m := by
  simp only [mapFresh, hfull, if_pos]

theorem frame_valid (hlt : f < totalFrames) : BitVec.ofNat 32 f ≠ 0xFFFFFFFF := by
  intro heq
  have hnat := congrArg BitVec.toNat heq
  rw [toNat_ofNat_frame hlt] at hnat
  have hsentinel : (0xFFFFFFFF : BitVec 32).toNat = 4294967295 := rfl
  have htotal : totalFrames = 16384 := rfl
  omega

theorem pageOf_frame (hlt : f < totalFrames) :
    (pageOf (BitVec.ofNat 32 f <<< pageShift)).toNat = f := by
  have htotal : totalFrames = 16384 := rfl
  have hshift : pageShift = 12 := rfl
  rw [toNat_pageOf, BitVec.toNat_shiftLeft, toNat_ofNat_frame hlt, hshift, Nat.shiftLeft_eq]
  omega

theorem frameLeft_of_lowest (h : Represents m.gFrameAllocator p) (hlow : p.Lowest f) : FrameLeft m := by
  obtain ⟨hlt, hfree, _⟩ := lowestFree_of_lowest h hlow
  exact ⟨f, hlt, hfree⟩

theorem not_frameLeft (h : Represents m.gFrameAllocator p)
    (hfull : mmuAllocFrame m = (0xFFFFFFFF, m)) : ¬ FrameLeft m := by
  rintro ⟨f, hlt, hfree⟩
  have hall := (allocatesLowest h).exhausted.mp (congrArg Prod.fst hfull)
  rw [hall f hlt] at hfree
  cases hfree

def withFrame (m : Mmu) (f : Nat) : Mmu :=
  { m with gFrameAllocator := afterAlloc m.gFrameAllocator f }

theorem mapFresh_lowest (hlow : p.Lowest f)
    (halloc : mmuAllocFrame m = (BitVec.ofNat 32 f, withFrame m f)) {r : Int}
    (hcall : mmuMapPage allocated (withFrame m f) (some dir) v (BitVec.ofNat 32 f <<< pageShift) flags =
      .ok (r, m')) :
    mapFresh dir m allocated v flags =
      .ok (if r < 0 then mmuFreeFrame m' (BitVec.ofNat 32 f) else m') := by
  simp only [mapFresh, halloc, if_neg (frame_valid hlow.1), hcall, bind, Except.bind]

theorem tabled_withFrame (h : Tabled m dir d) (f : Nat) : Tabled (withFrame m f) dir d :=
  ⟨h.found, h.held, h.apart⟩

theorem pageEntry_withFrame (m : Mmu) (f : Nat) (page : BitVec 20) :
    pageEntry (withFrame m f) dir page = pageEntry m dir page := rfl

theorem ledger_refused (h : Ledger m dir p base lost) (hlow : p.Lowest f) :
    ∃ p', Ledger (mmuFreeFrame (withFrame m f) (BitVec.ofNat 32 f)) dir p' base lost := by
  obtain ⟨d, hd⟩ := h.tabled
  have hf := toNat_ofNat_frame hlow.1
  have hrep : Represents (withFrame m f).gFrameAllocator (p.take f hlow.1) :=
    represents_alloc h.frames hlow
  have hin : (BitVec.ofNat 32 f).toNat ∈ (p.take f hlow.1).taken := by
    rw [hf]
    exact Finset.mem_insert_self f p.taken
  obtain ⟨hfree, hrep'⟩ := mmuFreeFrame_taken hrep hin
  have hentries : ∀ page, pageEntry (mmuFreeFrame (withFrame m f) (BitVec.ofNat 32 f)) dir page =
      pageEntry m dir page := fun page => pageEntry_freeFrame _ _ page
  have hkept : ((p.take f hlow.1).give (BitVec.ofNat 32 f).toNat).taken = p.taken := by
    rw [hf]
    exact Finset.erase_insert hlow.2.1
  refine ⟨_, ⟨d, tabled_freeFrame (tabled_withFrame hd f) _⟩, ?_, by rw [hfree]; exact hrep', ?_, ?_, ?_⟩
  · rw [tables_freeFrame]
    exact h.null
  · intro page hon
    rw [hentries] at hon ⊢
    rw [hkept]
    exact h.owned page hon
  · exact h.apart_of_same fun _ => hentries _
  · have hmapped : mappedPages (mmuFreeFrame (withFrame m f) (BitVec.ofNat 32 f)) dir =
        mappedPages m dir := by
      unfold mappedPages
      simp only [hentries]
    rw [hkept, hmapped]
    exact h.balance

def lostBy (m : Mmu) (dir : Address) (v flags : BitVec 32) : Nat :=
  (if (pageEntry m dir (pageOf v)).present then 1 else 0) +
    (if flags &&& pagePresent = 0 then 1 else 0)

theorem lostBy_eq_zero_iff : lostBy m dir v flags = 0 ↔
    flags &&& pagePresent ≠ 0 ∧ (pageEntry m dir (pageOf v)).present = false := by
  rw [lostBy, Nat.add_eq_zero_iff, and_comm]
  refine and_congr ?_ ?_
  · exact ite_eq_right_iff.trans (imp_congr_right fun _ => iff_of_false Nat.one_ne_zero id)
  · cases (pageEntry m dir (pageOf v)).present <;> decide

theorem balance_of_update :
    base + (mappedPages m dir).card + lost + 1 =
      base + (if flags &&& pagePresent != 0 then insert (pageOf v) (mappedPages m dir)
        else (mappedPages m dir).erase (pageOf v)).card + (lost + lostBy m dir v flags) := by
  have hflag : (flags &&& pagePresent != 0) = true ↔ flags &&& pagePresent ≠ 0 := bne_iff_ne
  unfold lostBy
  cases hon : (pageEntry m dir (pageOf v)).present with
  | true =>
    have hin := mem_mappedPages.mpr hon
    have hfewer := Finset.card_erase_add_one hin
    split
    · next hset =>
      rw [Finset.insert_eq_of_mem hin, if_neg (hflag.mp hset), if_pos rfl]
      omega
    · next hclear =>
      rw [if_pos (not_not.mp (mt hflag.mpr hclear)), if_pos rfl]
      omega
  | false =>
    have hout : pageOf v ∉ mappedPages m dir := by
      rw [mem_mappedPages, hon]
      exact Bool.false_ne_true
    split
    · next hset =>
      rw [Finset.card_insert_of_notMem hout, if_neg (hflag.mp hset), if_neg Bool.false_ne_true]
      omega
    · next hclear =>
      rw [Finset.erase_eq_of_notMem hout, if_pos (not_not.mp (mt hflag.mpr hclear)),
        if_neg Bool.false_ne_true]
      omega

theorem ledger_mapped (h : Ledger m dir p base lost) (hlow : p.Lowest f)
    (hanswer : ∀ a, allocated = some a → a ≠ 0 ∧ FitsEntry a ∧ m.tables a = none)
    (hcall : mmuMapPage allocated (withFrame m f) (some dir) v (BitVec.ofNat 32 f <<< pageShift) flags =
      .ok (0, m')) :
    Ledger m' dir (p.take f hlow.1) base (lost + lostBy m dir v flags) := by
  obtain ⟨d, hd⟩ := h.tabled
  obtain ⟨htabled, hentries⟩ := mmuMapPage_exact (tabled_withFrame hd f)
    (fun a ha => (hanswer a ha).2) hcall
  have hframe := pageOf_frame hlow.1
  have hfields : ∀ e, (mapEntry e (BitVec.ofNat 32 f <<< pageShift) flags).present =
      (flags &&& pagePresent != 0) ∧
        (mapEntry e (BitVec.ofNat 32 f <<< pageShift) flags).frame.toNat = f :=
    fun _ => ⟨rfl, hframe⟩
  have hself : pageEntry m' dir (pageOf v) =
      mapEntry (pageEntry m dir (pageOf v)) (BitVec.ofNat 32 f <<< pageShift) flags := by
    rw [hentries, if_pos rfl, pageEntry_withFrame]
  have hother : ∀ {page}, page ≠ pageOf v → pageEntry m' dir page = pageEntry m dir page := by
    intro page hne
    rw [hentries, if_neg hne, pageEntry_withFrame]
  refine ⟨htabled, ?_, frames_mmuMapPage hcall ▸ represents_alloc h.frames hlow, ?_, ?_, ?_⟩
  · rcases onlyAdds_mapPage hcall 0 h.null with hnone | hzero
    · exact hnone
    · exact absurd rfl (hanswer 0 hzero).1
  · intro page hon
    rcases eq_or_ne page (pageOf v) with rfl | hne
    · rw [hself, (hfields _).2]
      exact Finset.mem_insert_self f p.taken
    · rw [hother hne] at hon ⊢
      exact Finset.mem_insert_of_mem (h.owned page hon)
  · refine h.apart_of_fresh hother fun {page} hon hsame => hlow.2.1 ?_
    have hnat := congrArg BitVec.toNat hsame
    rw [hself, (hfields _).2] at hnat
    exact hnat ▸ h.owned page hon
  · have hpresent : ∀ page, (pageEntry m' dir page).present =
        if page = pageOf v then flags &&& pagePresent != 0 else (pageEntry m dir page).present := by
      intro page
      split
      · next heq => rw [heq, hself, (hfields _).1]
      · next hne => rw [hother hne]
    rw [Pool.card_take hlow.1 hlow.2.1, h.balance, mappedPages_update hpresent]
    exact balance_of_update

theorem ledger_map (h : Ledger m dir p base lost)
    (hserved : Served m (.mapFresh allocated v flags)) :
    ∃ m' p' lost', directoryStep dir m (.mapFresh allocated v flags) = some m' ∧
      Ledger m' dir p' base lost' ∧ lost ≤ lost' ∧
      (lost' = lost ↔ Tidy dir m (.mapFresh allocated v flags)) := by
  obtain ⟨d, hd⟩ := h.tabled
  have hstep : ∀ {m'}, mapFresh dir m allocated v flags = .ok m' →
      directoryStep dir m (.mapFresh allocated v flags) = some m' := fun hcall => by
    rw [directoryStep, directoryCall, hcall]
    rfl
  rcases mmuAllocFrame_cases h.frames with ⟨-, hfull⟩ | ⟨f, hlow, halloc⟩
  · have hnone := not_frameLeft h.frames hfull
    exact ⟨m, p, lost, hstep (mapFresh_full hfull), h, Nat.le_refl lost,
      fun _ hleft => absurd hleft hnone, fun _ => rfl⟩
  · have hleft := frameLeft_of_lowest h.frames hlow
    by_cases hready : TableReady dir m allocated v
    · obtain ⟨m', hcall⟩ := mmuMapPage_ready (BitVec.ofNat 32 f <<< pageShift) flags
        (tabled_withFrame hd f) h.null (fun a ha => (hserved a ha).2) hready
      refine ⟨m', _, _, hstep (mapFresh_lowest hlow halloc hcall), ledger_mapped h hlow hserved hcall,
        Nat.le_add_right lost _, ?_⟩
      rw [Nat.add_eq_left, lostBy_eq_zero_iff]
      exact ⟨fun htidy _ _ => htidy, fun htidy => htidy hleft hready⟩
    · have hcall := mmuMapPage_unready (BitVec.ofNat 32 f <<< pageShift) flags
        (tabled_withFrame hd f) hready
      obtain ⟨p', hledger⟩ := ledger_refused h hlow
      exact ⟨_, p', lost, hstep (mapFresh_lowest hlow halloc hcall), hledger, Nat.le_refl lost,
        fun _ _ hready' => absurd hready' hready, fun _ => rfl⟩

end Mapping

section Runs

variable {m₀ : Mmu} {calls : List DirectoryCall}

theorem ledger_step {c : DirectoryCall} (h : Ledger m dir p base lost) (hserved : Served m c) :
    ∃ m' p' lost', directoryStep dir m c = some m' ∧ Ledger m' dir p' base lost' ∧ lost ≤ lost' ∧
      (lost' = lost ↔ Tidy dir m c) := by
  cases c with
  | mapFresh allocated v flags => exact ledger_map h hserved
  | unmap v =>
    obtain ⟨m', p', hstep, hledger⟩ := ledger_unmap h v
    exact ⟨m', p', lost, hstep, hledger, Nat.le_refl lost, fun _ => trivial, fun _ => rfl⟩

theorem ledger_run (h : Ledger m dir p base lost) (hserved : AllServed dir m calls) :
    ∃ m' p' lost', exec (directoryStep dir) m calls = some m' ∧ Ledger m' dir p' base lost' ∧
      lost ≤ lost' ∧ (lost' = lost ↔ AllTidy dir m calls) := by
  induction calls generalizing m p lost with
  | nil => exact ⟨m, p, lost, rfl, h, Nat.le_refl lost, fun _ => trivial, fun _ => rfl⟩
  | cons c calls ih =>
    obtain ⟨m₁, p₁, lost₁, hstep, h₁, hle₁, htidy₁⟩ := ledger_step h hserved.1
    obtain ⟨m', p', lost', hrun, h', hle, htidy⟩ := ih h₁ (hserved.2 m₁ hstep)
    refine ⟨m', p', lost', ?_, h', Nat.le_trans hle₁ hle, ?_⟩
    · rw [exec, hstep]
      exact hrun
    · constructor
      · intro heq
        refine ⟨htidy₁.mp (by omega), fun m₂ hstep' => ?_⟩
        obtain rfl := Option.some.inj (hstep.symm.trans hstep')
        exact htidy.mp (by omega)
      · intro hall
        exact (htidy.mpr (hall.2 m₁ hstep)).trans (htidy₁.mpr hall.1)

theorem tabled_created (m₀ : Mmu) (dir : Address) :
    Tabled (mmuCreatePageDirectory (some dir) m₀).2 dir fun _ => clearDirectoryEntry := by
  refine ⟨?_, fun _ hi => Bool.noConfusion hi, fun _ _ hi => Bool.noConfusion hi⟩
  exact Function.update_self dir _ _

theorem ledger_created (hrep : Represents m₀.gFrameAllocator p) (hnull : m₀.tables 0 = none) :
    Ledger (mmuCreatePageDirectory (some dir) m₀).2 dir p p.taken.card 0 := by
  have hempty : ∀ page, pageEntry (mmuCreatePageDirectory (some dir) m₀).2 dir page =
      clearTableEntry := fun page => pageEntry_of_absent (tabled_created m₀ dir) rfl
  have hoff : ∀ {page},
      ¬ (pageEntry (mmuCreatePageDirectory (some dir) m₀).2 dir page).present = true := by
    intro page hon
    rw [hempty] at hon
    cases hon
  have hnone : mappedPages (mmuCreatePageDirectory (some dir) m₀).2 dir = ∅ :=
    Finset.eq_empty_of_forall_notMem fun page hin => hoff (mem_mappedPages.mp hin)
  exact ⟨⟨_, tabled_created m₀ dir⟩, hnull, hrep, fun page hon => absurd hon hoff,
    fun page _ hon => absurd hon hoff, by rw [hnone]; rfl⟩

theorem destroy_total (h : Ledger m dir p base lost) :
    ∃ m', mmuDestroyPageDirectory m (some dir) = .ok m' ∧ m'.gFrameAllocator = m.gFrameAllocator := by
  obtain ⟨d, hd⟩ := h.tabled
  have hread : readDirectory m dir = .ok d := by
    rw [readDirectory, hd.found]
  have hcall : ∃ m', mmuDestroyPageDirectory m (some dir) = .ok m' := by
    simp only [mmuDestroyPageDirectory, hread, bind, Except.bind]
    exact ⟨_, rfl⟩
  obtain ⟨m', hcall⟩ := hcall
  exact ⟨m', hcall, frames_destroy hcall⟩

theorem freeFrames_eq_iff (hrep : Represents m₀.gFrameAllocator p)
    (h : Ledger m dir p' p.taken.card lost) :
    m.gFrameAllocator.freeFrames = m₀.gFrameAllocator.freeFrames ↔
      lost = 0 ∧ ∀ page, (pageEntry m dir page).present = false := by
  have hbefore := hrep.free
  have hafter := h.frames.free
  have hbalance := h.balance
  rw [← BitVec.toNat_inj]
  constructor
  · intro hsame
    have hnone : (mappedPages m dir).card = 0 := by omega
    refine ⟨by omega, fun page => ?_⟩
    rw [← Bool.not_eq_true, ← mem_mappedPages, Finset.card_eq_zero.mp hnone]
    exact Finset.notMem_empty page
  · rintro ⟨rfl, hempty⟩
    have hnone : mappedPages m dir = ∅ := Finset.eq_empty_of_forall_notMem fun page hin => by
      have hon := mem_mappedPages.mp hin
      rw [hempty page] at hon
      cases hon
    rw [hnone, Finset.card_empty] at hbalance
    omega

end Runs

section Results

variable {m₀ : Mmu} {calls : List DirectoryCall}

theorem frames_returned_iff (hrep : Represents m₀.gFrameAllocator p) (hnull : m₀.tables 0 = none)
    (hserved : AllServed dir (mmuCreatePageDirectory (some dir) m₀).2 calls) :
    ∃ m m', exec (directoryStep dir) (mmuCreatePageDirectory (some dir) m₀).2 calls = some m ∧
      mmuDestroyPageDirectory m (some dir) = .ok m' ∧
      (m'.gFrameAllocator.freeFrames = m₀.gFrameAllocator.freeFrames ↔
        AllTidy dir (mmuCreatePageDirectory (some dir) m₀).2 calls ∧
          ∀ page, (pageEntry m dir page).present = false) := by
  obtain ⟨m, p', lost, hrun, hledger, _, htidy⟩ := ledger_run (ledger_created hrep hnull) hserved
  obtain ⟨m', hdestroy, hframes⟩ := destroy_total hledger
  refine ⟨m, m', hrun, hdestroy, ?_⟩
  rw [hframes, freeFrames_eq_iff hrep hledger, htidy]

def initialMmu : Mmu := { coldMmu with gFrameAllocator := emptyFrames }

def mapOver : List DirectoryCall :=
  [.mapFresh (some 0x20000) 0x400000 pagePresent, .mapFresh none 0x400000 pagePresent, .unmap 0x400000]

theorem served_first (v flags : BitVec 32) :
    Served (mmuCreatePageDirectory (some 0x10000) initialMmu).2 (.mapFresh (some 0x20000) v flags) := by
  rintro a ha
  obtain rfl := Option.some.inj ha
  exact ⟨by decide, ⟨rfl, .inl (by decide)⟩, rfl⟩

theorem served_none (m : Mmu) (v flags : BitVec 32) : Served m (.mapFresh none v flags) := by
  rintro a ha
  cases ha

theorem served_mapOver :
    AllServed 0x10000 (mmuCreatePageDirectory (some 0x10000) initialMmu).2 mapOver :=
  ⟨served_first _ _, fun _ _ => ⟨served_none _ _ _, fun _ _ => ⟨trivial, fun _ _ => trivial⟩⟩⟩

theorem frames_returned_iff_mapOver :
    ∃ m m', exec (directoryStep 0x10000) (mmuCreatePageDirectory (some 0x10000) initialMmu).2 mapOver =
        some m ∧
      mmuDestroyPageDirectory m (some 0x10000) = .ok m' ∧
      (m'.gFrameAllocator.freeFrames = initialMmu.gFrameAllocator.freeFrames ↔
        AllTidy 0x10000 (mmuCreatePageDirectory (some 0x10000) initialMmu).2 mapOver ∧
          ∀ page, (pageEntry m 0x10000 page).present = false) :=
  frames_returned_iff represents_empty rfl served_mapOver

theorem frame_mapped_over_lost :
    ¬ ∀ (m₀ : Mmu) (p : Pool totalFrames) (dir : Address) (calls : List DirectoryCall),
      Represents m₀.gFrameAllocator p → m₀.tables 0 = none →
      AllServed dir (mmuCreatePageDirectory (some dir) m₀).2 calls →
      ∃ m m', exec (directoryStep dir) (mmuCreatePageDirectory (some dir) m₀).2 calls = some m ∧
        mmuDestroyPageDirectory m (some dir) = .ok m' ∧
        m'.gFrameAllocator.freeFrames = m₀.gFrameAllocator.freeFrames := by
  intro hall
  obtain ⟨m, m', hrun, hdestroy, hsame⟩ := hall initialMmu (Pool.empty totalFrames) 0x10000 mapOver
    represents_empty rfl served_mapOver
  have hleft : (exec (directoryStep 0x10000) (mmuCreatePageDirectory (some 0x10000) initialMmu).2
      mapOver).map (fun m => m.gFrameAllocator.freeFrames) = some 16383 := by decide +kernel
  rw [hrun, Option.map_some, ← frames_destroy hdestroy, hsame] at hleft
  exact absurd hleft (by decide)

end Results

end ZoraVM.Kernel

import ZoraVM.Kernel.Frames
import ZoraVM.Kernel.PageMapping

namespace ZoraVM.Kernel

open Foundation

section Model

def pageAlignUp (addr : BitVec 32) : BitVec 32 := (addr + 0xFFF) &&& 0xFFFFF000

-- The loop of mmu_unmap_range and of mmu_protect_range: what the call answers is not looked at.
-- `none` where the fuel does not reach.
def pageLoop (call : Mmu → BitVec 32 → Outcome (Int × Mmu)) (endAddr : BitVec 32) :
    Nat → Mmu → BitVec 32 → Outcome (Option Mmu)
  | 0, _, _ => .ok none
  | fuel + 1, m, virtualAddr =>
    if virtualAddr < endAddr then do
      let (_, m) ← call m virtualAddr
      pageLoop call endAddr fuel m (virtualAddr + 4096)
    else .ok (some m)

variable (fuel : Nat) (m : Mmu) (dir : Option Address) (virtualStart size : BitVec 32)

def mmuUnmapRange : Outcome (Option Mmu) :=
  pageLoop (fun m v => mmuUnmapPage m dir v) (pageAlignUp (virtualStart + size)) fuel m
    (pageAlignDown virtualStart)

def mmuProtectRange (flags : BitVec 32) : Outcome (Option Mmu) :=
  pageLoop (fun m v => mmuSetPageFlags m dir v flags) (pageAlignUp (virtualStart + size)) fuel m
    (pageAlignDown virtualStart)

end Model

def unmapEntry (e : PageTableEntry) : PageTableEntry := if e.present then clearTableEntry else e

def protectEntry (flags : BitVec 32) (e : PageTableEntry) : PageTableEntry :=
  if e.present then
    { e with
      writable := flags &&& pageWritable != 0
      userMode := flags &&& pageUser != 0 }
  else e

def Edits (call : Mmu → BitVec 32 → Outcome (Int × Mmu)) (edit : PageTableEntry → PageTableEntry)
    (dir : Address) (d : PageDirectory) : Prop :=
  ∀ m v, Tabled m dir d → ∃ r m', call m v = .ok (r, m') ∧ Tabled m' dir d ∧
    ∀ page, pageEntry m' dir page =
      if page = pageOf v then edit (pageEntry m dir page) else pageEntry m dir page

variable {m m' : Mmu} {da : Address} {d : PageDirectory} {page : BitVec 20}
  {v vs size flags endAddr : BitVec 32} {t : PageTable}
  {call : Mmu → BitVec 32 → Outcome (Int × Mmu)} {edit : PageTableEntry → PageTableEntry}

section Calls

theorem tabled_freeFrame (h : Tabled m da d) (frame : BitVec 32) :
    Tabled (mmuFreeFrame m frame) da d := by
  rcases mmuFreeFrame_cases m frame with heq | ⟨_, _, heq⟩
  · rw [heq]
    exact h
  · rw [heq]
    exact ⟨h.found, h.held, h.apart⟩

theorem tables_freeFrame (m : Mmu) (frame : BitVec 32) : (mmuFreeFrame m frame).tables = m.tables := by
  rcases mmuFreeFrame_cases m frame with heq | ⟨_, _, heq⟩
  · rw [heq]
  · rw [heq]

theorem pageEntry_freeFrame (m : Mmu) (frame : BitVec 32) (page : BitVec 20) :
    pageEntry (mmuFreeFrame m frame) da page = pageEntry m da page := by
  rcases mmuFreeFrame_cases m frame with heq | ⟨_, _, heq⟩
  · rw [heq]
  · rw [heq]
    rfl

theorem edited (h : Tabled m da d) (hon : (d (dirIndex (pageOf v))).present = true)
    (ht : m.tables (tablePointer (d (dirIndex (pageOf v)))) = some t) {e : PageTableEntry}
    (he : e = edit (t (tabIndex (pageOf v)))) (page : BitVec 20) :
    pageEntry (mmuFlushTlbSingle (writeTableEntry m (tablePointer (d (dirIndex (pageOf v)))) t
        (tabIndex (pageOf v)) e) v) da page =
      if page = pageOf v then edit (pageEntry m da page) else pageEntry m da page := by
  have hflush : ∀ u : Mmu, pageEntry (mmuFlushTlbSingle u v) da page = pageEntry u da page :=
    fun _ => rfl
  rw [hflush, pageEntry_write h hon ht page]
  split
  · next heq => rw [heq, pageEntry_of_table h hon ht, he]
  · rfl

theorem unedited (hsame : edit (pageEntry m da (pageOf v)) = pageEntry m da (pageOf v))
    (page : BitVec 20) :
    pageEntry m da page = if page = pageOf v then edit (pageEntry m da page) else pageEntry m da page := by
  split
  · next heq => rw [heq, hsame]
  · rfl

theorem mmuUnmapPage_spec (h : Tabled m da d) (v : BitVec 32) :
    ∃ m', mmuUnmapPage m (some da) v = .ok (0, m') ∧ Tabled m' da d ∧
      (∀ page, pageEntry m' da page =
        if page = pageOf v then unmapEntry (pageEntry m da page) else pageEntry m da page) ∧
      m'.gFrameAllocator = if (pageEntry m da (pageOf v)).present then
        (mmuFreeFrame m ((pageEntry m da (pageOf v)).frame.setWidth 32)).gFrameAllocator
      else m.gFrameAllocator := by
  cases hon : (d (dirIndex (pageOf v))).present with
  | false =>
    have hentry := pageEntry_of_absent h hon
    refine ⟨m, ?_, h, unedited (by rw [hentry]; rfl), by rw [hentry]; rfl⟩
    simp only [mmuUnmapPage, readDirectory, h.found, pdIndex_eq, hon, bind, Except.bind]
    rfl
  | true =>
    obtain ⟨t, ht⟩ := h.held _ hon
    have hentry := pageEntry_of_table h hon ht
    cases hpresent : (t (tabIndex (pageOf v))).present with
    | false =>
      have hsame : unmapEntry (t (tabIndex (pageOf v))) = t (tabIndex (pageOf v)) :=
        if_neg (Bool.eq_false_iff.mp hpresent)
      refine ⟨m, ?_, h, unedited (by rw [hentry, hsame]), by rw [hentry, hpresent]; rfl⟩
      simp only [mmuUnmapPage, readDirectory, readTable, h.found, pdIndex_eq, ptIndex_eq, hon, ht,
        hpresent, bind, Except.bind]
      rfl
    | true =>
      have hclear : clearTableEntry = unmapEntry (t (tabIndex (pageOf v))) := (if_pos hpresent).symm
      have hfreed := tabled_freeFrame h ((t (tabIndex (pageOf v))).frame.setWidth 32)
      have hheld := ht
      rw [← tables_freeFrame m ((t (tabIndex (pageOf v))).frame.setWidth 32)] at hheld
      have hedited := edited hfreed hon hheld hclear
      simp only [pageEntry_freeFrame] at hedited
      refine ⟨_, ?_, tabled_flush (tabled_write hfreed) v, hedited, by rw [hentry, hpresent]; rfl⟩
      simp only [mmuUnmapPage, readDirectory, readTable, h.found, pdIndex_eq, ptIndex_eq, hon, ht,
        hpresent, bind, Except.bind]
      rfl

theorem unmapPage_edits : Edits (fun m v => mmuUnmapPage m (some da) v) unmapEntry da d := by
  intro m v h
  obtain ⟨m', hcall, h', hentries, _⟩ := mmuUnmapPage_spec h v
  exact ⟨0, m', hcall, h', hentries⟩

variable (flags) in
theorem setPageFlags_edits :
    Edits (fun m v => mmuSetPageFlags m (some da) v flags) (protectEntry flags) da d := by
  intro m v h
  cases hon : (d (dirIndex (pageOf v))).present with
  | false =>
    have hentry := pageEntry_of_absent h hon
    refine ⟨-1, m, ?_, h, unedited (by rw [hentry]; rfl)⟩
    simp only [mmuSetPageFlags, readDirectory, h.found, pdIndex_eq, hon, bind, Except.bind]
    rfl
  | true =>
    obtain ⟨t, ht⟩ := h.held _ hon
    have hentry := pageEntry_of_table h hon ht
    cases hpresent : (t (tabIndex (pageOf v))).present with
    | false =>
      have hsame : protectEntry flags (t (tabIndex (pageOf v))) = t (tabIndex (pageOf v)) :=
        if_neg (Bool.eq_false_iff.mp hpresent)
      refine ⟨-1, m, ?_, h, unedited (by rw [hentry, hsame])⟩
      simp only [mmuSetPageFlags, readDirectory, readTable, h.found, pdIndex_eq, ptIndex_eq, hon, ht,
        hpresent, bind, Except.bind]
      rfl
    | true =>
      have hflagged : { t (tabIndex (pageOf v)) with
          writable := flags &&& pageWritable != 0
          userMode := flags &&& pageUser != 0 } = protectEntry flags (t (tabIndex (pageOf v))) :=
        (if_pos hpresent).symm
      refine ⟨0, _, ?_, tabled_flush (tabled_write h) v, edited h hon ht hflagged⟩
      simp only [mmuSetPageFlags, readDirectory, readTable, h.found, pdIndex_eq, ptIndex_eq, hon, ht,
        hpresent, bind, Except.bind]
      rfl

end Calls

section Loop

variable {fuel n : Nat}

theorem pageLoop_more (h : pageLoop call endAddr n m v = .ok (some m')) (hle : n ≤ fuel) :
    pageLoop call endAddr fuel m v = .ok (some m') := by
  induction n generalizing fuel m v with
  | zero => cases Except.ok.inj h
  | succ n ih =>
    obtain ⟨k, rfl⟩ : ∃ k, fuel = k + 1 := ⟨fuel - 1, by omega⟩
    rw [pageLoop] at h ⊢
    split
    · next hlt =>
      rw [if_pos hlt] at h
      obtain ⟨⟨r, m₁⟩, hcall, hrest⟩ := Outcome.bind_eq_ok.mp h
      exact Outcome.bind_eq_ok.mpr ⟨_, hcall, ih hrest (by omega)⟩
    · next hge =>
      rw [if_neg hge] at h
      exact h

theorem pageLoop_exact (hcall : Edits call edit da d) (h : Tabled m da d) (hn : n ≤ 2 ^ 20)
    (hends : turns endAddr n page < n) :
    ∃ m', pageLoop call endAddr n m (widened page) = .ok (some m') ∧ Tabled m' da d ∧
      ∀ other, pageEntry m' da other =
        if (other - page).toNat < turns endAddr n page then edit (pageEntry m da other)
        else pageEntry m da other := by
  induction n generalizing m page with
  | zero => exact absurd hends (Nat.not_lt_zero _)
  | succ n ih =>
    rw [pageLoop]
    rw [turns] at hends ⊢
    split
    · next hlt =>
      rw [if_pos hlt] at hends
      obtain ⟨r, m₁, hone, h₁, hentry⟩ := hcall m (widened page) h
      obtain ⟨m', hrest, h', hall⟩ := ih h₁ (by omega) (Nat.lt_of_succ_lt_succ hends)
      refine ⟨m', Outcome.bind_eq_ok.mpr ⟨_, hone, ?_⟩, h', fun other => ?_⟩
      · rw [widened_succ]
        exact hrest
      · have hle := turns_le endAddr n (page + 1)
        rw [hall, hentry, pageOf_widened]
        rcases eq_or_ne other page with rfl | hne
        · have hself : (other - (other + 1)).toNat = 2 ^ 20 - 1 := by bv_omega
          have hfirst : (other - other).toNat < turns endAddr n (other + 1) + 1 := by
            rw [BitVec.sub_self]
            exact Nat.succ_pos _
          rw [if_neg (by omega), if_pos rfl, if_pos hfirst]
        · have hiff : (other - (page + 1)).toNat < turns endAddr n (page + 1) ↔
              (other - page).toNat < turns endAddr n (page + 1) + 1 := by
            rw [← toNat_sub_succ hne]
            exact Nat.succ_lt_succ_iff.symm
          simp only [if_neg hne, hiff]
    · exact ⟨m, rfl, h, fun other => (if_neg (Nat.not_lt_zero _)).symm⟩

end Loop

section Range

def Meets (vs size : BitVec 32) (page : BitVec 20) : Prop :=
  ∃ u, pageOf u = page ∧ vs.toNat ≤ u.toNat ∧ u.toNat < vs.toNat + size.toNat

theorem toNat_pageAlignUp (addr : BitVec 32) :
    (pageAlignUp addr).toNat = (addr.toNat + 4095) % 2 ^ 32 / 4096 * 4096 := by
  have hdown : pageAlignUp addr = pageAlignDown (addr + 0xFFF) := rfl
  have hmore : (0xFFF : BitVec 32).toNat = 4095 := rfl
  rw [hdown, pageAlignDown_eq, toNat_widened, toNat_pageOf, BitVec.toNat_add, hmore]

theorem meets_iff (hpos : 1 ≤ size.toNat) (hv : vs.toNat + size.toNat ≤ 2 ^ 32) :
    Meets vs size page ↔ (page - pageOf vs).toNat < pagesTouched vs size := by
  constructor
  · rintro ⟨u, rfl, hlow, hhigh⟩
    obtain ⟨hdist, hlt⟩ := page_in_range hlow hhigh
    rw [hdist]
    exact hlt
  · intro hlt
    by_contra hnone
    refine page_outside hpos hv (fun u hu => ?_) hlt
    by_contra hin
    rw [not_or] at hin
    exact hnone ⟨u, hu, by omega, by omega⟩

theorem turns_range (hpos : 1 ≤ size.toNat) (hfits : vs.toNat + size.toNat ≤ 0xFFFFF000) :
    turns (pageAlignUp (vs + size)) (2 ^ 20) (pageOf vs) = pagesTouched vs size ∧
      pagesTouched vs size < 2 ^ 20 := by
  have hend : (pageAlignUp (vs + size)).toNat = (vs.toNat + size.toNat + 4095) / 4096 * 4096 := by
    rw [toNat_pageAlignUp, BitVec.toNat_add]
    omega
  rw [turns_of_low (by omega), toNat_pageOf, hend, pagesTouched]
  omega

theorem turns_wrapped (hhigh : 0xFFFFF000 < vs.toNat + size.toNat)
    (hv : vs.toNat + size.toNat ≤ 2 ^ 32) (n : Nat) (page : BitVec 20) :
    turns (pageAlignUp (vs + size)) n page = 0 := by
  have hend : (pageAlignUp (vs + size)).toNat = 0 := by
    rw [toNat_pageAlignUp, BitVec.toNat_add]
    omega
  rw [turns_of_low (by omega), hend]
  omega

def Reached (vs size : BitVec 32) (page : BitVec 20) : Prop :=
  vs.toNat + size.toNat ≤ 0xFFFFF000 ∧ Meets vs size page

theorem pageLoop_range (hcall : Edits call edit da d) (h : Tabled m da d) (hpos : 1 ≤ size.toNat)
    (hv : vs.toNat + size.toNat ≤ 2 ^ 32) :
    ∃ m', (∀ fuel ≥ 2 ^ 20, pageLoop call (pageAlignUp (vs + size)) fuel m (pageAlignDown vs) =
        .ok (some m')) ∧
      (∀ page, Reached vs size page → pageEntry m' da page = edit (pageEntry m da page)) ∧
      ∀ page, ¬ Reached vs size page → pageEntry m' da page = pageEntry m da page := by
  have hwalked : ∀ page, (page - pageOf vs).toNat <
      turns (pageAlignUp (vs + size)) (2 ^ 20) (pageOf vs) ↔ Reached vs size page := by
    intro page
    rcases Nat.lt_or_ge 0xFFFFF000 (vs.toNat + size.toNat) with hhigh | hlow
    · rw [turns_wrapped hhigh hv]
      exact ⟨fun h => absurd h (Nat.not_lt_zero _), fun h => absurd h.1 (Nat.not_le.mpr hhigh)⟩
    · rw [(turns_range hpos hlow).1, ← meets_iff hpos hv]
      exact ⟨fun hmeets => ⟨hlow, hmeets⟩, fun h => h.2⟩
  have hends : turns (pageAlignUp (vs + size)) (2 ^ 20) (pageOf vs) < 2 ^ 20 := by
    rcases Nat.lt_or_ge 0xFFFFF000 (vs.toNat + size.toNat) with hhigh | hlow
    · rw [turns_wrapped hhigh hv]
      exact Nat.two_pow_pos 20
    · rw [(turns_range hpos hlow).1]
      exact (turns_range hpos hlow).2
  obtain ⟨m', hrun, _, hentries⟩ := pageLoop_exact hcall h (Nat.le_refl _) hends
  rw [← pageAlignDown_eq] at hrun
  refine ⟨m', fun fuel hfuel => pageLoop_more hrun hfuel, fun page hin => ?_, fun page hout => ?_⟩
  · rw [hentries, if_pos ((hwalked page).mpr hin)]
  · rw [hentries, if_neg fun hlt => hout ((hwalked page).mp hlt)]

end Range

structure RangeUnmapped (m m' : Mmu) (dir : Address) (vs size : BitVec 32) : Prop where
  reached : ∀ page, Meets vs size page → (pageEntry m' dir page).present = false
  others : ∀ page, ¬ Meets vs size page → pageEntry m' dir page = pageEntry m dir page

structure RangeProtected (m m' : Mmu) (dir : Address) (vs size flags : BitVec 32) : Prop where
  reached : ∀ page, Meets vs size page → (pageEntry m dir page).present = true →
    (pageEntry m' dir page).present = true ∧
      (pageEntry m' dir page).writable = (flags &&& pageWritable != 0) ∧
      (pageEntry m' dir page).userMode = (flags &&& pageUser != 0)
  others : ∀ page, ¬ Meets vs size page → pageEntry m' dir page = pageEntry m dir page

section Results

theorem unmapEntry_absent (e : PageTableEntry) : (unmapEntry e).present = false := by
  unfold unmapEntry
  split
  · rfl
  · next hoff => exact Bool.eq_false_iff.mpr hoff

variable (vs size) in
theorem unmap_range_total (h : Tabled m da d) (hpos : 1 ≤ size.toNat)
    (hv : vs.toNat + size.toNat ≤ 2 ^ 32) :
    ∃ m', (∀ fuel ≥ 2 ^ 20, mmuUnmapRange fuel m (some da) vs size = .ok (some m')) ∧
      (RangeUnmapped m m' da vs size ↔ vs.toNat + size.toNat ≤ 0xFFFFF000 ∨
        ∀ page, Meets vs size page → (pageEntry m da page).present = false) := by
  obtain ⟨m', hrun, hreached, hothers⟩ := pageLoop_range unmapPage_edits h hpos hv
  refine ⟨m', hrun, fun hunmapped => ?_, fun hwhen => ⟨fun page hmeets => ?_, fun page hout => ?_⟩⟩
  · refine or_iff_not_imp_left.mpr fun hhigh page hmeets => ?_
    rw [← hothers page fun hin => hhigh hin.1]
    exact hunmapped.reached page hmeets
  · rcases hwhen with hlow | hempty
    · rw [hreached page ⟨hlow, hmeets⟩]
      exact unmapEntry_absent _
    · by_cases hin : Reached vs size page
      · rw [hreached page hin]
        exact unmapEntry_absent _
      · rw [hothers page hin]
        exact hempty page hmeets
  · exact hothers page fun hin => hout hin.2

variable (flags) in
theorem protect_range_total (h : Tabled m da d) (hpos : 1 ≤ size.toNat)
    (hv : vs.toNat + size.toNat ≤ 2 ^ 32) :
    ∃ m', (∀ fuel ≥ 2 ^ 20, mmuProtectRange fuel m (some da) vs size flags = .ok (some m')) ∧
      (RangeProtected m m' da vs size flags ↔ vs.toNat + size.toNat ≤ 0xFFFFF000 ∨
        ∀ page, Meets vs size page → (pageEntry m da page).present = true →
          (pageEntry m da page).writable = (flags &&& pageWritable != 0) ∧
            (pageEntry m da page).userMode = (flags &&& pageUser != 0)) := by
  obtain ⟨m', hrun, hreached, hothers⟩ := pageLoop_range (setPageFlags_edits flags) h hpos hv
  refine ⟨m', hrun, fun hprotected => ?_, fun hwhen => ⟨fun page hmeets hon => ?_, fun page hout => ?_⟩⟩
  · refine or_iff_not_imp_left.mpr fun hhigh page hmeets hon => ?_
    have hafter := (hprotected.reached page hmeets hon).2
    rwa [hothers page fun hin => hhigh hin.1] at hafter
  · by_cases hin : Reached vs size page
    · have hentry : protectEntry flags (pageEntry m da page) = _ := if_pos hon
      rw [hreached page hin, hentry]
      exact ⟨hon, rfl, rfl⟩
    · rw [hothers page hin]
      rcases hwhen with hlow | halready
      · exact absurd ⟨hlow, hmeets⟩ hin
      · exact ⟨hon, halready page hmeets hon⟩
  · exact hothers page fun hin => hout hin.2

theorem range_calls_iff (h : Tabled m da d) (hpos : 1 ≤ size.toNat)
    (hv : vs.toNat + size.toNat ≤ 2 ^ 32) :
    ∃ m₁ m₂, (∀ fuel ≥ 2 ^ 20, mmuUnmapRange fuel m (some da) vs size = .ok (some m₁)) ∧
      (∀ fuel ≥ 2 ^ 20, mmuProtectRange fuel m (some da) vs size flags = .ok (some m₂)) ∧
      (RangeUnmapped m m₁ da vs size ∧ RangeProtected m m₂ da vs size flags ↔
        vs.toNat + size.toNat ≤ 0xFFFFF000 ∨
          ∀ page, Meets vs size page → (pageEntry m da page).present = false) := by
  obtain ⟨m₁, hunmap, hunmapped⟩ := unmap_range_total vs size h hpos hv
  obtain ⟨m₂, hprotect, hprotected⟩ := protect_range_total flags h hpos hv
  refine ⟨m₁, m₂, hunmap, hprotect, ?_⟩
  rw [hunmapped, hprotected]
  constructor
  · exact fun hboth => hboth.1
  · rintro (hlow | hempty)
    · exact ⟨.inl hlow, .inl hlow⟩
    · refine ⟨.inr hempty, .inr fun page hmeets hon => ?_⟩
      rw [hempty page hmeets] at hon
      cases hon

theorem range_calls_iff_one :
    ∃ m₁ m₂, (∀ fuel ≥ 2 ^ 20, mmuUnmapRange fuel oneDirectory (some 0x10000) 0x5001 0x1000 =
        .ok (some m₁)) ∧
      (∀ fuel ≥ 2 ^ 20, mmuProtectRange fuel oneDirectory (some 0x10000) 0x5001 0x1000 pageUser =
        .ok (some m₂)) ∧
      (RangeUnmapped oneDirectory m₁ 0x10000 0x5001 0x1000 ∧
          RangeProtected oneDirectory m₂ 0x10000 0x5001 0x1000 pageUser ↔
        (0x5001 : BitVec 32).toNat + (0x1000 : BitVec 32).toNat ≤ 0xFFFFF000 ∨
          ∀ page, Meets 0x5001 0x1000 page → (pageEntry oneDirectory 0x10000 page).present = false) :=
  range_calls_iff tabled_oneDirectory (by decide) (by decide)

def topMapped : Mmu :=
  ((mmuMapPage (some 0x20000) oneDirectory (some 0x10000) 0xFFFFF000 0x5000
    (pagePresent ||| pageWritable)).toOption.map Prod.snd).getD oneDirectory

theorem tabled_topMapped : ∃ d, Tabled topMapped 0x10000 d := by
  have hcall : mmuMapPage (some 0x20000) oneDirectory (some 0x10000) 0xFFFFF000 0x5000
      (pagePresent ||| pageWritable) = .ok (0, topMapped) := rfl
  exact (mmuMapPage_exact tabled_oneDirectory spare_answer hcall).1

theorem top_page_skipped :
    ¬ ∀ (m : Mmu) (dir : Address) (d : PageDirectory) (vs size flags : BitVec 32), Tabled m dir d →
      1 ≤ size.toNat → vs.toNat + size.toNat ≤ 2 ^ 32 →
      ∃ m₁ m₂, (∀ fuel ≥ 2 ^ 20, mmuUnmapRange fuel m (some dir) vs size = .ok (some m₁)) ∧
        (∀ fuel ≥ 2 ^ 20, mmuProtectRange fuel m (some dir) vs size flags = .ok (some m₂)) ∧
        RangeUnmapped m m₁ dir vs size ∧ RangeProtected m m₂ dir vs size flags := by
  intro hall
  obtain ⟨d, h⟩ := tabled_topMapped
  obtain ⟨m₁, m₂, hunmap, _, hunmapped, _⟩ := hall topMapped 0x10000 d 0xFFFFF000 0x1000 pageUser h
    (by decide) (by decide)
  obtain ⟨m', hrun, hiff⟩ := unmap_range_total 0xFFFFF000 0x1000 h (by decide) (by decide)
  have hsame := (hunmap _ (Nat.le_refl _)).symm.trans (hrun _ (Nat.le_refl _))
  obtain rfl := Option.some.inj (Except.ok.inj hsame)
  rcases hiff.mp hunmapped with hlow | hempty
  · exact absurd hlow (by decide)
  · have hgone := hempty (pageOf 0xFFFFF000) ⟨0xFFFFF000, rfl, by decide, by decide⟩
    exact absurd hgone (by decide +kernel)

end Results

end ZoraVM.Kernel

import ZoraVM.Kernel.RangeMapping

namespace ZoraVM.Kernel

open Foundation

section Model

variable (m : Mmu) (dir : Option Address) (virtualAddr : BitVec 32)

def mmuIsMapped : Outcome Bool := do
  let physicalAddr ← mmuVirtualToPhysical m dir virtualAddr
  .ok (physicalAddr != 0xFFFFFFFF)

def entryFlags (e : PageTableEntry) : BitVec 32 :=
  (if e.present then pagePresent else 0) ||| (if e.writable then pageWritable else 0) |||
    (if e.userMode then pageUser else 0)

def mmuGetPageFlags : Outcome (BitVec 32) :=
  match dir with
  | none => .ok 0
  | some dir => do
    let d ← readDirectory m dir
    if !(d (pdIndex virtualAddr)).present then .ok 0
    else
      let t ← readTable m (tablePointer (d (pdIndex virtualAddr)))
      let entry := t (ptIndex virtualAddr)
      if !entry.present then .ok 0
      else .ok (entryFlags entry)

end Model

variable {m m' : Mmu} {allocated : Option Address} {da : Address} {d : PageDirectory}
  {u v p flags : BitVec 32} {page : BitVec 20} {t : PageTable}

section Lookups

theorem pageEntry_of_table (h : Tabled m da d) (hon : (d (dirIndex page)).present = true)
    (ht : m.tables (tablePointer (d (dirIndex page))) = some t) :
    pageEntry m da page = t (tabIndex page) := by
  rw [pageEntry, tableFor_of_present h hon, ht, Option.getD_some]

theorem pageEntry_of_absent (h : Tabled m da d) (hoff : (d (dirIndex page)).present = false) :
    pageEntry m da page = clearTableEntry := by
  rw [pageEntry, tableFor_of_absent h hoff, Option.getD_none]

-- What both lookups do: follow the directory and its table to the entry of the page.
def walkEntry {α : Type} (m : Mmu) (da : Address) (u : BitVec 32) (absent : α)
    (found : PageTableEntry → α) : Outcome α := do
  let d ← readDirectory m da
  if !(d (pdIndex u)).present then .ok absent
  else
    let t ← readTable m (tablePointer (d (pdIndex u)))
    if !(t (ptIndex u)).present then .ok absent else .ok (found (t (ptIndex u)))

theorem walkEntry_eq {α : Type} (h : Tabled m da d) (u : BitVec 32) (absent : α)
    (found : PageTableEntry → α) :
    walkEntry m da u absent found =
      .ok (if (pageEntry m da (pageOf u)).present then found (pageEntry m da (pageOf u)) else absent) := by
  cases hdir : (d (dirIndex (pageOf u))).present with
  | false =>
    rw [pageEntry_of_absent h hdir]
    simp only [walkEntry, readDirectory, h.found, pdIndex_eq, hdir, bind, Except.bind]
    rfl
  | true =>
    obtain ⟨t, ht⟩ := h.held _ hdir
    rw [pageEntry_of_table h hdir ht]
    simp only [walkEntry, readDirectory, readTable, h.found, pdIndex_eq, ptIndex_eq, hdir, ht, bind,
      Except.bind]
    cases (t (tabIndex (pageOf u))).present <;> rfl

theorem mmuVirtualToPhysical_eq (h : Tabled m da d) (u : BitVec 32) :
    mmuVirtualToPhysical m (some da) u =
      .ok (if (pageEntry m da (pageOf u)).present then
        widened (pageEntry m da (pageOf u)).frame ||| pageOffset u else 0xFFFFFFFF) :=
  walkEntry_eq h u 0xFFFFFFFF fun entry => widened entry.frame ||| pageOffset u

theorem mmuGetPageFlags_eq (h : Tabled m da d) (u : BitVec 32) :
    mmuGetPageFlags m (some da) u =
      .ok (if (pageEntry m da (pageOf u)).present then entryFlags (pageEntry m da (pageOf u))
        else 0) :=
  walkEntry_eq h u 0 entryFlags

theorem frame_or_offset (f : BitVec 20) (u : BitVec 32) :
    widened f ||| pageOffset u = widened f + pageOffset u := by
  have hf := f.isLt
  apply BitVec.eq_of_toNat_eq
  rw [toNat_frame_or_offset, BitVec.toNat_add, toNat_widened, toNat_pageOffset]
  omega

theorem keptBit (flags : BitVec 32) (i : Nat) :
    (if flags &&& BitVec.twoPow 32 i != 0 then BitVec.twoPow 32 i else 0) =
      flags &&& BitVec.twoPow 32 i := by
  split
  · next hset =>
    rw [BitVec.and_twoPow] at hset ⊢
    split
    · rfl
    · next hclear => simp [hclear] at hset
  · next hclear =>
    have hzero : flags &&& BitVec.twoPow 32 i = 0 := by simpa using hclear
    exact hzero.symm

theorem entryFlags_mapEntry (e : PageTableEntry) (p flags : BitVec 32) :
    entryFlags (mapEntry e p flags) =
      flags &&& (pagePresent ||| pageWritable ||| pageUser) := by
  rw [BitVec.and_or_distrib_left, BitVec.and_or_distrib_left]
  exact congrArg₂ (· ||| ·) (congrArg₂ (· ||| ·) (keptBit flags 0) (keptBit flags 1))
    (keptBit flags 2)

end Lookups

structure MappedExactly (m m' : Mmu) (dir : Address) (v p flags : BitVec 32) : Prop where
  mapped : ∀ u, pageOf u = pageOf v → mmuIsMapped m' (some dir) u = .ok true
  translated : ∀ u, pageOf u = pageOf v →
    mmuVirtualToPhysical m' (some dir) u = .ok (pageAlignDown p + pageOffset u)
  reported : mmuGetPageFlags m' (some dir) v =
    .ok (flags &&& (pagePresent ||| pageWritable ||| pageUser))
  others : ∀ u, pageOf u ≠ pageOf v →
    mmuVirtualToPhysical m' (some dir) u = mmuVirtualToPhysical m (some dir) u

section Mapped

def lastPage : BitVec 20 := 0xFFFFF

theorem toNat_pageAlignDown_add (p u : BitVec 32) :
    (pageAlignDown p + pageOffset u).toNat = (pageOf p).toNat * 4096 + u.toNat % 4096 := by
  rw [pageAlignDown_eq, ← frame_or_offset, toNat_frame_or_offset]

theorem sentinel_iff (p u : BitVec 32) :
    pageAlignDown p + pageOffset u = 0xFFFFFFFF ↔ pageOf p = lastPage ∧ u.toNat % 4096 = 4095 := by
  have hsentinel : (0xFFFFFFFF : BitVec 32).toNat = 4294967295 := rfl
  have hlast : lastPage.toNat = 1048575 := rfl
  have hpage := (pageOf p).isLt
  rw [← BitVec.toNat_inj, ← BitVec.toNat_inj, toNat_pageAlignDown_add, hsentinel, hlast]
  omega

theorem mmuIsMapped_eq {q : BitVec 32} (h : mmuVirtualToPhysical m (some da) u = .ok q) :
    mmuIsMapped m (some da) u = .ok (q != 0xFFFFFFFF) := by
  rw [mmuIsMapped, h]
  rfl

theorem exists_last_byte (page : BitVec 20) :
    ∃ u, pageOf u = page ∧ u.toNat % 4096 = 4095 := by
  have hpage := page.isLt
  have hnat : (BitVec.ofNat 32 (page.toNat * 4096 + 4095)).toNat = page.toNat * 4096 + 4095 := by
    rw [BitVec.toNat_ofNat]
    omega
  refine ⟨BitVec.ofNat 32 (page.toNat * 4096 + 4095), ?_, ?_⟩
  · apply BitVec.eq_of_toNat_eq
    rw [toNat_pageOf, hnat]
    omega
  · rw [hnat]
    omega

variable (h : Tabled m da d) (hanswer : ∀ a, allocated = some a → FitsEntry a ∧ m.tables a = none)
  (hflags : flags &&& pagePresent ≠ 0)
  (hcall : mmuMapPage allocated m (some da) v p flags = .ok (0, m'))

include h hanswer hflags hcall

theorem translated_of_map (hu : pageOf u = pageOf v) :
    mmuVirtualToPhysical m' (some da) u = .ok (pageAlignDown p + pageOffset u) := by
  obtain ⟨⟨d', h'⟩, hentries⟩ := mmuMapPage_exact h hanswer hcall
  have hon : (mapEntry (pageEntry m da (pageOf u)) p flags).present = true := bne_iff_ne.mpr hflags
  have hframe : (mapEntry (pageEntry m da (pageOf u)) p flags).frame = pageOf p := rfl
  rw [mmuVirtualToPhysical_eq h', hentries, if_pos hu, if_pos hon, hframe, frame_or_offset,
    pageAlignDown_eq]

theorem page_mapped_iff : MappedExactly m m' da v p flags ↔ pageOf p ≠ lastPage := by
  constructor
  · intro hexact hlast
    obtain ⟨u, hu, hbyte⟩ := exists_last_byte (pageOf v)
    have hmapped := hexact.mapped u hu
    rw [mmuIsMapped_eq (hexact.translated u hu), (sentinel_iff p u).mpr ⟨hlast, hbyte⟩] at hmapped
    cases hmapped
  · intro hinside
    obtain ⟨⟨d', h'⟩, hentries⟩ := mmuMapPage_exact h hanswer hcall
    have htranslated := fun u hu => translated_of_map (u := u) h hanswer hflags hcall hu
    refine ⟨fun u hu => ?_, htranslated, ?_, fun u hu => ?_⟩
    · have hnot : pageAlignDown p + pageOffset u ≠ 0xFFFFFFFF :=
        fun heq => hinside ((sentinel_iff p u).mp heq).1
      rw [mmuIsMapped_eq (htranslated u hu), bne_iff_ne.mpr hnot]
    · have hon : (mapEntry (pageEntry m da (pageOf v)) p flags).present = true :=
        bne_iff_ne.mpr hflags
      rw [mmuGetPageFlags_eq h', hentries, if_pos rfl, if_pos hon, entryFlags_mapEntry]
    · rw [mmuVirtualToPhysical_eq h', mmuVirtualToPhysical_eq h, hentries, if_neg hu]

end Mapped

section Results

theorem tabled_oneDirectory : Tabled oneDirectory 0x10000 fun _ => clearDirectoryEntry :=
  ⟨rfl, fun _ hi => Bool.noConfusion hi, fun _ _ hi => Bool.noConfusion hi⟩

theorem spare_answer : ∀ a, some (0x20000 : Address) = some a →
    FitsEntry a ∧ oneDirectory.tables a = none := by
  rintro a ha
  obtain rfl := Option.some.inj ha
  exact ⟨⟨rfl, .inl (by decide)⟩, rfl⟩

theorem page_mapped_iff_one :
    ∃ m', mmuMapPage (some 0x20000) oneDirectory (some 0x10000) 0x400000 0x5000 pagePresent =
        .ok (0, m') ∧
      (MappedExactly oneDirectory m' 0x10000 0x400000 0x5000 pagePresent ↔
        pageOf 0x5000 ≠ lastPage) :=
  ⟨_, rfl, page_mapped_iff tabled_oneDirectory spare_answer (by decide) rfl⟩

theorem last_byte_not_mapped :
    ¬ ∀ (allocated : Option Address) (m m' : Mmu) (dir : Address) (d : PageDirectory)
      (v p flags : BitVec 32), Tabled m dir d →
      (∀ a, allocated = some a → FitsEntry a ∧ m.tables a = none) → flags &&& pagePresent ≠ 0 →
      mmuMapPage allocated m (some dir) v p flags = .ok (0, m') →
      MappedExactly m m' dir v p flags := by
  intro hall
  have hexact := hall (some 0x20000) oneDirectory _ 0x10000 _ 0x400000 0xFFFFF000 pagePresent
    tabled_oneDirectory spare_answer (by decide) rfl
  have hmapped := hexact.mapped 0x400FFF (by decide)
  rw [mmuIsMapped_eq (hexact.translated 0x400FFF (by decide))] at hmapped
  exact absurd hmapped (by decide)

end Results

end ZoraVM.Kernel

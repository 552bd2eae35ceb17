import ZoraVM.Kernel.Frames
import ZoraVM.Kernel.RangeMapping

namespace ZoraVM.Kernel

open Foundation

def Maps (m : Mmu) (dir : Address) (page : BitVec 20) (f : Nat) : Prop :=
  (pageEntry m dir page).present = true ∧ (pageEntry m dir page).frame.toNat = f

section Discipline

variable (m : Mmu)

-- What the callers keep to: a frame of the machine is mapped only while it is allocated and at one
-- address at a time, and it is freed only when nothing maps it. A new directory is memory of its own.
def Asked : MmuCall → Prop
  | .allocFrame => True
  | .freeFrame frame => ∀ dir page, ¬ Maps m dir page frame.toNat
  | .mapPage _ dir v physicalAddr flags =>
    flags &&& pagePresent ≠ 0 → totalFrames ≤ (pageOf physicalAddr).toNat ∨
      (frameTaken m.gFrameAllocator (pageOf physicalAddr).toNat = true ∧
        ∀ dir' page, Maps m dir' page (pageOf physicalAddr).toNat →
          dir = some dir' ∧ page = pageOf v)
  | .unmapPage _ _ => True
  | .createPageDirectory allocated => ∀ a, allocated = some a → m.directories a = none
  | .destroyPageDirectory _ => True

def LowestFree (f : Nat) : Prop :=
  f < totalFrames ∧ frameTaken m.gFrameAllocator f = false ∧
    ∀ f' < f, frameTaken m.gFrameAllocator f' = true

def LowestUnmapped (kernel : Address) : Prop :=
  ∀ f, LowestFree m f → ¬ Maps m kernel (BitVec.ofNat 20 f) f

end Discipline

section Slots

def Shown (m : Mmu) (table : Address) : Prop :=
  ∃ dir d i, m.directories dir = some d ∧ (d i).present = true ∧ tablePointer (d i) = table

def Holds (m : Mmu) (table : Address) (j : BitVec 10) (f : Nat) : Prop :=
  Shown m table ∧ ∃ t, m.tables table = some t ∧ (t j).present = true ∧ (t j).frame.toNat = f

def AtIdentity (m : Mmu) (kernel table : Address) (j : BitVec 10) (f : Nat) : Prop :=
  ∃ d, m.directories kernel = some d ∧ (d (dirIndex (BitVec.ofNat 20 f))).present = true ∧
    tablePointer (d (dirIndex (BitVec.ofNat 20 f))) = table ∧ j = tabIndex (BitVec.ofNat 20 f)

structure Owned (m : Mmu) (p : Pool totalFrames) (kernel : Address) : Prop where
  frames : Represents m.gFrameAllocator p
  shown : ∀ {table t} e, m.tables table = some t → tablePointer e = table → Shown m table
  taken : ∀ {table j f}, Holds m table j f →
    f ∈ p.taken ∨ totalFrames ≤ f ∨ AtIdentity m kernel table j f
  alone : ∀ {table other j k f}, f ∈ p.taken → Holds m table j f → Holds m other k f →
    table = other ∧ j = k

variable {m m₁ m' : Mmu} {p p' : Pool totalFrames} {kernel dir da a table : Address}
  {d : PageDirectory} {t : PageTable} {i j : BitVec 10} {page : BitVec 20} {f : Nat}
  {e : PageTableEntry}

theorem maps_iff : Maps m dir page f ↔ ∃ d t, m.directories dir = some d ∧
    (d (dirIndex page)).present = true ∧ m.tables (tablePointer (d (dirIndex page))) = some t ∧
    (t (tabIndex page)).present = true ∧ (t (tabIndex page)).frame.toNat = f := by
  constructor
  · rintro ⟨hon, hframe⟩
    unfold pageEntry tableFor at hon hframe
    cases hd : m.directories dir with
    | none =>
      rw [hd] at hon
      cases hon
    | some d =>
      rw [hd, Option.bind_some] at hon hframe
      cases hi : (d (dirIndex page)).present with
      | false =>
        rw [hi, if_neg Bool.false_ne_true] at hon
        cases hon
      | true =>
        rw [hi, if_pos rfl] at hon hframe
        cases ht : m.tables (tablePointer (d (dirIndex page))) with
        | none =>
          rw [ht] at hon
          cases hon
        | some t =>
          rw [ht, Option.getD_some] at hon hframe
          exact ⟨d, t, rfl, hi, ht, hon, hframe⟩
  · rintro ⟨d, t, hd, hi, ht, hon, hframe⟩
    have hentry : pageEntry m dir page = t (tabIndex page) := by
      rw [pageEntry, tableFor, hd, Option.bind_some, if_pos hi, ht, Option.getD_some]
    rw [Maps, hentry]
    exact ⟨hon, hframe⟩

theorem exists_page (i j : BitVec 10) : ∃ page, dirIndex page = i ∧ tabIndex page = j := by
  have hi := i.isLt
  have hj := j.isLt
  have hpage : (BitVec.ofNat 20 (i.toNat * 1024 + j.toNat)).toNat = i.toNat * 1024 + j.toNat := by
    rw [BitVec.toNat_ofNat]
    omega
  refine ⟨BitVec.ofNat 20 (i.toNat * 1024 + j.toNat), ?_, ?_⟩
  · apply BitVec.eq_of_toNat_eq
    rw [toNat_dirIndex, hpage]
    omega
  · apply BitVec.eq_of_toNat_eq
    rw [toNat_tabIndex, hpage]
    omega

theorem Holds.maps (h : Holds m table j f) : ∃ dir page d, m.directories dir = some d ∧
    (d (dirIndex page)).present = true ∧ tablePointer (d (dirIndex page)) = table ∧
    tabIndex page = j ∧ Maps m dir page f := by
  obtain ⟨⟨dir, d, i, hd, hi, rfl⟩, t, ht, hon, hframe⟩ := h
  obtain ⟨page, rfl, rfl⟩ := exists_page i j
  exact ⟨dir, page, d, hd, hi, rfl, rfl, maps_iff.mpr ⟨d, t, hd, hi, ht, hon, hframe⟩⟩

theorem Maps.holds (h : Maps m dir page f) : ∃ table, Holds m table (tabIndex page) f := by
  obtain ⟨d, t, hd, hi, ht, hon, hframe⟩ := maps_iff.mp h
  exact ⟨_, ⟨dir, d, _, hd, hi, rfl⟩, t, ht, hon, hframe⟩

theorem AtIdentity.maps (h : AtIdentity m kernel table j f) (hholds : Holds m table j f) :
    Maps m kernel (BitVec.ofNat 20 f) f := by
  obtain ⟨d, hd, hi, rfl, rfl⟩ := h
  obtain ⟨_, t, ht, hon, hframe⟩ := hholds
  exact maps_iff.mpr ⟨d, t, hd, hi, ht, hon, hframe⟩

theorem encode_decode (e : PageDirectoryEntry) : tableAddrOf (tablePointer e) = e.tableAddr := by
  have hlt := e.tableAddr.isLt
  have hpointer : tablePointer e = (widened e.tableAddr).signExtend 64 := rfl
  apply BitVec.eq_of_toNat_eq
  rw [toNat_tableAddrOf, hpointer]
  rcases Nat.lt_or_ge e.tableAddr.toNat (2 ^ 19) with hlow | hhigh
  · rw [toNat_decode_of_low hlow]
    omega
  · rw [toNat_decode_of_high hhigh]
    omega

theorem pointer_withTable (e : PageDirectoryEntry) (d : PageDirectory) (i : BitVec 10) :
    tablePointer (withTable d i (tablePointer e) i) = tablePointer e := by
  have hpointer : ∀ x, tablePointer x = (widened x.tableAddr).signExtend 64 := fun _ => rfl
  have hfield : (withTable d i (tablePointer e) i).tableAddr = e.tableAddr := by
    rw [withTable, Function.update_self]
    exact encode_decode e
  rw [hpointer (withTable d i (tablePointer e) i), hfield, hpointer e]

theorem directories_newTable (m : Mmu) (da a : Address) (d : PageDirectory) (i : BitVec 10) :
    (newTable m da d i a).directories da = some (withTable d i a) := by
  simp only [newTable, Function.update_self]

theorem directories_newTable_of_ne (hne : dir ≠ da) :
    (newTable m da d i a).directories dir = m.directories dir := by
  simp only [newTable, Function.update_of_ne hne]

def KeepsEntries (m m' : Mmu) : Prop :=
  ∀ dir d i, m.directories dir = some d → (d i).present = true →
    ∃ d', m'.directories dir = some d' ∧ (d' i).present = true ∧
      tablePointer (d' i) = tablePointer (d i)

theorem KeepsEntries.refl (m : Mmu) : KeepsEntries m m := fun _ d _ hd hi => ⟨d, hd, hi, rfl⟩

theorem KeepsEntries.shown (hkeep : KeepsEntries m m') (h : Shown m table) : Shown m' table := by
  obtain ⟨dir, d, i, hd, hi, rfl⟩ := h
  obtain ⟨d', hd', hi', hpointer⟩ := hkeep dir d i hd hi
  exact ⟨dir, d', i, hd', hi', hpointer⟩

theorem KeepsEntries.atIdentity (hkeep : KeepsEntries m m') (h : AtIdentity m kernel table j f) :
    AtIdentity m' kernel table j f := by
  obtain ⟨d, hd, hi, rfl, hj⟩ := h
  obtain ⟨d', hd', hi', hpointer⟩ := hkeep kernel d _ hd hi
  exact ⟨d', hd', hi', hpointer, hj⟩

theorem keepsEntries_newTable (hd : m.directories da = some d) (hi : (d i).present = false) :
    KeepsEntries m (newTable m da d i a) := by
  intro dir d' j hd' hj
  rcases eq_or_ne dir da with rfl | hne
  · obtain rfl := Option.some.inj (hd.symm.trans hd')
    have hother : j ≠ i := by
      rintro rfl
      rw [hi] at hj
      cases hj
    have hsame : withTable d i a j = d j := withTable_of_ne hother
    exact ⟨_, directories_newTable m dir a d i, hsame ▸ hj, congrArg tablePointer hsame⟩
  · exact ⟨d', (directories_newTable_of_ne hne).trans hd', hj, rfl⟩

theorem holds_newTable (h : Owned m p kernel) (hholds : Holds (newTable m da d i a) table j f) :
    Holds m table j f := by
  obtain ⟨⟨_, d', k, _, _, hpointer⟩, t, ht, hon, hframe⟩ := hholds
  rcases eq_or_ne table a with rfl | hne
  · rw [tables_newTable] at ht
    obtain rfl := Option.some.inj ht
    cases hon
  · rw [tables_newTable_of_ne hne] at ht
    exact ⟨h.shown (d' k) ht hpointer, t, ht, hon, hframe⟩

theorem owned_newTable (h : Owned m p kernel) (hd : m.directories da = some d)
    (hi : (d i).present = false) : Owned (newTable m da d i a) p kernel := by
  have hkeep : KeepsEntries m (newTable m da d i a) := keepsEntries_newTable hd hi
  refine ⟨h.frames, fun {table t} e ht hpointer => ?_, fun hholds => ?_, fun hf h₁ h₂ => ?_⟩
  · rcases eq_or_ne table a with rfl | hne
    · subst hpointer
      refine ⟨da, _, i, directories_newTable m da _ d i, ?_, pointer_withTable e d i⟩
      rw [withTable, Function.update_self]
    · rw [tables_newTable_of_ne hne] at ht
      exact hkeep.shown (h.shown e ht hpointer)
  · rcases h.taken (holds_newTable h hholds) with hin | hbig | hat
    · exact .inl hin
    · exact .inr (.inl hbig)
    · exact .inr (.inr (hkeep.atIdentity hat))
  · exact h.alone hf (holds_newTable h h₁) (holds_newTable h h₂)

theorem holds_write (ht : m.tables table = some t)
    (hholds : Holds (writeTableEntry m table t i e) a j f) :
    (a = table ∧ j = i ∧ Shown m table ∧ e.present = true ∧ e.frame.toNat = f) ∨
      (¬ (a = table ∧ j = i) ∧ Holds m a j f) := by
  obtain ⟨hshown, t', ht', hon, hframe⟩ := hholds
  rcases eq_or_ne a table with rfl | hne
  · rw [tables_write] at ht'
    obtain rfl := Option.some.inj ht'
    rcases eq_or_ne j i with rfl | hj
    · rw [Function.update_self] at hon hframe
      exact .inl ⟨rfl, rfl, hshown, hon, hframe⟩
    · rw [Function.update_of_ne hj] at hon hframe
      exact .inr ⟨fun hsame => hj hsame.2, hshown, t, ht, hon, hframe⟩
  · rw [tables_write_of_ne hne] at ht'
    exact .inr ⟨fun hsame => hne hsame.1, hshown, t', ht', hon, hframe⟩

theorem owned_write (h : Owned m p kernel) (ht : m.tables table = some t)
    (hentry : Shown m table → e.present = true → e.frame.toNat ∈ p.taken ∨
      totalFrames ≤ e.frame.toNat ∨ AtIdentity m kernel table i e.frame.toNat)
    (halone : e.present = true → e.frame.toNat ∈ p.taken →
      ∀ other k, Holds m other k e.frame.toNat → other = table ∧ k = i) :
    Owned (writeTableEntry m table t i e) p kernel := by
  refine ⟨h.frames, fun {other t'} e' ht' hpointer => ?_, fun hholds => ?_, ?_⟩
  · rcases eq_or_ne other table with rfl | hne
    · exact h.shown e' ht hpointer
    · rw [tables_write_of_ne hne] at ht'
      exact h.shown e' ht' hpointer
  · rcases holds_write ht hholds with ⟨rfl, rfl, hshown, hon, rfl⟩ | ⟨_, hold⟩
    · exact hentry hshown hon
    · exact h.taken hold
  · intro other other' j k f hf h₁ h₂
    rcases holds_write ht h₁ with ⟨rfl, rfl, _, hon, rfl⟩ | ⟨hne₁, hold₁⟩
    · rcases holds_write ht h₂ with ⟨rfl, rfl, _⟩ | ⟨_, hold₂⟩
      · exact ⟨rfl, rfl⟩
      · obtain ⟨rfl, rfl⟩ := halone hon hf _ _ hold₂
        exact ⟨rfl, rfl⟩
    · rcases holds_write ht h₂ with ⟨rfl, rfl, _, hon, rfl⟩ | ⟨_, hold₂⟩
      · exact absurd (halone hon hf _ _ hold₁) hne₁
      · exact h.alone hf hold₁ hold₂

theorem owned_flush (h : Owned m p kernel) (v : BitVec 32) :
    Owned (mmuFlushTlbSingle m v) p kernel :=
  ⟨h.frames, h.shown, h.taken, h.alone⟩

theorem owned_frames {g : FrameAllocator} (h : Owned m p kernel) (hrep : Represents g p')
    (hsame : ∀ {table j f}, Holds m table j f → (f ∈ p'.taken ↔ f ∈ p.taken)) :
    Owned { m with gFrameAllocator := g } p' kernel := by
  refine ⟨hrep, h.shown, fun hholds => ?_, fun hf h₁ h₂ => ?_⟩
  · rcases h.taken hholds with hin | hrest
    · exact .inl ((hsame hholds).mpr hin)
    · exact .inr hrest
  · exact h.alone ((hsame h₁).mp hf) h₁ h₂

end Slots

section Steps

variable {m m₁ m' : Mmu} {p : Pool totalFrames} {kernel da a table : Address}
  {dir allocated found : Option Address} {d : PageDirectory} {t : PageTable} {i : BitVec 10}
  {v pa flags : BitVec 32} {r : Int} {f : Nat}

theorem lowestFree_of_lowest (h : Represents m.gFrameAllocator p) (hlow : p.Lowest f) :
    LowestFree m f := by
  obtain ⟨hlt, hfree, hbelow⟩ := hlow
  refine ⟨hlt, ?_, fun f' hf' => (h.taken f' (by omega)).mpr (hbelow f' hf')⟩
  rw [← Bool.not_eq_true, h.taken f hlt]
  exact hfree

theorem not_holds_lowest (h : Owned m p kernel) (hlow : p.Lowest f)
    (hunmapped : LowestUnmapped m kernel) (hholds : Holds m table i f) : False := by
  rcases h.taken hholds with hin | hbig | hat
  · exact hlow.2.1 hin
  · exact absurd hlow.1 (Nat.not_lt.mpr hbig)
  · exact hunmapped f (lowestFree_of_lowest h.frames hlow) (hat.maps hholds)

theorem owned_alloc (h : Owned m p kernel) (hunmapped : LowestUnmapped m kernel) :
    ∃ p', Owned (mmuAllocFrame m).2 p' kernel := by
  rcases mmuAllocFrame_cases h.frames with ⟨-, heq⟩ | ⟨f, hlow, heq⟩
  · rw [heq]
    exact ⟨p, h⟩
  · rw [heq]
    refine ⟨_, owned_frames h (represents_alloc h.frames hlow) fun {table j f'} hholds => ?_⟩
    have hne : f' ≠ f := by
      rintro rfl
      exact not_holds_lowest h hlow hunmapped hholds
    exact Finset.mem_insert.trans (or_iff_right hne)

theorem owned_free (h : Owned m p kernel) (frame : BitVec 32)
    (hunheld : frame.toNat ∈ p.taken → ∀ table j, ¬ Holds m table j frame.toNat) :
    ∃ p', Owned (mmuFreeFrame m frame) p' kernel := by
  rcases mmuFreeFrame_cases m frame with heq | ⟨hlt, halloc, heq⟩
  · rw [heq]
    exact ⟨p, h⟩
  · rw [heq]
    have hlt' : frame.toNat < totalFrames := by
      rw [← toNat_totalFrames h.frames]
      exact BitVec.lt_def.mp hlt
    have hin := (frameTaken_iff h.frames hlt').mp halloc
    refine ⟨_, owned_frames h (represents_free h.frames hlt' halloc) fun {table j f'} hholds => ?_⟩
    have hne : f' ≠ frame.toNat := by
      rintro rfl
      exact hunheld hin table j hholds
    exact Finset.mem_erase.trans (and_iff_right hne)

theorem owned_getOrCreate (h : Owned m p kernel)
    (hcreate : getOrCreatePageTable allocated m dir i = .ok (some table, m₁)) :
    Owned m₁ p kernel ∧ (∀ {other j f}, Holds m₁ other j f → Holds m other j f) ∧
      ∃ da d₁, dir = some da ∧ m₁.directories da = some d₁ ∧ (d₁ i).present = true ∧
        (∀ e, tablePointer e = table → tablePointer (d₁ i) = table) ∧
        ∀ d, m.directories da = some d → (d i).present = true → tablePointer (d i) = table := by
  rcases getOrCreatePageTable_cases hcreate with ⟨hf, _⟩ | ⟨da, d, table', rfl, hd, hf, hrest⟩
  · cases hf
  obtain rfl := Option.some.inj hf
  rcases hrest with ⟨hi, rfl, _, rfl⟩ | ⟨hi, _, rfl⟩
  · refine ⟨h, fun hholds => hholds, da, d, rfl, hd, hi, fun _ _ => rfl, fun d' hd' _ => ?_⟩
    obtain rfl := Option.some.inj (hd.symm.trans hd')
    rfl
  · refine ⟨owned_newTable h hd hi, holds_newTable h, da, _, rfl,
      directories_newTable m da table d i, ?_, ?_, fun d' hd' hi' => ?_⟩
    · rw [withTable, Function.update_self]
    · rintro e rfl
      exact pointer_withTable e d i
    · obtain rfl := Option.some.inj (hd.symm.trans hd')
      rw [hi] at hi'
      cases hi'

theorem owned_mapPage (h : Owned m p kernel)
    (hframe : flags &&& pagePresent ≠ 0 → totalFrames ≤ (pageOf pa).toNat ∨
      ((pageOf pa).toNat ∈ p.taken ∧ ∀ dir' page, Maps m dir' page (pageOf pa).toNat →
        dir = some dir' ∧ page = pageOf v) ∨
      ((pageOf pa).toNat ∉ p.taken ∧ dir = some kernel ∧ pageOf v = pageOf pa))
    (hcall : mmuMapPage allocated m dir v pa flags = .ok (r, m')) : Owned m' p kernel := by
  rcases mmuMapPage_cases hcall with ⟨_, rfl⟩ | ⟨table, m₁, t, hcreate, ht, _, rfl⟩
  · exact h
  obtain ⟨h₁, hback, da, d₁, hda, hd₁, hi, hpointer, hsame⟩ := owned_getOrCreate h hcreate
  have hpresent : (mapEntry (t (ptIndex v)) pa flags).present = true → flags &&& pagePresent ≠ 0 :=
    fun hon => bne_iff_ne.mp hon
  have hnumber : (mapEntry (t (ptIndex v)) pa flags).frame = pageOf pa := rfl
  rw [pdIndex_eq] at hi hpointer hsame
  refine owned_flush (owned_write h₁ ht (fun hshown hon => ?_) fun hon hin other k hholds => ?_) v
  · rw [hnumber]
    rcases hframe (hpresent hon) with hbig | ⟨hin, _⟩ | ⟨_, rfl, hpage⟩
    · exact .inr (.inl hbig)
    · exact .inl hin
    · obtain rfl := Option.some.inj hda
      obtain ⟨_, d', i', _, _, htable⟩ := hshown
      have hself : BitVec.ofNat 20 (pageOf pa).toNat = pageOf v := by
        rw [hpage, BitVec.ofNat_toNat, BitVec.setWidth_eq]
      refine .inr (.inr ⟨d₁, hd₁, ?_, ?_, ?_⟩)
      · rw [hself]
        exact hi
      · rw [hself]
        exact hpointer (d' i') htable
      · rw [hself, ptIndex_eq]
  · rw [hnumber] at hin hholds
    rcases hframe (hpresent hon) with hbig | ⟨_, honce⟩ | ⟨hfree, _⟩
    · exact absurd (p.bounded hin) (Nat.not_lt.mpr hbig)
    · obtain ⟨dir', page, d', hd', hi', rfl, rfl, hmaps⟩ := (hback hholds).maps
      obtain ⟨hdir, rfl⟩ := honce dir' page hmaps
      obtain rfl := Option.some.inj (hda.symm.trans hdir)
      exact ⟨hsame d' hd' hi', (ptIndex_eq v).symm⟩
    · exact absurd hin hfree

theorem mmuFreeFrame_write (m : Mmu) (frame : BitVec 32) (e : PageTableEntry) :
    mmuFreeFrame (writeTableEntry m table t i e) frame =
      writeTableEntry (mmuFreeFrame m frame) table t i e := by
  have hsame : (writeTableEntry m table t i e).gFrameAllocator = m.gFrameAllocator := rfl
  rw [mmuFreeFrame, mmuFreeFrame, hsame]
  split
  · rfl
  · split
    · rfl
    · rfl

theorem owned_unmapPage (h : Owned m p kernel) (hcall : mmuUnmapPage m dir v = .ok (r, m')) :
    ∃ p', Owned m' p' kernel := by
  rcases mmuUnmapPage_cases hcall with rfl | ⟨da, d, t, rfl, hd, hi, ht, hon, rfl⟩
  · exact ⟨p, h⟩
  have hcleared : Owned (writeTableEntry m (tablePointer (d (pdIndex v))) t (ptIndex v)
      clearTableEntry) p kernel :=
    owned_write h ht (fun _ hclear => Bool.noConfusion hclear) fun hclear => Bool.noConfusion hclear
  have hframe : ((t (ptIndex v)).frame.setWidth 32).toNat = (t (ptIndex v)).frame.toNat := by
    have hlt := (t (ptIndex v)).frame.isLt
    rw [BitVec.toNat_setWidth]
    omega
  have hheld : Holds m (tablePointer (d (pdIndex v))) (ptIndex v) (t (ptIndex v)).frame.toNat :=
    ⟨⟨da, d, _, hd, hi, rfl⟩, t, ht, hon, rfl⟩
  obtain ⟨p', h'⟩ := owned_free hcleared ((t (ptIndex v)).frame.setWidth 32) fun hin table j hholds => by
    rw [hframe] at hin hholds
    rcases holds_write ht hholds with ⟨_, _, _, hclear, _⟩ | ⟨hne, hold⟩
    · cases hclear
    · exact hne (h.alone hin hold hheld)
  rw [mmuFreeFrame_write] at h'
  exact ⟨p', owned_flush h' v⟩

theorem owned_createDirectory (h : Owned m p kernel)
    (hown : ∀ a, allocated = some a → m.directories a = none) :
    Owned (mmuCreatePageDirectory allocated m).2 p kernel := by
  cases allocated with
  | none => exact h
  | some a =>
    have hnone := hown a rfl
    have hother : ∀ dir, dir ≠ a → (mmuCreatePageDirectory (some a) m).2.directories dir =
        m.directories dir := by
      intro dir hne
      simp only [mmuCreatePageDirectory, Function.update_of_ne hne]
    have hself : (mmuCreatePageDirectory (some a) m).2.directories a =
        some fun _ => clearDirectoryEntry := by
      simp only [mmuCreatePageDirectory, Function.update_self]
    have hkeep : KeepsEntries m (mmuCreatePageDirectory (some a) m).2 := by
      intro dir d i hd hi
      have hne : dir ≠ a := by
        rintro rfl
        rw [hnone] at hd
        cases hd
      exact ⟨d, (hother dir hne).trans hd, hi, rfl⟩
    have hback : ∀ {table j f}, Holds (mmuCreatePageDirectory (some a) m).2 table j f →
        Holds m table j f := by
      rintro table j f ⟨⟨dir, d, i, hd, hi, hpointer⟩, hslot⟩
      rcases eq_or_ne dir a with rfl | hne
      · rw [hself] at hd
        obtain rfl := Option.some.inj hd
        cases hi
      · rw [hother dir hne] at hd
        exact ⟨⟨dir, d, i, hd, hi, hpointer⟩, hslot⟩
    refine ⟨h.frames, fun e ht hpointer => hkeep.shown (h.shown e ht hpointer), fun hholds => ?_,
      fun hf h₁ h₂ => h.alone hf (hback h₁) (hback h₂)⟩
    rcases h.taken (hback hholds) with hin | hbig | hat
    · exact .inl hin
    · exact .inr (.inl hbig)
    · exact .inr (.inr (hkeep.atIdentity hat))

theorem tables_withoutTables (d : PageDirectory) (is : List (Fin 1024)) (m : Mmu)
    (ht : (withoutTables m d is).tables table = some t) :
    m.tables table = some t ∧ ∀ i ∈ is, tablePointer (d (BitVec.ofFin i)) ≠ table := by
  induction is generalizing m with
  | nil => exact ⟨ht, fun i hi => absurd hi List.not_mem_nil⟩
  | cons i is ih =>
    obtain ⟨hrest, hothers⟩ := ih _ ht
    dsimp only at hrest
    rcases eq_or_ne table (tablePointer (d (BitVec.ofFin i))) with rfl | hne
    · rw [Function.update_self] at hrest
      cases hrest
    · rw [Function.update_of_ne hne] at hrest
      refine ⟨hrest, fun k hk => ?_⟩
      rcases List.mem_cons.mp hk with rfl | hk
      · exact hne.symm
      · exact hothers k hk

theorem directories_withoutTables (d : PageDirectory) (is : List (Fin 1024)) (m : Mmu) :
    (withoutTables m d is).directories = m.directories := by
  induction is generalizing m with
  | nil => rfl
  | cons i is ih => exact ih _

theorem mem_usedEntries {i : BitVec 10} (hi : (d i).present = true) : i.toFin ∈ usedEntries d :=
  List.mem_filter.mpr ⟨List.mem_finRange _, hi⟩

theorem owned_withoutDirectory (h : Owned m p kernel) (hd : m.directories da = some d)
    (hframes : m'.gFrameAllocator = m.gFrameAllocator) (hgone : m'.directories da = none)
    (hothers : ∀ dir, dir ≠ da → m'.directories dir = m.directories dir)
    (htables : ∀ {table t}, m'.tables table = some t →
      m.tables table = some t ∧ ∀ i, (d i).present = true → tablePointer (d i) ≠ table) :
    Owned m' p kernel := by
  have hback : ∀ {table j f}, Holds m' table j f →
      Holds m table j f ∧ ∀ i, (d i).present = true → tablePointer (d i) ≠ table := by
    rintro table j f ⟨⟨dir, d', k, hd', hk, hpointer⟩, t, ht, hon, hframe⟩
    obtain ⟨hold, hfree⟩ := htables ht
    have hne : dir ≠ da := by
      rintro rfl
      rw [hgone] at hd'
      cases hd'
    rw [hothers dir hne] at hd'
    exact ⟨⟨⟨dir, d', k, hd', hk, hpointer⟩, t, hold, hon, hframe⟩, hfree⟩
  refine ⟨hframes ▸ h.frames, fun e ht hpointer => ?_, fun hholds => ?_,
    fun hf h₁ h₂ => h.alone hf (hback h₁).1 (hback h₂).1⟩
  · obtain ⟨hold, hfree⟩ := htables ht
    obtain ⟨dir, d', k, hd', hk, hpointer'⟩ := h.shown e hold hpointer
    have hne : dir ≠ da := by
      rintro rfl
      obtain rfl := Option.some.inj (hd.symm.trans hd')
      exact hfree k hk hpointer'
    exact ⟨dir, d', k, (hothers dir hne).trans hd', hk, hpointer'⟩
  · obtain ⟨hold, hfree⟩ := hback hholds
    rcases h.taken hold with hin | hbig | ⟨d', hd', hi, hpointer, hj⟩
    · exact .inl hin
    · exact .inr (.inl hbig)
    · have hne : kernel ≠ da := by
        rintro rfl
        obtain rfl := Option.some.inj (hd.symm.trans hd')
        exact hfree _ hi hpointer
      exact .inr (.inr ⟨d', (hothers kernel hne).trans hd', hi, hpointer, hj⟩)

theorem owned_destroy (h : Owned m p kernel) (hcall : mmuDestroyPageDirectory m dir = .ok m') :
    Owned m' p kernel := by
  rcases mmuDestroyPageDirectory_cases hcall with rfl | ⟨da, d, rfl, hd, heq⟩
  · exact h
  have hdirs : m'.directories = Function.update m.directories da none := by
    rw [heq, ← directories_withoutTables d (usedEntries d) m]
  have htables : m'.tables = (withoutTables m d (usedEntries d)).tables := by
    rw [heq]
  refine owned_withoutDirectory h hd (frames_destroy hcall) ?_ (fun dir hne => ?_) fun ht => ?_
  · rw [hdirs, Function.update_self]
  · rw [hdirs, Function.update_of_ne hne]
  · rw [htables] at ht
    obtain ⟨hold, hothers⟩ := tables_withoutTables d _ m ht
    exact ⟨hold, fun i hi => hothers _ (mem_usedEntries hi)⟩

theorem owned_step {c : MmuCall} (h : Owned m p kernel) (hasked : Asked m c)
    (hunmapped : c = .allocFrame → LowestUnmapped m kernel) (hstep : mmuStep m c = some m') :
    ∃ p', Owned m' p' kernel := by
  have hcall := mmuStep_eq hstep
  cases c with
  | allocFrame =>
    obtain rfl := Except.ok.inj hcall
    exact owned_alloc h (hunmapped rfl)
  | freeFrame frame =>
    obtain rfl := Except.ok.inj hcall
    refine owned_free h frame fun _ table j hholds => ?_
    obtain ⟨dir, page, _, _, _, _, _, hmaps⟩ := hholds.maps
    exact hasked dir page hmaps
  | mapPage allocated dir v pa flags =>
    obtain ⟨⟨r, u⟩, hmap, hrest⟩ := Outcome.bind_eq_ok.mp hcall
    obtain rfl := Except.ok.inj hrest
    refine ⟨p, owned_mapPage h (fun hflags => ?_) hmap⟩
    rcases hasked hflags with hbig | ⟨halloc, honce⟩
    · exact .inl hbig
    · rcases Nat.lt_or_ge (pageOf pa).toNat totalFrames with hlt | hge
      · exact .inr (.inl ⟨(h.frames.taken _ hlt).mp halloc, honce⟩)
      · exact .inl hge
  | unmapPage dir v =>
    obtain ⟨⟨r, u⟩, hunmap, hrest⟩ := Outcome.bind_eq_ok.mp hcall
    obtain rfl := Except.ok.inj hrest
    exact owned_unmapPage h hunmap
  | createPageDirectory allocated =>
    obtain rfl := Except.ok.inj hcall
    exact ⟨p, owned_createDirectory h hasked⟩
  | destroyPageDirectory dir => exact ⟨p, owned_destroy h hcall⟩

end Steps

section Init

variable {m m' : Mmu} {kernel : Address} {answers : Nat → Option Address} {g : MmuGlobals}
  {n : Nat} {page : BitVec 20} {flags endAddr : BitVec 32} {r : Int}

def coldGlobals : MmuGlobals := ⟨coldMmu, none, none, false⟩

def bareKernel (kernel : Address) : Mmu :=
  (mmuCreatePageDirectory (some kernel) { coldMmu with gFrameAllocator := emptyFrames }).2

def kernelFlags : BitVec 32 := pagePresent ||| pageWritable ||| pageKernel

def kernelSize : BitVec 32 := BitVec.ofNat 32 physicalMemorySize

theorem mmuInit_eq_ok_iff : mmuInit (some kernel) answers coldGlobals = .ok (r, g) ↔
    ∃ r' m, mapPages answers (some kernel) kernelFlags (0 + kernelSize) mapLimit (bareKernel kernel)
      (widened 0) (widened 0) = .ok (r', m) ∧ r = 0 ∧ g = ⟨m, some kernel, some kernel, true⟩ := by
  have hrange : mmuMapRange answers (bareKernel kernel) (some kernel) 0 0 kernelSize kernelFlags =
      mapPages answers (some kernel) kernelFlags (0 + kernelSize) mapLimit (bareKernel kernel)
        (widened 0) (widened 0) :=
    mmuMapRange_ok (by decide) (by decide) _ _
  have hinit : mmuInit (some kernel) answers coldGlobals = (do
      let m ← mmuIdentityMapRange answers (bareKernel kernel) (some kernel) 0 kernelSize kernelFlags
      .ok (0, ⟨m, some kernel, some kernel, true⟩)) := rfl
  rw [hinit, Outcome.bind_eq_ok]
  constructor
  · rintro ⟨m, hidentity, hrest⟩
    obtain ⟨⟨r', m'⟩, hmap, hm⟩ := Outcome.bind_eq_ok.mp hidentity
    obtain rfl := Except.ok.inj hm
    obtain ⟨rfl, rfl⟩ := Prod.mk.inj (Except.ok.inj hrest)
    exact ⟨r', m', hrange ▸ hmap, rfl, rfl⟩
  · rintro ⟨r', m, hmap, rfl, rfl⟩
    exact ⟨m, Outcome.bind_eq_ok.mpr ⟨_, hrange ▸ hmap, rfl⟩, rfl⟩

theorem owned_bareKernel (kernel : Address) :
    Owned (bareKernel kernel) (Pool.empty totalFrames) kernel := by
  have hnone : ∀ table, (bareKernel kernel).tables table = none := fun _ => rfl
  refine ⟨represents_empty, fun _ ht _ => ?_, fun hholds => ?_, fun hf => ?_⟩
  · rw [hnone] at ht
    cases ht
  · obtain ⟨_, t, ht, _⟩ := hholds
    rw [hnone] at ht
    cases ht
  · exact absurd hf (Finset.notMem_empty _)

theorem owned_mapPages (h : Owned m (Pool.empty totalFrames) kernel)
    (hcall : mapPages answers (some kernel) flags endAddr n m (widened page) (widened page) =
      .ok (r, m')) : Owned m' (Pool.empty totalFrames) kernel := by
  induction n generalizing m page with
  | zero =>
    obtain ⟨_, rfl⟩ := Prod.mk.inj (Except.ok.inj hcall)
    exact h
  | succ n ih =>
    rw [mapPages] at hcall
    split at hcall
    · obtain ⟨⟨r', m₁⟩, hmap, hrest⟩ := Outcome.bind_eq_ok.mp hcall
      have h₁ : Owned m₁ (Pool.empty totalFrames) kernel :=
        owned_mapPage h (fun _ => .inr (.inr ⟨Finset.notMem_empty _, rfl, rfl⟩)) hmap
      dsimp only at hrest
      split at hrest
      · obtain ⟨_, rfl⟩ := Prod.mk.inj (Except.ok.inj hrest)
        exact h₁
      · rw [widened_succ] at hrest
        exact ih h₁ hrest
    · obtain ⟨_, rfl⟩ := Prod.mk.inj (Except.ok.inj hcall)
      exact h

theorem owned_init (hinit : mmuInit (some kernel) answers coldGlobals = .ok (r, g)) :
    Owned g.mmu (Pool.empty totalFrames) kernel := by
  obtain ⟨r', m, hmap, _, rfl⟩ := mmuInit_eq_ok_iff.mp hinit
  exact owned_mapPages (owned_bareKernel kernel) hmap

theorem tabled_bareKernel (kernel : Address) :
    Tabled (bareKernel kernel) kernel fun _ => clearDirectoryEntry := by
  refine ⟨?_, fun _ hi => Bool.noConfusion hi, fun _ _ hi => Bool.noConfusion hi⟩
  simp only [bareKernel, mmuCreatePageDirectory, Function.update_self]

theorem init_identity_maps (kernel : Address) :
    ∃ g d, mmuInit (some kernel) spareTables coldGlobals = .ok (0, g) ∧ Tabled g.mmu kernel d ∧
      ∀ page : BitVec 20, page.toNat < totalFrames → Maps g.mmu kernel page page.toNat := by
  have h := tabled_bareKernel kernel
  have hfrom : TablesFrom spareTables (bareKernel kernel) mapLimit :=
    tablesFrom_spare fun _ _ => rfl
  have htotal : ∃ m', mapPages spareTables (some kernel) kernelFlags (0 + kernelSize) mapLimit
      (bareKernel kernel) (widened 0) (widened 0) = .ok (0, m') :=
    mapPages_total h hfrom (fun k hk => spare_valid hk) rfl _ _
  obtain ⟨m', hmap⟩ := htotal
  obtain ⟨⟨d, htabled⟩, hentries⟩ := mapPages_exact h hfrom (by decide) hmap
  refine ⟨_, d, mmuInit_eq_ok_iff.mpr ⟨0, m', hmap, rfl, rfl⟩, htabled, fun page hpage => ?_⟩
  have hend : (0 + kernelSize).toNat = 4096 * totalFrames := by decide
  have hframes : totalFrames = 16384 := by decide
  have hlimit : mapLimit = 100000 := rfl
  have hsame : page - 0 = page := BitVec.sub_zero page
  have hsum : 0 + page = page := BitVec.zero_add page
  have hentry := hentries page
  have hzero : (0 : BitVec 20).toNat = 0 := rfl
  rw [hsame, hsum, turns_of_low (by omega), if_pos (by omega)] at hentry
  rw [Maps, hentry, mapEntry_frame]
  have hon : (kernelFlags &&& pagePresent != 0) = true := by decide
  exact ⟨hon, rfl⟩

theorem unmapPage_clears {v : BitVec 32} {f : Nat} {p : Pool totalFrames} {d : PageDirectory}
    (h : Tabled m kernel d) (hrep : Represents m.gFrameAllocator p)
    (hmaps : Maps m kernel (pageOf v) f) (hlt : f < totalFrames) (hfree : f ∉ p.taken) :
    ∃ m', mmuUnmapPage m (some kernel) v = .ok (0, m') ∧
      m'.gFrameAllocator = m.gFrameAllocator ∧
      pageEntry m' kernel (pageOf v) = clearTableEntry := by
  obtain ⟨d', t, hd', hi, ht, hon, hframe⟩ := maps_iff.mp hmaps
  obtain rfl := Option.some.inj (h.found.symm.trans hd')
  have hnumber : ((t (tabIndex (pageOf v))).frame.setWidth 32).toNat = f := by
    have hwide := (t (tabIndex (pageOf v))).frame.isLt
    rw [BitVec.toNat_setWidth, hframe]
    omega
  have hkept : mmuFreeFrame m ((t (tabIndex (pageOf v))).frame.setWidth 32) = m := by
    rcases mmuFreeFrame_cases m ((t (tabIndex (pageOf v))).frame.setWidth 32) with
      heq | ⟨_, halloc, _⟩
    · exact heq
    · rw [frameTaken_iff hrep (hnumber ▸ hlt), hnumber] at halloc
      exact absurd halloc hfree
  refine ⟨mmuFlushTlbSingle (writeTableEntry m (tablePointer (d (dirIndex (pageOf v)))) t
    (tabIndex (pageOf v)) clearTableEntry) v, ?_, rfl, ?_⟩
  · simp only [mmuUnmapPage, readDirectory, readTable, h.found, pdIndex_eq, ptIndex_eq, hi, ht, hon,
      hkept, bind, Except.bind, Bool.not_true, Bool.false_eq_true, if_false, if_true]
  · have hflush : ∀ u : Mmu, pageEntry (mmuFlushTlbSingle u v) kernel (pageOf v) =
        pageEntry u kernel (pageOf v) := fun _ => rfl
    rw [hflush, pageEntry_write h hi ht, if_pos rfl]

end Init

section Results

variable {m : Mmu} {kernel : Address} {answers : Nat → Option Address} {g : MmuGlobals}
  {calls : List MmuCall}

theorem returned_frame_unmapped
    (hinit : mmuInit (some kernel) answers coldGlobals = .ok (0, g))
    (hrun : Run mmuStep (fun m c => Asked m c ∧ (c = .allocFrame → LowestUnmapped m kernel))
      g.mmu calls m)
    (hnow : LowestUnmapped m kernel) (dir : Address) (page : BitVec 20) :
    ¬ Maps (mmuAllocFrame m).2 dir page (mmuAllocFrame m).1.toNat := by
  have hstart : ∃ p, Owned g.mmu p kernel := ⟨_, owned_init hinit⟩
  obtain ⟨p, h⟩ := hrun.invariant (P := fun m => ∃ p, Owned m p kernel) hstart
    fun m c m' ⟨p, h⟩ ⟨hasked, hunmapped⟩ hstep => owned_step h hasked hunmapped hstep
  intro hmaps
  rcases mmuAllocFrame_cases h.frames with ⟨-, heq⟩ | ⟨f, hlow, heq⟩
  · rw [heq] at hmaps
    have hlt := (pageEntry m dir page).frame.isLt
    have hframe : (pageEntry m dir page).frame.toNat = 0xFFFFFFFF := hmaps.2
    omega
  · rw [heq, toNat_ofNat_frame hlow.1] at hmaps
    obtain ⟨table, hholds⟩ := hmaps.holds
    exact not_holds_lowest h hlow hnow hholds

theorem returned_frame_unmapped_after_unmap :
    ∃ g m, mmuInit (some 0x800000) spareTables coldGlobals = .ok (0, g) ∧
      Run mmuStep (fun m c => Asked m c ∧ (c = .allocFrame → LowestUnmapped m 0x800000))
        g.mmu [.unmapPage (some 0x800000) 0] m ∧
      ∀ dir page, ¬ Maps (mmuAllocFrame m).2 dir page (mmuAllocFrame m).1.toNat := by
  obtain ⟨g, d, hinit, htabled, hmaps⟩ := init_identity_maps 0x800000
  have h := owned_init hinit
  have hmapped : Maps g.mmu 0x800000 (pageOf 0) 0 := hmaps 0 (by decide)
  obtain ⟨m, hcall, hframes, hclear⟩ :=
    unmapPage_clears htabled h.frames hmapped (by decide) (Finset.notMem_empty 0)
  have hstep : mmuStep g.mmu (.unmapPage (some 0x800000) 0) = some m := by
    rw [mmuStep, mmuCall, hcall]
    rfl
  have hrun : Run mmuStep (fun m c => Asked m c ∧ (c = .allocFrame → LowestUnmapped m 0x800000))
      g.mmu [.unmapPage (some 0x800000) 0] m := by
    refine Run.single ⟨trivial, fun hother => ?_⟩ hstep
    cases hother
  have hnow : LowestUnmapped m 0x800000 := by
    rintro f ⟨_, _, hbelow⟩ hmaps'
    rcases Nat.eq_zero_or_pos f with rfl | hpos
    · have hon : (pageEntry m 0x800000 (pageOf 0)).present = true := hmaps'.1
      rw [hclear] at hon
      cases hon
    · have htaken := hbelow 0 hpos
      rw [hframes, h.frames.taken 0 (by decide)] at htaken
      exact absurd htaken (Finset.notMem_empty 0)
  exact ⟨g, m, hinit, hrun, returned_frame_unmapped hinit hrun hnow⟩

theorem first_frame_still_mapped :
    ¬ ∀ (kernel : Address) (answers : Nat → Option Address) (g : MmuGlobals)
      (calls : List MmuCall) (m : Mmu), TablesFrom answers coldMmu mapLimit →
      mmuInit (some kernel) answers coldGlobals = .ok (0, g) → Run mmuStep Asked g.mmu calls m →
      ∀ dir page, ¬ Maps (mmuAllocFrame m).2 dir page (mmuAllocFrame m).1.toNat := by
  intro hall
  obtain ⟨g, _, hinit, _, hmaps⟩ := init_identity_maps 0x800000
  have h := owned_init hinit
  have hfree := hall 0x800000 spareTables g [] g.mmu (tablesFrom_spare fun _ _ => rfl) hinit .start
  have hlow : (Pool.empty totalFrames).Lowest 0 :=
    ⟨by decide, Finset.notMem_empty 0, fun j hj => absurd hj (Nat.not_lt_zero j)⟩
  have hfirst : firstFrame g.mmu.gFrameAllocator = some 0 :=
    (firstFrame_eq h.frames).trans ((Pool.search_eq_some h.frames.hint).mpr hlow)
  rw [mmuAllocFrame_some hfirst] at hfree
  exact hfree 0x800000 0 (hmaps 0 (by decide))

end Results

end ZoraVM.Kernel

import ZoraVM.Kernel.Mapping

namespace ZoraVM.Kernel

open Foundation

def pageOf (v : BitVec 32) : BitVec 20 := (v >>> pageShift).setWidth 20

def dirIndex (page : BitVec 20) : BitVec 10 := (page >>> 10).setWidth 10

def tabIndex (page : BitVec 20) : BitVec 10 := page.setWidth 10

section Pages

variable {v : BitVec 32} {page other : BitVec 20}

theorem toNat_pageOf (v : BitVec 32) : (pageOf v).toNat = v.toNat / 4096 := by
  have hlt := v.isLt
  simp only [pageOf, pageShift, BitVec.toNat_setWidth, BitVec.toNat_ushiftRight,
    Nat.shiftRight_eq_div_pow]
  omega

theorem toNat_dirIndex (page : BitVec 20) : (dirIndex page).toNat = page.toNat / 1024 := by
  have hlt := page.isLt
  simp only [dirIndex, BitVec.toNat_setWidth, BitVec.toNat_ushiftRight, Nat.shiftRight_eq_div_pow]
  omega

theorem toNat_tabIndex (page : BitVec 20) : (tabIndex page).toNat = page.toNat % 1024 := by
  rw [tabIndex, BitVec.toNat_setWidth]

theorem pdIndex_eq (v : BitVec 32) : pdIndex v = dirIndex (pageOf v) := by
  apply BitVec.eq_of_toNat_eq
  have hlt := v.isLt
  rw [toNat_dirIndex, toNat_pageOf]
  simp only [pdIndex, BitVec.toNat_setWidth, BitVec.toNat_ushiftRight, Nat.shiftRight_eq_div_pow]
  omega

theorem ptIndex_eq (v : BitVec 32) : ptIndex v = tabIndex (pageOf v) := by
  apply BitVec.eq_of_toNat_eq
  rw [toNat_tabIndex, toNat_pageOf]
  have hmask : (0x3FF : BitVec 32).toNat = 2 ^ 10 - 1 := rfl
  simp only [ptIndex, BitVec.toNat_setWidth, BitVec.toNat_and, BitVec.toNat_ushiftRight,
    Nat.shiftRight_eq_div_pow, hmask, Nat.and_two_pow_sub_one_eq_mod]
  omega

theorem page_ext (hdir : dirIndex page = dirIndex other) (htab : tabIndex page = tabIndex other) :
    page = other := by
  apply BitVec.eq_of_toNat_eq
  have hquot := congrArg BitVec.toNat hdir
  have hrest := congrArg BitVec.toNat htab
  rw [toNat_dirIndex, toNat_dirIndex] at hquot
  rw [toNat_tabIndex, toNat_tabIndex] at hrest
  omega

theorem pageOf_widened (page : BitVec 20) : pageOf (widened page) = page := by
  apply BitVec.eq_of_toNat_eq
  rw [toNat_pageOf, toNat_widened]
  omega

theorem widened_succ (page : BitVec 20) : widened page + 4096 = widened (page + 1) := by
  apply BitVec.eq_of_toNat_eq
  have hstep : (4096 : BitVec 32).toNat = 4096 := rfl
  have hone : (1 : BitVec 20).toNat = 1 := rfl
  rw [BitVec.toNat_add, toNat_widened, toNat_widened, BitVec.toNat_add, hstep, hone]
  omega

theorem pageAlignDown_eq (v : BitVec 32) : pageAlignDown v = widened (pageOf v) := by
  have hmask : ∀ i : Fin 32, (0xFFFFF000 : BitVec 32).getLsbD i = decide (12 ≤ i.val) := by decide
  apply BitVec.eq_of_getLsbD_eq
  intro i hi
  rw [pageAlignDown, BitVec.getLsbD_and, hmask ⟨i, hi⟩]
  simp only [widened, pageOf, pageShift, BitVec.getLsbD_shiftLeft, BitVec.getLsbD_setWidth,
    BitVec.getLsbD_ushiftRight]
  rcases Nat.lt_or_ge i 12 with hlow | hhigh
  · simp [hlow]
  · have hsum : 12 + (i - 12) = i := by omega
    have hfield : i - 12 < 20 := by omega
    simp [hi, hhigh, hsum, hfield, Nat.not_lt.mpr hhigh]
    omega

end Pages

def tableFor (m : Mmu) (dir : Address) (i : BitVec 10) : Option PageTable :=
  (m.directories dir).bind fun d =>
    if (d i).present then m.tables (tablePointer (d i)) else none

def pageEntry (m : Mmu) (dir : Address) (page : BitVec 20) : PageTableEntry :=
  ((tableFor m dir (dirIndex page)).getD fun _ => clearTableEntry) (tabIndex page)

structure Tabled (m : Mmu) (dir : Address) (d : PageDirectory) : Prop where
  found : m.directories dir = some d
  held : ∀ i, (d i).present = true → ∃ t, m.tables (tablePointer (d i)) = some t
  apart : ∀ i j, (d i).present = true → (d j).present = true →
    tablePointer (d i) = tablePointer (d j) → i = j

def FitsEntry (a : Address) : Prop :=
  pageAligned a = true ∧ (a.toNat < 2 ^ 31 ∨ 2 ^ 64 - 2 ^ 31 ≤ a.toNat)

-- What VirtualAlloc answers while `n` pages are left: memory of its own for each table.
structure OwnMemory (allocated : Nat → Option Address) (m : Mmu) (n : Nat) : Prop where
  fresh : ∀ k < n, ∀ a, allocated k = some a → m.tables a = none
  distinct : ∀ k < n, ∀ j < n, ∀ a, allocated k = some a → allocated j = some a → k = j

structure TablesFrom (allocated : Nat → Option Address) (m : Mmu) (n : Nat) : Prop
    extends OwnMemory allocated m n where
  fits : ∀ k < n, ∀ a, allocated k = some a → FitsEntry a

variable {m m₁ m' : Mmu} {da a table : Address} {d : PageDirectory} {t : PageTable}
  {i : BitVec 10} {page : BitVec 20} {v p flags : BitVec 32} {r : Int} {e : PageTableEntry}

section OnePage

theorem tablePointer_withTable (hfits : FitsEntry a) : tablePointer (withTable d i a i) = a := by
  rw [withTable, Function.update_self]
  exact (decode_encode_iff hfits.1
    { d i with present := true, writable := true, userMode := true }).mpr hfits.2

theorem tableFor_of_present (h : Tabled m da d) (hi : (d i).present = true) :
    tableFor m da i = m.tables (tablePointer (d i)) := by
  rw [tableFor, h.found, Option.bind_some, if_pos hi]

theorem tableFor_of_absent (h : Tabled m da d) (hi : (d i).present = false) :
    tableFor m da i = none := by
  rw [tableFor, h.found, Option.bind_some, hi, if_neg Bool.false_ne_true]

theorem withTable_of_ne {j : BitVec 10} (hne : j ≠ i) : withTable d i a j = d j := by
  rw [withTable, Function.update_of_ne hne]

theorem tables_newTable (m : Mmu) (da a : Address) (d : PageDirectory) (i : BitVec 10) :
    (newTable m da d i a).tables a = some fun _ => clearTableEntry := by
  simp only [newTable, Function.update_self]

theorem tables_newTable_of_ne (hne : table ≠ a) :
    (newTable m da d i a).tables table = m.tables table := by
  simp only [newTable, Function.update_of_ne hne]

theorem tables_write (m : Mmu) (table : Address) (t : PageTable) (i : BitVec 10)
    (e : PageTableEntry) :
    (writeTableEntry m table t i e).tables table = some (Function.update t i e) := by
  simp only [writeTableEntry, Function.update_self]

theorem tables_write_of_ne {other : Address} (hne : other ≠ table) :
    (writeTableEntry m table t i e).tables other = m.tables other := by
  simp only [writeTableEntry, Function.update_of_ne hne]

theorem withTable_present {j : BitVec 10}
    (hj : (withTable d i a j).present = true) : j = i ∨ (j ≠ i ∧ (d j).present = true ∧
      withTable d i a j = d j) := by
  rcases eq_or_ne j i with heq | hne
  · exact .inl heq
  · have hsame : withTable d i a j = d j := Function.update_of_ne hne _ _
    exact .inr ⟨hne, hsame ▸ hj, hsame⟩

theorem pointer_ne_fresh (h : Tabled m da d) (hfresh : m.tables a = none)
    (hi : (d i).present = true) : tablePointer (d i) ≠ a := by
  obtain ⟨t, ht⟩ := h.held i hi
  rintro rfl
  rw [hfresh] at ht
  cases ht

theorem tabled_newTable (h : Tabled m da d) (hfits : FitsEntry a)
    (hfresh : m.tables a = none) : Tabled (newTable m da d i a) da (withTable d i a) := by
  have hpointer : tablePointer (withTable d i a i) = a := tablePointer_withTable hfits
  refine ⟨by simp only [newTable, Function.update_self], fun j hj => ?_, fun j k hj hk heq => ?_⟩
  · rcases withTable_present hj with rfl | ⟨_, hj', hsame⟩
    · rw [hpointer]
      exact ⟨_, tables_newTable m da a d j⟩
    · obtain ⟨t, ht⟩ := h.held j hj'
      refine ⟨t, ?_⟩
      rw [hsame, ← ht]
      exact tables_newTable_of_ne (pointer_ne_fresh h hfresh hj')
  · rcases withTable_present hj with rfl | ⟨_, hj', hsame⟩
    · rcases withTable_present hk with rfl | ⟨_, hk', hsame'⟩
      · rfl
      · rw [hpointer, hsame'] at heq
        exact absurd heq.symm (pointer_ne_fresh h hfresh hk')
    · rcases withTable_present hk with rfl | ⟨_, hk', hsame'⟩
      · rw [hpointer, hsame] at heq
        exact absurd heq (pointer_ne_fresh h hfresh hj')
      · rw [hsame, hsame'] at heq
        exact h.apart j k hj' hk' heq

theorem pageEntry_newTable (h : Tabled m da d) (hnew : (d i).present = false)
    (hfits : FitsEntry a) (hfresh : m.tables a = none) (page : BitVec 20) :
    pageEntry (newTable m da d i a) da page = pageEntry m da page := by
  have h' : Tabled (newTable m da d i a) da (withTable d i a) := tabled_newTable h hfits hfresh
  rcases eq_or_ne (dirIndex page) i with heq | hne
  · have hon : (withTable d i a (dirIndex page)).present = true := by
      rw [heq, withTable, Function.update_self]
    have hclear : (newTable m da d i a).tables (tablePointer (withTable d i a (dirIndex page))) =
        some fun _ => clearTableEntry := by
      rw [heq, tablePointer_withTable hfits]
      exact tables_newTable m da a d i
    rw [pageEntry, pageEntry, tableFor_of_present h' hon, hclear,
      tableFor_of_absent h (heq ▸ hnew)]
    rfl
  · have hsame : withTable d i a (dirIndex page) = d (dirIndex page) := withTable_of_ne hne
    cases hon : (d (dirIndex page)).present with
    | true =>
      have hkept : (newTable m da d i a).tables (tablePointer (d (dirIndex page))) =
          m.tables (tablePointer (d (dirIndex page))) :=
        tables_newTable_of_ne (pointer_ne_fresh h hfresh hon)
      rw [pageEntry, pageEntry, tableFor_of_present h' (hsame ▸ hon), hsame, hkept,
        tableFor_of_present h hon]
    | false =>
      rw [pageEntry, pageEntry, tableFor_of_absent h' (hsame ▸ hon), tableFor_of_absent h hon]

theorem tabled_write (h : Tabled m da d) : Tabled (writeTableEntry m table t i e) da d := by
  refine ⟨h.found, fun j hj => ?_, h.apart⟩
  rcases eq_or_ne (tablePointer (d j)) table with heq | hne
  · rw [heq]
    exact ⟨_, tables_write m table t i e⟩
  · obtain ⟨t', ht'⟩ := h.held j hj
    exact ⟨t', (tables_write_of_ne hne).trans ht'⟩

theorem pageEntry_write (h : Tabled m da d) (hon : (d (dirIndex page)).present = true)
    (ht : m.tables (tablePointer (d (dirIndex page))) = some t) (other : BitVec 20) :
    pageEntry (writeTableEntry m (tablePointer (d (dirIndex page))) t (tabIndex page) e) da other =
      if other = page then e else pageEntry m da other := by
  have h' : Tabled (writeTableEntry m (tablePointer (d (dirIndex page))) t (tabIndex page) e) da d :=
    tabled_write h
  cases hother : (d (dirIndex other)).present with
  | false =>
    have hne : other ≠ page := by
      rintro rfl
      rw [hon] at hother
      cases hother
    rw [if_neg hne, pageEntry, pageEntry, tableFor_of_absent h' hother,
      tableFor_of_absent h hother]
  | true =>
    rw [pageEntry, pageEntry, tableFor_of_present h' hother, tableFor_of_present h hother]
    rcases eq_or_ne (dirIndex other) (dirIndex page) with hdir | hdir
    · have hwritten : (writeTableEntry m (tablePointer (d (dirIndex page))) t (tabIndex page) e).tables
          (tablePointer (d (dirIndex page))) = some (Function.update t (tabIndex page) e) :=
        tables_write m _ t _ e
      rw [hdir, hwritten, ht, Option.getD_some, Option.getD_some]
      rcases eq_or_ne (tabIndex other) (tabIndex page) with htab | htab
      · rw [if_pos (page_ext hdir htab), htab, Function.update_self]
      · have hne : other ≠ page := fun he => htab (he ▸ rfl)
        rw [if_neg hne, Function.update_of_ne htab]
    · have hne : other ≠ page := fun he => hdir (he ▸ rfl)
      have hpointer : tablePointer (d (dirIndex other)) ≠ tablePointer (d (dirIndex page)) :=
        fun he => hdir (h.apart _ _ hother hon he)
      have hkept : (writeTableEntry m (tablePointer (d (dirIndex page))) t (tabIndex page) e).tables
          (tablePointer (d (dirIndex other))) = m.tables (tablePointer (d (dirIndex other))) :=
        tables_write_of_ne hpointer
      rw [if_neg hne, hkept]

def OnlyAdds (allocated : Option Address) (m m' : Mmu) : Prop :=
  ∀ table, m.tables table = none → m'.tables table = none ∨ allocated = some table

theorem onlyAdds_getOrCreate (hcall : getOrCreatePageTable allocated m dir i = .ok (found, m₁)) :
    OnlyAdds allocated m m₁ := by
  intro other hnone
  rcases getOrCreatePageTable_cases hcall with ⟨_, rfl⟩ | ⟨_, _, table, _, _, _, hrest⟩
  · exact .inl hnone
  · rcases hrest with ⟨_, _, _, rfl⟩ | ⟨_, hgiven, rfl⟩
    · exact .inl hnone
    · rcases eq_or_ne other table with rfl | hne
      · exact .inr hgiven
      · exact .inl ((tables_newTable_of_ne hne).trans hnone)

theorem onlyAdds_mapPage (hcall : mmuMapPage allocated m dir v p flags = .ok (r, m')) :
    OnlyAdds allocated m m' := by
  intro other hnone
  rcases mmuMapPage_cases hcall with ⟨_, rfl⟩ | ⟨table, m₁, t, hcreate, ht, _, rfl⟩
  · exact .inl hnone
  · rcases onlyAdds_getOrCreate hcreate other hnone with hnone₁ | hgiven
    · have hne : other ≠ table := by
        rintro rfl
        rw [ht] at hnone₁
        cases hnone₁
      exact .inl ((tables_write_of_ne hne).trans hnone₁)
    · exact .inr hgiven

theorem getOrCreate_exact (h : Tabled m da d)
    (hanswer : ∀ a, allocated = some a → FitsEntry a ∧ m.tables a = none)
    (hcall : getOrCreatePageTable allocated m (some da) i = .ok (some table, m₁)) :
    ∃ d₁, Tabled m₁ da d₁ ∧ (d₁ i).present = true ∧ table = tablePointer (d₁ i) ∧
      ∀ page, pageEntry m₁ da page = pageEntry m da page := by
  rcases getOrCreatePageTable_cases hcall with ⟨hf, _⟩ | ⟨da', d', table', hda, hd', hf, hrest⟩
  · cases hf
  obtain rfl := Option.some.inj hda
  obtain rfl := Option.some.inj hf
  obtain rfl := Option.some.inj (h.found.symm.trans hd')
  rcases hrest with ⟨hon, rfl, _, rfl⟩ | ⟨hnew, hgiven, rfl⟩
  · exact ⟨d, h, hon, rfl, fun _ => rfl⟩
  · obtain ⟨hfits, hfresh⟩ := hanswer table hgiven
    refine ⟨_, tabled_newTable h hfits hfresh, ?_, (tablePointer_withTable hfits).symm,
      pageEntry_newTable h hnew hfits hfresh⟩
    rw [withTable, Function.update_self]

theorem tabled_flush (h : Tabled m da d) (v : BitVec 32) : Tabled (mmuFlushTlbSingle m v) da d :=
  ⟨h.found, h.held, h.apart⟩

theorem mmuMapPage_exact (h : Tabled m da d)
    (hanswer : ∀ a, allocated = some a → FitsEntry a ∧ m.tables a = none)
    (hcall : mmuMapPage allocated m (some da) v p flags = .ok (0, m')) :
    (∃ d', Tabled m' da d') ∧ ∀ page, pageEntry m' da page =
      if page = pageOf v then mapEntry (pageEntry m da page) p flags
      else pageEntry m da page := by
  rcases mmuMapPage_cases hcall with ⟨hr, _⟩ | ⟨table, m₁, t, hcreate, ht, _, rfl⟩
  · cases hr
  obtain ⟨d₁, h₁, hon, rfl, hsame⟩ := getOrCreate_exact h hanswer hcreate
  refine ⟨⟨d₁, tabled_flush (tabled_write h₁) v⟩, fun page => ?_⟩
  have hflush : ∀ u : Mmu, pageEntry (mmuFlushTlbSingle u v) da page = pageEntry u da page :=
    fun _ => rfl
  rw [hflush, ptIndex_eq]
  rw [pdIndex_eq] at hon ht ⊢
  have hold : pageEntry m₁ da (pageOf v) = t (tabIndex (pageOf v)) := by
    rw [pageEntry, tableFor_of_present h₁ hon, ht, Option.getD_some]
  rw [pageEntry_write h₁ hon ht page, ← hold, hsame, hsame]
  split
  · next heq => rw [heq]
  · rfl

theorem mmuMapPage_of_table (h : Tabled m da d)
    (hanswer : ∀ a, allocated = some a → FitsEntry a ∧ m.tables a = none)
    (hcreate : getOrCreatePageTable allocated m (some da) (pdIndex v) = .ok (some table, m₁)) :
    ∃ m', mmuMapPage allocated m (some da) v p flags = .ok (0, m') := by
  obtain ⟨d₁, h₁, hon, rfl, _⟩ := getOrCreate_exact h hanswer hcreate
  obtain ⟨t, ht⟩ := h₁.held _ hon
  have hread : readTable m₁ (tablePointer (d₁ (pdIndex v))) = .ok t := by
    rw [readTable, ht]
  exact ⟨_, Outcome.bind_eq_ok.mpr ⟨_, hcreate, Outcome.bind_eq_ok.mpr ⟨t, hread, rfl⟩⟩⟩

theorem getOrCreate_present (h : Tabled m da d) (hnull : m.tables 0 = none)
    (hon : (d i).present = true) :
    getOrCreatePageTable allocated m (some da) i = .ok (some (tablePointer (d i)), m) := by
  have hvalid : tablePointer (d i) ≠ 0 := pointer_ne_fresh h hnull hon
  simpa [getOrCreatePageTable, readDirectory, h.found, hon, bind, Except.bind] using hvalid

theorem mmuMapPage_total (h : Tabled m da d)
    (hanswer : ∀ a, allocated = some a → FitsEntry a ∧ m.tables a = none)
    (hserved : ∃ a ≠ 0, allocated = some a) (hnull : m.tables 0 = none) :
    ∃ m', mmuMapPage allocated m (some da) v p flags = .ok (0, m') := by
  cases hon : (d (pdIndex v)).present with
  | true => exact mmuMapPage_of_table h hanswer (getOrCreate_present h hnull hon)
  | false =>
    obtain ⟨a, _, rfl⟩ := hserved
    exact mmuMapPage_of_table h hanswer (getOrCreatePageTable_new h.found hon)

end OnePage

def turns (endAddr : BitVec 32) : Nat → BitVec 20 → Nat
  | 0, _ => 0
  | n + 1, page => if widened page < endAddr then turns endAddr n (page + 1) + 1 else 0

section Loop

variable {answers : Nat → Option Address} {endAddr : BitVec 32} {n : Nat} {frame other : BitVec 20}

theorem turns_le (endAddr : BitVec 32) (n : Nat) (page : BitVec 20) :
    turns endAddr n page ≤ n := by
  induction n generalizing page with
  | zero => exact Nat.le_refl 0
  | succ n ih =>
    rw [turns]
    split
    · exact Nat.succ_le_succ (ih (page + 1))
    · exact Nat.zero_le _

theorem OwnMemory.next (h : OwnMemory answers m (n + 1)) (hadds : OnlyAdds (answers n) m m₁) :
    OwnMemory answers m₁ n := by
  refine ⟨fun k hk a ha => ?_, fun k hk j hj => ?_⟩
  · rcases hadds a (h.fresh k (by omega) a ha) with hnone | hgiven
    · exact hnone
    · have heq := h.distinct k (by omega) n (by omega) a ha hgiven
      omega
  · exact h.distinct k (by omega) j (by omega)

theorem TablesFrom.next (h : TablesFrom answers m (n + 1)) (hadds : OnlyAdds (answers n) m m₁) :
    TablesFrom answers m₁ n :=
  ⟨h.toOwnMemory.next hadds, fun k hk => h.fits k (by omega)⟩

theorem TablesFrom.answer (h : TablesFrom answers m (n + 1)) :
    ∀ a, answers n = some a → FitsEntry a ∧ m.tables a = none :=
  fun a ha => ⟨h.fits n (by omega) a ha, h.fresh n (by omega) a ha⟩

theorem toNat_sub_succ (hne : other ≠ page) :
    (other - (page + 1)).toNat + 1 = (other - page).toNat := by
  have hdiff : other.toNat ≠ page.toNat := fun he => hne (BitVec.eq_of_toNat_eq he)
  have hother := other.isLt
  have hpage := page.isLt
  have hone : (1 : BitVec 20).toNat = 1 := rfl
  rw [BitVec.toNat_sub, BitVec.toNat_sub, BitVec.toNat_add, hone]
  omega

theorem mapPages_turn (hcall : mapPages answers (some da) flags endAddr (n + 1) m v p = .ok (0, m'))
    (hlt : v < endAddr) :
    ∃ m₁, mmuMapPage (answers n) m (some da) v p flags = .ok (0, m₁) ∧
      mapPages answers (some da) flags endAddr n m₁ (v + 4096) (p + 4096) = .ok (0, m') := by
  rw [mapPages, if_pos hlt] at hcall
  obtain ⟨⟨r, m₁⟩, hmap, hrest⟩ := Outcome.bind_eq_ok.mp hcall
  rcases mmuMapPage_cases hmap with ⟨rfl, _⟩ | ⟨_, _, _, _, _, rfl, _⟩
  · cases Except.ok.inj hrest
  · exact ⟨m₁, hmap, hrest⟩

theorem mapPages_exact (h : Tabled m da d) (hfrom : TablesFrom answers m n) (hn : n < 2 ^ 20)
    (hcall : mapPages answers (some da) flags endAddr n m (widened page) (widened frame) =
      .ok (0, m')) :
    (∃ d', Tabled m' da d') ∧ ∀ other, pageEntry m' da other =
      if (other - page).toNat < turns endAddr n page then
        mapEntry (pageEntry m da other) (widened (frame + (other - page))) flags
      else pageEntry m da other := by
  induction n generalizing m d page frame with
  | zero =>
    obtain rfl : m = m' := (Prod.mk.inj (Except.ok.inj hcall)).2
    exact ⟨⟨d, h⟩, fun _ => rfl⟩
  | succ n ih =>
    rw [turns]
    split
    · next hlt =>
      obtain ⟨m₁, hmap, hrest⟩ := mapPages_turn hcall hlt
      rw [widened_succ, widened_succ] at hrest
      obtain ⟨⟨d₁, h₁⟩, hone⟩ := mmuMapPage_exact h hfrom.answer hmap
      obtain ⟨hstill, hall⟩ := ih h₁ (hfrom.next (onlyAdds_mapPage hmap)) (by omega) hrest
      refine ⟨hstill, fun other => ?_⟩
      have hle := turns_le endAddr n (page + 1)
      rw [hall, hone, pageOf_widened]
      rcases eq_or_ne other page with rfl | hne
      · have hself : (other - (other + 1)).toNat = 2 ^ 20 - 1 := by bv_omega
        have hfirst : (other - other).toNat < turns endAddr n (other + 1) + 1 := by
          rw [BitVec.sub_self]
          exact Nat.succ_pos _
        have hframe : frame + (other - other) = frame := by bv_omega
        rw [if_neg (by omega), if_pos rfl, if_pos hfirst, hframe]
      · have hshift : frame + 1 + (other - (page + 1)) = frame + (other - page) := by
          bv_omega
        have hiff : (other - (page + 1)).toNat < turns endAddr n (page + 1) ↔
            (other - page).toNat < turns endAddr n (page + 1) + 1 := by
          rw [← toNat_sub_succ hne]
          exact Nat.succ_lt_succ_iff.symm
        simp only [if_neg hne, hshift, hiff]
    · next hge =>
      rw [mapPages, if_neg hge] at hcall
      obtain rfl : m = m' := (Prod.mk.inj (Except.ok.inj hcall)).2
      exact ⟨⟨d, h⟩, fun _ => rfl⟩

theorem mapPages_total (h : Tabled m da d) (hfrom : TablesFrom answers m n)
    (hserved : ∀ k < n, ∃ a ≠ 0, answers k = some a) (hnull : m.tables 0 = none)
    (v p : BitVec 32) :
    ∃ m', mapPages answers (some da) flags endAddr n m v p = .ok (0, m') := by
  induction n generalizing m d v p with
  | zero => exact ⟨m, rfl⟩
  | succ n ih =>
    rw [mapPages]
    split
    · obtain ⟨m₁, hmap⟩ := mmuMapPage_total h hfrom.answer (hserved n (by omega)) hnull
      obtain ⟨⟨d₁, h₁⟩, _⟩ := mmuMapPage_exact h hfrom.answer hmap
      have hadds := onlyAdds_mapPage hmap
      have hnull₁ : m₁.tables 0 = none := by
        obtain ⟨a, ha, hgiven⟩ := hserved n (by omega)
        rcases hadds 0 hnull with hnone | hzero
        · exact hnone
        · exact absurd (Option.some.inj (hgiven.symm.trans hzero)) ha
      obtain ⟨m', hrest⟩ := ih h₁ (hfrom.next hadds) (fun k hk => hserved k (by omega)) hnull₁
        (v + 4096) (p + 4096)
      exact ⟨m', Outcome.bind_eq_ok.mpr ⟨_, hmap, hrest⟩⟩
    · exact ⟨m, rfl⟩

end Loop

def Translates (m : Mmu) (dir : Address) (v physicalAddr : BitVec 32) : Prop :=
  (pageEntry m dir (pageOf v)).present = true ∧
    mmuVirtualToPhysical m (some dir) v = .ok physicalAddr

structure RangeExact (m m' : Mmu) (dir : Address) (virtualStart physicalStart size : BitVec 32) :
    Prop where
  translated : ∀ v : BitVec 32, virtualStart.toNat ≤ v.toNat →
    v.toNat < virtualStart.toNat + size.toNat →
    Translates m' dir v (physicalStart + (v - virtualStart))
  others : ∀ page, (∀ v, pageOf v = page →
      v.toNat < virtualStart.toNat ∨ virtualStart.toNat + size.toNat ≤ v.toNat) →
    pageEntry m' dir page = pageEntry m dir page

def pagesTouched (virtualStart size : BitVec 32) : Nat :=
  (virtualStart.toNat + size.toNat + 4095) / 4096 - virtualStart.toNat / 4096

def RangeFits (virtualStart size : BitVec 32) : Prop :=
  (virtualStart.toNat + size.toNat ≤ 0xFFFFF000 ∧ pagesTouched virtualStart size ≤ mapLimit) ∨
    (0xFFFFF000 < virtualStart.toNat + size.toNat ∧ virtualStart.toNat + size.toNat < 2 ^ 32 ∧
      pagesTouched virtualStart size = mapLimit)

section Counting

variable {vs ps size endAddr : BitVec 32} {n : Nat}

theorem widened_lt_iff : widened page < endAddr ↔ page.toNat * 4096 < endAddr.toNat := by
  rw [BitVec.lt_def, toNat_widened]

theorem turns_of_low (hend : endAddr.toNat ≤ 0xFFFFF000) (n : Nat) (page : BitVec 20) :
    turns endAddr n page = min n ((endAddr.toNat + 4095) / 4096 - page.toNat) := by
  induction n generalizing page with
  | zero => rw [turns, Nat.zero_min]
  | succ n ih =>
    rw [turns]
    split
    · next hlt =>
      rw [widened_lt_iff] at hlt
      have hone : (1 : BitVec 20).toNat = 1 := rfl
      have hnext : (page + 1).toNat = page.toNat + 1 := by
        rw [BitVec.toNat_add, hone]
        omega
      rw [ih, hnext]
      omega
    · next hge =>
      rw [widened_lt_iff] at hge
      omega

theorem turns_of_high (hend : 0xFFFFF000 < endAddr.toNat) (n : Nat) (page : BitVec 20) :
    turns endAddr n page = n := by
  induction n generalizing page with
  | zero => rfl
  | succ n ih =>
    have hlt := page.isLt
    rw [turns, if_pos (widened_lt_iff.mpr (by omega)), ih]

theorem turns_eq_touched_iff (hsize : 1 ≤ size.toNat) (hv : vs.toNat + size.toNat ≤ 2 ^ 32) :
    turns (vs + size) mapLimit (pageOf vs) = pagesTouched vs size ↔ RangeFits vs size := by
  have hlimit : mapLimit = 100000 := rfl
  have hend : (vs + size).toNat = (vs.toNat + size.toNat) % 2 ^ 32 := BitVec.toNat_add vs size
  unfold RangeFits pagesTouched
  rcases Nat.lt_or_ge 0xFFFFF000 (vs + size).toNat with hhigh | hlow
  · rw [turns_of_high hhigh]
    omega
  · rw [turns_of_low hlow, toNat_pageOf]
    omega

end Counting

section Translation

variable {vs ps size : BitVec 32}

theorem toNat_pageOffset (v : BitVec 32) : (pageOffset v).toNat = v.toNat % 4096 := by
  have hmask : (0xFFF : BitVec 32).toNat = 2 ^ 12 - 1 := rfl
  rw [pageOffset, BitVec.toNat_and, hmask, Nat.and_two_pow_sub_one_eq_mod]

theorem toNat_frame_or_offset (f : BitVec 20) (v : BitVec 32) :
    (widened f ||| pageOffset v).toNat = f.toNat * 4096 + v.toNat % 4096 := by
  have hlt : v.toNat % 4096 < 2 ^ 12 := Nat.mod_lt _ (by decide)
  have hshift : f.toNat * 4096 = f.toNat <<< 12 := by
    rw [Nat.shiftLeft_eq]
  rw [BitVec.toNat_or, toNat_widened, toNat_pageOffset, hshift, Nat.shiftLeft_add_eq_or_of_lt hlt]

theorem translates_iff (h : Tabled m da d) :
    Translates m da v p ↔ (pageEntry m da (pageOf v)).present = true ∧
      widened (pageEntry m da (pageOf v)).frame ||| pageOffset v = p := by
  refine and_congr_right fun hon => ?_
  cases hdir : (d (dirIndex (pageOf v))).present with
  | false =>
    rw [pageEntry, tableFor_of_absent h hdir] at hon
    cases hon
  | true =>
    obtain ⟨t, ht⟩ := h.held _ hdir
    have hentry : pageEntry m da (pageOf v) = t (tabIndex (pageOf v)) := by
      rw [pageEntry, tableFor_of_present h hdir, ht, Option.getD_some]
    rw [hentry] at hon ⊢
    simp only [mmuVirtualToPhysical, readDirectory, readTable, h.found, pdIndex_eq, ptIndex_eq, hdir,
      ht, hon, bind, Except.bind, Bool.not_true, Bool.false_eq_true, if_false, Except.ok.injEq]
    rfl

theorem mmuMapRange_ok {answers : Nat → Option Address} (hpos : 1 ≤ size.toNat)
    (hmax : size.toNat ≤ 0x80000000) (m : Mmu) (dir : Option Address) :
    mmuMapRange answers m dir vs ps size flags =
      mapPages answers dir flags (vs + size) mapLimit m (widened (pageOf vs))
        (widened (pageOf ps)) := by
  have hbad : ¬ (size = 0 ∨ 0x80000000 < size) := by
    rintro (rfl | hbig)
    · exact absurd hpos (by decide)
    · have hbig' : (0x80000000 : BitVec 32).toNat < size.toNat := BitVec.lt_def.mp hbig
      have hbound : (0x80000000 : BitVec 32).toNat = 0x80000000 := rfl
      omega
  rw [mmuMapRange, if_neg hbad, pageAlignDown_eq, pageAlignDown_eq]

theorem mapEntry_frame (e : PageTableEntry) (frame : BitVec 20) (flags : BitVec 32) :
    (mapEntry e (widened frame) flags).frame = frame := pageOf_widened frame

theorem page_in_range {v : BitVec 32} (hlow : vs.toNat ≤ v.toNat)
    (hhigh : v.toNat < vs.toNat + size.toNat) :
    (pageOf v - pageOf vs).toNat = v.toNat / 4096 - vs.toNat / 4096 ∧
      v.toNat / 4096 - vs.toNat / 4096 < pagesTouched vs size := by
  have hv := (pageOf v).isLt
  have hstart := (pageOf vs).isLt
  rw [BitVec.toNat_sub]
  rw [toNat_pageOf] at hv hstart ⊢
  rw [toNat_pageOf, pagesTouched]
  omega

theorem page_outside (hpos : 1 ≤ size.toNat) (hv : vs.toNat + size.toNat ≤ 2 ^ 32)
    (hout : ∀ v, pageOf v = page → v.toNat < vs.toNat ∨ vs.toNat + size.toNat ≤ v.toNat) :
    ¬ (page - pageOf vs).toNat < pagesTouched vs size := by
  intro hin
  have hstart := toNat_pageOf vs
  have hpage := page.isLt
  have hvs := vs.isLt
  rw [BitVec.toNat_sub, hstart, pagesTouched] at hin
  -- The last address of the page, or of the range when that comes first, lies in both.
  rcases Nat.lt_or_ge (page.toNat * 4096 + 4095) (vs.toNat + size.toNat) with hfull | hpart
  · have hlast : (BitVec.ofNat 32 (page.toNat * 4096 + 4095)).toNat = page.toNat * 4096 + 4095 := by
      rw [BitVec.toNat_ofNat]
      omega
    have hon : pageOf (BitVec.ofNat 32 (page.toNat * 4096 + 4095)) = page := by
      apply BitVec.eq_of_toNat_eq
      rw [toNat_pageOf, hlast]
      omega
    rcases hout _ hon with hbelow | habove
    · omega
    · omega
  · have hlast : (BitVec.ofNat 32 (vs.toNat + size.toNat - 1)).toNat =
        vs.toNat + size.toNat - 1 := by
      rw [BitVec.toNat_ofNat]
      omega
    have hon : pageOf (BitVec.ofNat 32 (vs.toNat + size.toNat - 1)) = page := by
      apply BitVec.eq_of_toNat_eq
      rw [toNat_pageOf, hlast]
      omega
    rcases hout _ hon with hbelow | habove
    · omega
    · omega

end Translation

section Exactness

variable {vs ps size : BitVec 32} {answers : Nat → Option Address}

theorem rangeExact_of_fits (hcong : vs.toNat % 4096 = ps.toNat % 4096) (hpos : 1 ≤ size.toNat)
    (hmax : size.toNat ≤ 0x80000000) (hv : vs.toNat + size.toNat ≤ 2 ^ 32)
    (hp : ps.toNat + size.toNat ≤ 2 ^ 32) (hflags : flags &&& pagePresent ≠ 0)
    (hfits : RangeFits vs size) (h : Tabled m da d) (hfrom : TablesFrom answers m mapLimit)
    (hcall : mmuMapRange answers m (some da) vs ps size flags = .ok (0, m')) :
    RangeExact m m' da vs ps size := by
  rw [mmuMapRange_ok hpos hmax] at hcall
  obtain ⟨⟨d', h'⟩, hentries⟩ := mapPages_exact h hfrom (by decide) hcall
  rw [(turns_eq_touched_iff hpos hv).mpr hfits] at hentries
  refine ⟨fun v hlow hhigh => ?_, fun page hout => ?_⟩
  · obtain ⟨hdist, hin⟩ := page_in_range hlow hhigh
    have hentry := hentries (pageOf v)
    rw [if_pos (by omega)] at hentry
    rw [translates_iff h', hentry, mapEntry_frame]
    refine ⟨bne_iff_ne.mpr hflags, ?_⟩
    apply BitVec.eq_of_toNat_eq
    have hps := ps.isLt
    have hvs := vs.isLt
    have hv' := v.isLt
    rw [toNat_frame_or_offset, BitVec.toNat_add, hdist, toNat_pageOf, BitVec.toNat_add,
      BitVec.toNat_sub]
    omega
  · rw [hentries page, if_neg (page_outside hpos hv hout)]

def crowdedEntry (vs ps : BitVec 32) (page : BitVec 20) : PageTableEntry :=
  { clearTableEntry with
    present := true
    dirty := true
    frame := pageOf ps + (page - pageOf vs) + 1 }

def crowdedDirectory : PageDirectory := fun i =>
  { clearDirectoryEntry with present := true, tableAddr := i.setWidth 20 + 1 }

def crowdedMmu (vs ps : BitVec 32) : Mmu :=
  { coldMmu with
    tables := fun table =>
      if table.toNat < 0x401000 ∧ table ≠ 0 then
        some fun j => crowdedEntry vs ps (BitVec.ofNat 20 ((table.toNat / 4096 - 1) * 1024 + j.toNat))
      else none
    directories := fun dir => if dir = 0x800000 then some crowdedDirectory else none }

def spareTables (n : Nat) : Option Address := some (BitVec.ofNat 64 (0x1000000 + n * 4096))

theorem toNat_crowdedPointer (i : BitVec 10) :
    (tablePointer (crowdedDirectory i)).toNat = (i.toNat + 1) * 4096 := by
  have hlt := i.isLt
  have hone : (1 : BitVec 20).toNat = 1 := rfl
  have hfield : (i.setWidth 20 + 1).toNat = i.toNat + 1 := by
    rw [BitVec.toNat_add, BitVec.toNat_setWidth, hone]
    omega
  have hlow : (i.setWidth 20 + 1).toNat < 2 ^ 19 := by omega
  have hpointer : tablePointer (crowdedDirectory i) = (widened (i.setWidth 20 + 1)).signExtend 64 :=
    rfl
  rw [hpointer, toNat_decode_of_low hlow, hfield]

theorem crowded_table (vs ps : BitVec 32) (i : BitVec 10) :
    (crowdedMmu vs ps).tables (tablePointer (crowdedDirectory i)) =
      some fun j => crowdedEntry vs ps (BitVec.ofNat 20 (i.toNat * 1024 + j.toNat)) := by
  have hlt := i.isLt
  have haddr := toNat_crowdedPointer i
  have hvalid : tablePointer (crowdedDirectory i) ≠ 0 := by
    intro hzero
    rw [hzero] at haddr
    have hnat : (0 : Address).toNat = 0 := rfl
    omega
  have hquot : (tablePointer (crowdedDirectory i)).toNat / 4096 - 1 = i.toNat := by omega
  simp only [crowdedMmu]
  rw [if_pos ⟨by omega, hvalid⟩, hquot]

theorem tabled_crowded (vs ps : BitVec 32) :
    Tabled (crowdedMmu vs ps) 0x800000 crowdedDirectory := by
  refine ⟨by simp [crowdedMmu], fun i _ => ⟨_, crowded_table vs ps i⟩, fun i j _ _ heq => ?_⟩
  have hnat := congrArg BitVec.toNat heq
  rw [toNat_crowdedPointer, toNat_crowdedPointer] at hnat
  exact BitVec.eq_of_toNat_eq (by omega)

theorem crowded_entry (vs ps : BitVec 32) (page : BitVec 20) :
    pageEntry (crowdedMmu vs ps) 0x800000 page = crowdedEntry vs ps page := by
  have hpage : BitVec.ofNat 20 ((dirIndex page).toNat * 1024 + (tabIndex page).toNat) = page := by
    apply BitVec.eq_of_toNat_eq
    have hlt := page.isLt
    rw [BitVec.toNat_ofNat, toNat_dirIndex, toNat_tabIndex]
    omega
  rw [pageEntry, tableFor_of_present (tabled_crowded vs ps) rfl, crowded_table, Option.getD_some,
    hpage]

theorem toNat_spare {k : Nat} (hk : k < mapLimit) :
    (BitVec.ofNat 64 (0x1000000 + k * 4096)).toNat = 0x1000000 + k * 4096 := by
  have hlimit : mapLimit = 100000 := rfl
  rw [BitVec.toNat_ofNat]
  omega

theorem tablesFrom_spare {m : Mmu} (hfree : ∀ a : Address, 0x1000000 ≤ a.toNat → m.tables a = none) :
    TablesFrom spareTables m mapLimit := by
  have hlimit : mapLimit = 100000 := rfl
  refine ⟨⟨fun k hk a ha => ?_, fun k hk j hj a ha ha' => ?_⟩, fun k hk a ha => ?_⟩
  · obtain rfl := Option.some.inj ha
    apply hfree
    rw [toNat_spare hk]
    omega
  · have hnat := congrArg BitVec.toNat (Option.some.inj (ha.trans ha'.symm))
    rw [toNat_spare hk, toNat_spare hj] at hnat
    omega
  · obtain rfl := Option.some.inj ha
    have hnat := toNat_spare hk
    refine ⟨?_, .inl (by omega)⟩
    rw [pageAligned, beq_iff_eq]
    apply BitVec.eq_of_toNat_eq
    have hmask : (0xFFF : Address).toNat = 2 ^ 12 - 1 := rfl
    have hzero : (0 : Address).toNat = 0 := rfl
    rw [BitVec.toNat_and, hmask, Nat.and_two_pow_sub_one_eq_mod, hnat, hzero]
    omega

theorem spare_valid {k : Nat} (hk : k < mapLimit) : ∃ a ≠ 0, spareTables k = some a := by
  refine ⟨_, fun hzero => ?_, rfl⟩
  have hnat := congrArg BitVec.toNat hzero
  rw [toNat_spare hk] at hnat
  have hnull : (0 : Address).toNat = 0 := rfl
  omega

def CrowdedAfter (vs ps size flags : BitVec 32) (m' : Mmu) : Prop :=
  ∀ page, pageEntry m' 0x800000 page =
    if (page - pageOf vs).toNat < turns (vs + size) mapLimit (pageOf vs) then
      mapEntry (crowdedEntry vs ps page) (widened (pageOf ps + (page - pageOf vs))) flags
    else crowdedEntry vs ps page

theorem crowded_runs (hpos : 1 ≤ size.toNat) (hmax : size.toNat ≤ 0x80000000) :
    ∃ m', mmuMapRange spareTables (crowdedMmu vs ps) (some 0x800000) vs ps size flags =
        .ok (0, m') ∧ (∃ d', Tabled m' 0x800000 d') ∧ CrowdedAfter vs ps size flags m' := by
  have hfree : ∀ a : Address, 0x1000000 ≤ a.toNat → (crowdedMmu vs ps).tables a = none :=
    fun a ha => if_neg fun hin => by omega
  have hfrom := tablesFrom_spare hfree
  have h := tabled_crowded vs ps
  have hnull : (crowdedMmu vs ps).tables 0 = none := by simp [crowdedMmu]
  have htotal : ∃ m', mapPages spareTables (some 0x800000) flags (vs + size) mapLimit
      (crowdedMmu vs ps) (widened (pageOf vs)) (widened (pageOf ps)) = .ok (0, m') :=
    mapPages_total h hfrom (fun k hk => spare_valid hk) hnull _ _
  rw [mmuMapRange_ok hpos hmax]
  obtain ⟨m', hcall⟩ := htotal
  obtain ⟨htabled, hentries⟩ := mapPages_exact h hfrom (by decide) hcall
  refine ⟨m', hcall, htabled, fun page => ?_⟩
  rw [hentries, crowded_entry]

theorem not_translated_of_crowded (h : Tabled m' da d)
    (hentry : pageEntry m' da (pageOf v) = crowdedEntry vs ps (pageOf v))
    (hframe : p.toNat / 4096 = (pageOf ps + (pageOf v - pageOf vs)).toNat) :
    ¬ Translates m' da v p := by
  rw [translates_iff h, hentry]
  rintro ⟨_, rfl⟩
  have hoffset : v.toNat % 4096 < 4096 := Nat.mod_lt _ (by decide)
  have hone : (1 : BitVec 20).toNat = 1 := rfl
  have hshifted : (crowdedEntry vs ps (pageOf v)).frame =
      pageOf ps + (pageOf v - pageOf vs) + 1 := rfl
  have hlt := (pageOf ps + (pageOf v - pageOf vs)).isLt
  rw [toNat_frame_or_offset, hshifted, BitVec.toNat_add, hone] at hframe
  omega

theorem reached_of_exact (hcong : vs.toNat % 4096 = ps.toNat % 4096)
    (hp : ps.toNat + size.toNat ≤ 2 ^ 32) (h' : Tabled m' 0x800000 d)
    (hafter : CrowdedAfter vs ps size flags m')
    (hexact : RangeExact (crowdedMmu vs ps) m' 0x800000 vs ps size)
    (hlow : vs.toNat ≤ v.toNat) (hhigh : v.toNat < vs.toNat + size.toNat) :
    (pageOf v - pageOf vs).toNat < turns (vs + size) mapLimit (pageOf vs) := by
  by_contra hmissed
  have hentry := hafter (pageOf v)
  rw [if_neg hmissed] at hentry
  obtain ⟨hdist, _⟩ := page_in_range hlow hhigh
  refine not_translated_of_crowded h' hentry ?_ (hexact.translated v hlow hhigh)
  have hv := v.isLt
  have hps := ps.isLt
  rw [BitVec.toNat_add ps, BitVec.toNat_add (pageOf ps), hdist, toNat_pageOf, BitVec.toNat_sub]
  omega

theorem turns_le_touched (hafter : CrowdedAfter vs ps size flags m')
    (hexact : RangeExact (crowdedMmu vs ps) m' 0x800000 vs ps size) :
    turns (vs + size) mapLimit (pageOf vs) ≤ pagesTouched vs size := by
  have hlimit : mapLimit = 100000 := rfl
  have hturns := turns_le (vs + size) mapLimit (pageOf vs)
  by_contra hover
  have hnext : (pageOf vs + BitVec.ofNat 20 (pagesTouched vs size) - pageOf vs).toNat =
      pagesTouched vs size := by
    have hcancel : pageOf vs + BitVec.ofNat 20 (pagesTouched vs size) - pageOf vs =
        BitVec.ofNat 20 (pagesTouched vs size) := by bv_omega
    rw [hcancel, BitVec.toNat_ofNat]
    omega
  have hentry := hafter (pageOf vs + BitVec.ofNat 20 (pagesTouched vs size))
  rw [hnext, if_pos (by omega)] at hentry
  have hkept := hexact.others (pageOf vs + BitVec.ofNat 20 (pagesTouched vs size)) fun v hpage => ?_
  · rw [hentry, crowded_entry] at hkept
    cases congrArg PageTableEntry.dirty hkept
  · rw [← hpage] at hnext
    by_contra hin
    have hlow : vs.toNat ≤ v.toNat := by omega
    have hhigh : v.toNat < vs.toNat + size.toNat := by omega
    obtain ⟨hdist, hlt⟩ := page_in_range hlow hhigh
    omega

theorem touched_le_turns (hpos : 1 ≤ size.toNat) (hv : vs.toNat + size.toNat ≤ 2 ^ 32)
    (hreach : ∀ v : BitVec 32, vs.toNat ≤ v.toNat → v.toNat < vs.toNat + size.toNat →
      (pageOf v - pageOf vs).toNat < turns (vs + size) mapLimit (pageOf vs)) :
    pagesTouched vs size ≤ turns (vs + size) mapLimit (pageOf vs) := by
  have hlast : (BitVec.ofNat 32 (vs.toNat + size.toNat - 1)).toNat =
      vs.toNat + size.toNat - 1 := by
    rw [BitVec.toNat_ofNat]
    omega
  have hlow : vs.toNat ≤ (BitVec.ofNat 32 (vs.toNat + size.toNat - 1)).toNat := by omega
  have hhigh : (BitVec.ofNat 32 (vs.toNat + size.toNat - 1)).toNat < vs.toNat + size.toNat := by
    omega
  have hin := hreach _ hlow hhigh
  obtain ⟨hdist, _⟩ := page_in_range hlow hhigh
  unfold pagesTouched
  omega

theorem fits_of_rangeExact (hcong : vs.toNat % 4096 = ps.toNat % 4096) (hpos : 1 ≤ size.toNat)
    (hmax : size.toNat ≤ 0x80000000) (hv : vs.toNat + size.toNat ≤ 2 ^ 32)
    (hp : ps.toNat + size.toNat ≤ 2 ^ 32)
    (hexact : ∀ m', mmuMapRange spareTables (crowdedMmu vs ps) (some 0x800000) vs ps size flags =
      .ok (0, m') → RangeExact (crowdedMmu vs ps) m' 0x800000 vs ps size) :
    flags &&& pagePresent ≠ 0 ∧ RangeFits vs size := by
  obtain ⟨m', hcall, ⟨d', h'⟩, hafter⟩ := crowded_runs hpos hmax
  have hmapped := hexact m' hcall
  have hreach : ∀ v : BitVec 32, vs.toNat ≤ v.toNat → v.toNat < vs.toNat + size.toNat →
      (pageOf v - pageOf vs).toNat < turns (vs + size) mapLimit (pageOf vs) :=
    fun v => reached_of_exact hcong hp h' hafter hmapped
  have hfirst : vs.toNat < vs.toNat + size.toNat := by omega
  constructor
  · have hentry := hafter (pageOf vs)
    rw [if_pos (hreach vs (Nat.le_refl _) hfirst)] at hentry
    have hon := (hmapped.translated vs (Nat.le_refl _) hfirst).1
    rw [hentry] at hon
    exact bne_iff_ne.mp hon
  · apply (turns_eq_touched_iff hpos hv).mp
    exact Nat.le_antisymm (turns_le_touched hafter hmapped) (touched_le_turns hpos hv hreach)

end Exactness

section Results

variable {vs ps size : BitVec 32}

theorem map_range_exact_iff (hcong : vs.toNat % 4096 = ps.toNat % 4096) (hpos : 1 ≤ size.toNat)
    (hmax : size.toNat ≤ 0x80000000) (hv : vs.toNat + size.toNat ≤ 2 ^ 32)
    (hp : ps.toNat + size.toNat ≤ 2 ^ 32) :
    (∀ m dir d answers m', Tabled m dir d → TablesFrom answers m mapLimit →
      mmuMapRange answers m (some dir) vs ps size flags = .ok (0, m') →
      RangeExact m m' dir vs ps size) ↔
    flags &&& pagePresent ≠ 0 ∧ RangeFits vs size := by
  constructor
  · intro hall
    have hfree : ∀ a : Address, 0x1000000 ≤ a.toNat → (crowdedMmu vs ps).tables a = none :=
      fun a ha => if_neg fun hin => by omega
    exact fits_of_rangeExact hcong hpos hmax hv hp fun m' hcall =>
      hall _ _ _ _ m' (tabled_crowded vs ps) (tablesFrom_spare hfree) hcall
  · rintro ⟨hflags, hfits⟩ m dir d answers m' h hfrom hcall
    exact rangeExact_of_fits hcong hpos hmax hv hp hflags hfits h hfrom hcall

theorem map_range_exact_iff_one_page :
    (∀ m dir d answers m', Tabled m dir d → TablesFrom answers m mapLimit →
      mmuMapRange answers m (some dir) 0x400FFF 0x7FFF 2 pagePresent = .ok (0, m') →
      RangeExact m m' dir 0x400FFF 0x7FFF 2) ↔
    pagePresent &&& pagePresent ≠ 0 ∧ RangeFits 0x400FFF 2 :=
  map_range_exact_iff (by decide) (by decide) (by decide) (by decide) (by decide)

theorem last_page_not_mapped :
    ¬ ∀ (m m' : Mmu) (dir : Address) (d : PageDirectory) (answers : Nat → Option Address)
      (vs ps size flags : BitVec 32), vs.toNat % 4096 = ps.toNat % 4096 → 1 ≤ size.toNat →
      size.toNat ≤ 0x80000000 → vs.toNat + size.toNat ≤ 2 ^ 32 → ps.toNat + size.toNat ≤ 2 ^ 32 →
      flags &&& pagePresent ≠ 0 → Tabled m dir d → TablesFrom answers m mapLimit →
      mmuMapRange answers m (some dir) vs ps size flags = .ok (0, m') →
      RangeExact m m' dir vs ps size := by
  intro hall
  have htabled : Tabled oneDirectory 0x10000 fun _ => clearDirectoryEntry :=
    ⟨rfl, fun _ hi => Bool.noConfusion hi, fun _ _ hi => Bool.noConfusion hi⟩
  have hexact := hall oneDirectory oneDirectory 0x10000 _ spareTables 0xFFFFF000 0x1000 0x1000
    pagePresent (by decide) (by decide) (by decide) (by decide) (by decide) (by decide) htabled
    (tablesFrom_spare fun _ _ => rfl) rfl
  have hmapped := (hexact.translated 0xFFFFF000 (by decide) (by decide)).1
  exact absurd hmapped (by decide)

end Results

end ZoraVM.Kernel

import ZoraVM.Kernel.PageTables

namespace ZoraVM.Kernel

open Foundation

def mapEntry (e : PageTableEntry) (physicalAddr flags : BitVec 32) : PageTableEntry :=
  { e with
    present := flags &&& pagePresent != 0
    writable := flags &&& pageWritable != 0
    userMode := flags &&& pageUser != 0
    writeThrough := flags &&& pageWriteThrough != 0
    cacheDisable := flags &&& pageCacheDisable != 0
    accessed := false
    dirty := false
    global := flags &&& pageGlobal != 0
    frame := (physicalAddr >>> pageShift).setWidth 20 }

def newTable (m : Mmu) (da : Address) (d : PageDirectory) (i : BitVec 10) (a : Address) : Mmu :=
  { m with
    tables := Function.update m.tables a (some fun _ => clearTableEntry)
    directories := Function.update m.directories da (some (withTable d i a)) }

variable {m m₁ m' : Mmu} {allocated dir found : Option Address} {da table : Address}
  {i : BitVec 10} {v p flags : BitVec 32} {r : Int} {t : PageTable} {d : PageDirectory}

theorem readDirectory_ok (h : readDirectory m da = .ok d) : m.directories da = some d := by
  unfold readDirectory at h
  split at h
  · next d' hd => rw [hd, Except.ok.inj h]
  · cases h

theorem readTable_ok (h : readTable m table = .ok t) : m.tables table = some t := by
  unfold readTable at h
  split at h
  · next t' ht => rw [ht, Except.ok.inj h]
  · cases h

theorem getOrCreatePageTable_cases (h : getOrCreatePageTable allocated m dir i = .ok (found, m₁)) :
    (found = none ∧ m₁ = m) ∨ ∃ da d table, dir = some da ∧ m.directories da = some d ∧
      found = some table ∧
      (((d i).present = true ∧ table = tablePointer (d i) ∧ table ≠ 0 ∧ m₁ = m) ∨
        ((d i).present = false ∧ allocated = some table ∧ m₁ = newTable m da d i table)) := by
  cases dir with
  | none =>
    obtain ⟨rfl, rfl⟩ := Prod.mk.inj (Except.ok.inj h)
    exact .inl ⟨rfl, rfl⟩
  | some da =>
    obtain ⟨d, hd, hrest⟩ := Outcome.bind_eq_ok.mp h
    cases hp : (d i).present with
    | true =>
      rw [hp, if_pos rfl] at hrest
      split at hrest
      · obtain ⟨rfl, rfl⟩ := Prod.mk.inj (Except.ok.inj hrest)
        exact .inl ⟨rfl, rfl⟩
      · next hnull =>
        obtain ⟨rfl, rfl⟩ := Prod.mk.inj (Except.ok.inj hrest)
        exact .inr ⟨da, d, _, rfl, readDirectory_ok hd, rfl, .inl ⟨hp, rfl, hnull, rfl⟩⟩
    | false =>
      rw [hp, if_neg Bool.false_ne_true] at hrest
      cases allocated with
      | none =>
        obtain ⟨rfl, rfl⟩ := Prod.mk.inj (Except.ok.inj hrest)
        exact .inl ⟨rfl, rfl⟩
      | some a =>
        obtain ⟨rfl, rfl⟩ := Prod.mk.inj (Except.ok.inj hrest)
        exact .inr ⟨da, d, a, rfl, readDirectory_ok hd, rfl, .inr ⟨hp, rfl, rfl⟩⟩

theorem mmuMapPage_cases (h : mmuMapPage allocated m dir v p flags = .ok (r, m')) :
    (r = -1 ∧ m' = m) ∨ ∃ table m₁ t,
      getOrCreatePageTable allocated m dir (pdIndex v) = .ok (some table, m₁) ∧
      m₁.tables table = some t ∧ r = 0 ∧
      m' = mmuFlushTlbSingle
        (writeTableEntry m₁ table t (ptIndex v) (mapEntry (t (ptIndex v)) p flags)) v := by
  obtain ⟨⟨found, m₁⟩, hcreate, hrest⟩ := Outcome.bind_eq_ok.mp h
  cases found with
  | none =>
    obtain ⟨rfl, rfl⟩ := Prod.mk.inj (Except.ok.inj hrest)
    rcases getOrCreatePageTable_cases hcreate with ⟨_, rfl⟩ | ⟨_, _, _, _, _, hf, _⟩
    · exact .inl ⟨rfl, rfl⟩
    · cases hf
  | some table =>
    obtain ⟨t, ht, hrest⟩ := Outcome.bind_eq_ok.mp hrest
    obtain ⟨rfl, rfl⟩ := Prod.mk.inj (Except.ok.inj hrest)
    exact .inr ⟨table, m₁, t, hcreate, readTable_ok ht, rfl, rfl⟩

theorem mmuUnmapPage_cases (h : mmuUnmapPage m dir v = .ok (r, m')) :
    m' = m ∨ ∃ da d t, dir = some da ∧ m.directories da = some d ∧
      (d (pdIndex v)).present = true ∧ m.tables (tablePointer (d (pdIndex v))) = some t ∧
      (t (ptIndex v)).present = true ∧
      m' = mmuFlushTlbSingle
        (writeTableEntry (mmuFreeFrame m ((t (ptIndex v)).frame.setWidth 32))
          (tablePointer (d (pdIndex v))) t (ptIndex v) clearTableEntry) v := by
  cases dir with
  | none => exact .inl (Prod.mk.inj (Except.ok.inj h)).2.symm
  | some da =>
    obtain ⟨d, hd, hrest⟩ := Outcome.bind_eq_ok.mp h
    split at hrest
    · exact .inl (Prod.mk.inj (Except.ok.inj hrest)).2.symm
    · next hp =>
      obtain ⟨t, ht, hrest⟩ := Outcome.bind_eq_ok.mp hrest
      dsimp only at hrest
      split at hrest
      · next he =>
        refine .inr ⟨da, d, t, rfl, readDirectory_ok hd, by simpa using hp, readTable_ok ht, he, ?_⟩
        exact (Prod.mk.inj (Except.ok.inj hrest)).2.symm
      · exact .inl (Prod.mk.inj (Except.ok.inj hrest)).2.symm

theorem mmuStep_eq {c : MmuCall} (h : mmuStep m c = some m') : mmuCall m c = .ok m' := by
  unfold mmuStep at h
  cases hc : mmuCall m c with
  | error e => simp [hc, Except.toOption] at h
  | ok t => simpa [hc, Except.toOption] using h

section Frames

theorem frames_getOrCreate (h : getOrCreatePageTable allocated m dir i = .ok (found, m₁)) :
    m₁.gFrameAllocator = m.gFrameAllocator := by
  rcases getOrCreatePageTable_cases h with ⟨_, rfl⟩ | ⟨_, _, _, _, _, _, ⟨_, _, _, rfl⟩ | ⟨_, _, rfl⟩⟩
  · rfl
  · rfl
  · rfl

theorem frames_mmuMapPage (h : mmuMapPage allocated m dir v p flags = .ok (r, m')) :
    m'.gFrameAllocator = m.gFrameAllocator := by
  rcases mmuMapPage_cases h with ⟨_, rfl⟩ | ⟨_, m₁, _, hcreate, _, _, rfl⟩
  · rfl
  · have hsame : m₁.gFrameAllocator = m.gFrameAllocator := frames_getOrCreate hcreate
    exact hsame

theorem frames_create (allocated : Option Address) (m : Mmu) :
    (mmuCreatePageDirectory allocated m).2.gFrameAllocator = m.gFrameAllocator := by
  cases allocated <;> rfl

def withoutTables (m : Mmu) (d : PageDirectory) (is : List (Fin 1024)) : Mmu :=
  is.foldl (fun m i =>
    { m with tables := Function.update m.tables (tablePointer (d (BitVec.ofFin i))) none }) m

def usedEntries (d : PageDirectory) : List (Fin 1024) :=
  (List.finRange 1024).filter fun i => (d (BitVec.ofFin i)).present

theorem mmuDestroyPageDirectory_cases (h : mmuDestroyPageDirectory m dir = .ok m') :
    m' = m ∨ ∃ da d, dir = some da ∧ m.directories da = some d ∧
      m' = { withoutTables m d (usedEntries d) with
        directories := Function.update (withoutTables m d (usedEntries d)).directories da none } := by
  cases dir with
  | none => exact .inl (Except.ok.inj h).symm
  | some da =>
    obtain ⟨d, hd, hrest⟩ := Outcome.bind_eq_ok.mp h
    exact .inr ⟨da, d, rfl, readDirectory_ok hd, (Except.ok.inj hrest).symm⟩

theorem frames_withoutTables (d : PageDirectory) (is : List (Fin 1024)) :
    (withoutTables m d is).gFrameAllocator = m.gFrameAllocator := by
  induction is generalizing m with
  | nil => rfl
  | cons i is ih => exact ih

theorem frames_destroy (h : mmuDestroyPageDirectory m dir = .ok m') :
    m'.gFrameAllocator = m.gFrameAllocator := by
  rcases mmuDestroyPageDirectory_cases h with rfl | ⟨da, d, _, _, heq⟩
  · rfl
  · have hsame := frames_withoutTables (m := m) d (usedEntries d)
    generalize withoutTables m d (usedEntries d) = u at heq hsame
    rw [heq]
    exact hsame

end Frames

end ZoraVM.Kernel

import ZoraVM.Package.PackageManager

namespace ZoraVM.Package

open Foundation

def PackageInfo.installed (pkg : PackageInfo) : Bool := pkg.status = .installed

def installedCount (pm : PackageManager) : Nat := pm.packages.countP PackageInfo.installed

def installedSize (pm : PackageManager) : Nat :=
  ((pm.packages.filter PackageInfo.installed).map fun pkg => pkg.sizeInstalled.toNat).sum

structure CountersAgree (pm : PackageManager) : Prop where
  counted : pm.totalPackagesInstalled = installedCount pm
  sized : pm.totalInstalledSize.toNat = installedSize pm

structure CountersKept (pm : PackageManager) : Prop where
  counted : pm.totalPackagesInstalled = installedCount pm
  sized : pm.totalInstalledSize = BitVec.ofNat 64 (installedSize pm)

def pmStep (pm : PackageManager) (c : PackageCall) : Option PackageManager := (pmCall (some pm) c).1

abbrev PackageRun := Run pmStep (fun _ _ => True)

section Counters

variable {pm pm' : PackageManager} {old new : PackageInfo} {c : PackageCall}

theorem CountersAgree.kept (h : CountersAgree pm) : CountersKept pm := by
  refine ⟨h.counted, ?_⟩
  rw [← h.sized, BitVec.ofNat_toNat, BitVec.setWidth_eq]

theorem Installs.count (h : Installs pm pm' old new) :
    installedCount pm' = installedCount pm + 1 := by
  obtain ⟨pre, post, hl, hl'⟩ := h.place
  have hold : old.installed = false := decide_eq_false h.before
  have hnew : new.installed = true := decide_eq_true h.after
  rw [installedCount, installedCount, hl, hl', List.countP_append, List.countP_append,
    List.countP_cons, List.countP_cons, hold, hnew]
  simp only [if_true, Bool.false_eq_true, if_false]
  omega

theorem Installs.size_eq (h : Installs pm pm' old new) :
    installedSize pm' = installedSize pm + old.sizeInstalled.toNat := by
  obtain ⟨pre, post, hl, hl'⟩ := h.place
  have hold : ¬ old.installed = true := fun hinst => h.before (of_decide_eq_true hinst)
  have hnew : new.installed = true := decide_eq_true h.after
  rw [installedSize, installedSize, hl, hl', List.filter_append, List.filter_append,
    List.filter_cons_of_neg hold, List.filter_cons_of_pos hnew]
  simp only [List.map_append, List.map_cons, List.sum_append, List.sum_cons, h.size]
  omega

theorem Removes.count (h : Removes pm pm' old new) :
    installedCount pm = installedCount pm' + 1 := by
  obtain ⟨pre, post, hl, hl'⟩ := h.place
  have hold : old.installed = true := decide_eq_true h.before
  have hnew : new.installed = false := decide_eq_false h.after
  rw [installedCount, installedCount, hl, hl', List.countP_append, List.countP_append,
    List.countP_cons, List.countP_cons, hold, hnew]
  simp only [if_true, Bool.false_eq_true, if_false]
  omega

theorem Removes.size_eq (h : Removes pm pm' old new) :
    installedSize pm = installedSize pm' + old.sizeInstalled.toNat := by
  obtain ⟨pre, post, hl, hl'⟩ := h.place
  have hold : old.installed = true := decide_eq_true h.before
  have hnew : ¬ new.installed = true := fun hinst => h.after (of_decide_eq_true hinst)
  rw [installedSize, installedSize, hl, hl', List.filter_append, List.filter_append,
    List.filter_cons_of_pos hold, List.filter_cons_of_neg hnew]
  simp only [List.map_append, List.map_cons, List.sum_append, List.sum_cons]
  omega

theorem Installs.kept (h : Installs pm pm' old new) (hpm : CountersKept pm) : CountersKept pm' := by
  refine ⟨?_, ?_⟩
  · rw [h.counted, hpm.counted, h.count]
    rfl
  · rw [h.sized, hpm.sized, h.size_eq, BitVec.ofNat_add, BitVec.ofNat_toNat, BitVec.setWidth_eq]

theorem Removes.kept (h : Removes pm pm' old new) (hpm : CountersKept pm) : CountersKept pm' := by
  refine ⟨?_, ?_⟩
  · rw [h.counted, hpm.counted, h.count]
    push_cast
    omega
  · rw [h.sized, hpm.sized, h.size_eq, BitVec.ofNat_add, BitVec.ofNat_toNat, BitVec.setWidth_eq,
      BitVec.add_sub_cancel]

theorem countersKept_step (hpm : CountersKept pm) (hs : pmStep pm c = some pm') :
    CountersKept pm' := by
  rcases pmCall_cases pm c with ⟨r, hsame, -⟩ | ⟨t, old, new, -, hinstalls, -, hdone⟩ |
    ⟨t, old, new, -, hremoves, -, hdone⟩
  · rw [pmStep, hsame] at hs
    exact Option.some.inj hs ▸ hpm
  · rw [pmStep, hdone] at hs
    exact Option.some.inj hs ▸ hinstalls.kept hpm
  · rw [pmStep, hdone] at hs
    exact Option.some.inj hs ▸ hremoves.kept hpm

theorem CountersKept.exact (h : CountersKept pm) (hfits : installedSize pm < 2 ^ 64) :
    CountersAgree pm := by
  refine ⟨h.counted, ?_⟩
  rw [h.sized, BitVec.toNat_ofNat, Nat.mod_eq_of_lt hfits]

theorem Removes.no_underflow (h : Removes pm pm' old new) (hpm : CountersKept pm)
    (hfits : installedSize pm < 2 ^ 64) :
    pm'.totalInstalledSize.toNat + old.sizeInstalled.toNat = pm.totalInstalledSize.toNat := by
  have hsize := h.size_eq
  rw [(hpm.exact hfits).sized, ((h.kept hpm).exact (by omega)).sized, hsize]

def EssentialAt (pm : PackageManager) (i : Nat) : Prop :=
  ∃ pkg, pm.packages[i]? = some pkg ∧ pkg.isEssential = true ∧ pkg.status = .installed

theorem Replaces.getElem? (h : Replaces pm pm' old new) (i : Nat) :
    pm'.packages[i]? = pm.packages[i]? ∨
      pm.packages[i]? = some old ∧ pm'.packages[i]? = some new := by
  obtain ⟨pre, post, hl, hl'⟩ := h.place
  rw [hl, hl']
  rcases Nat.lt_trichotomy i pre.length with hlt | heq | hgt
  · exact .inl (by rw [List.getElem?_append_left hlt, List.getElem?_append_left hlt])
  · exact .inr (by simp [heq])
  · left
    obtain ⟨k, rfl⟩ := Nat.exists_eq_add_of_lt hgt
    rw [List.getElem?_append_right (by omega), List.getElem?_append_right (by omega)]
    simp [Nat.add_assoc]

theorem Replaces.essentialAt (h : Replaces pm pm' old new) {i : Nat} (hi : EssentialAt pm i)
    (hkeeps : old.isEssential = true → old.status = .installed → new.status = .installed) :
    EssentialAt pm' i := by
  obtain ⟨pkg, hpkg, hessential, hstatus⟩ := hi
  rcases h.getElem? i with hsame | ⟨hold, hnew⟩
  · exact ⟨pkg, hsame.trans hpkg, hessential, hstatus⟩
  · obtain rfl := Option.some.inj (hold.symm.trans hpkg)
    exact ⟨new, hnew, h.essential.trans hessential, hkeeps hessential hstatus⟩

theorem essentialAt_step {i : Nat} (h : EssentialAt pm i) (hs : pmStep pm c = some pm') :
    EssentialAt pm' i := by
  rcases pmCall_cases pm c with ⟨r, hsame, -⟩ | ⟨t, old, new, -, hinstalls, -, hdone⟩ |
    ⟨t, old, new, -, hremoves, -, hdone⟩
  · rw [pmStep, hsame] at hs
    exact Option.some.inj hs ▸ h
  · rw [pmStep, hdone] at hs
    obtain rfl := Option.some.inj hs
    exact hinstalls.toReplaces.essentialAt h fun _ _ => hinstalls.after
  · rw [pmStep, hdone] at hs
    obtain rfl := Option.some.inj hs
    refine hremoves.toReplaces.essentialAt h fun hessential _ => ?_
    rw [hremoves.optional] at hessential
    cases hessential

theorem failed_call (pm : PackageManager) (c : PackageCall) (h : (pmCall (some pm) c).2.1 = -1) :
    (pmCall (some pm) c).1 = some pm := by
  rcases pmCall_cases pm c with ⟨r, hsame, -⟩ | ⟨t, old, new, -, -, -, hdone⟩ |
    ⟨t, old, new, -, -, -, hdone⟩
  · rw [hsame]
  · rw [hdone] at h
    cases h
  · rw [hdone] at h
    cases h

theorem removal_shrinks (hpm : CountersKept pm) (hfits : installedSize pm < 2 ^ 64)
    (hremoves : c.removes = true) (hs : pmStep pm c = some pm') :
    pm'.totalInstalledSize.toNat ≤ pm.totalInstalledSize.toNat := by
  rcases pmCall_cases pm c with ⟨r, hsame, -⟩ | ⟨t, old, new, ⟨now, hc⟩, -⟩ |
    ⟨t, old, new, -, hrem, -, hdone⟩
  · rw [pmStep, hsame] at hs
    exact Option.some.inj hs ▸ Nat.le_refl _
  · rw [hc] at hremoves
    cases hremoves
  · rw [pmStep, hdone] at hs
    obtain rfl := Option.some.inj hs
    have hsum := hrem.no_underflow hpm hfits
    omega

theorem package_bookkeeping {pm₀ : PackageManager} {calls : List PackageCall}
    (hstart : CountersAgree pm₀) (hrun : PackageRun pm₀ calls pm) :
    CountersKept pm ∧ (installedSize pm < 2 ^ 64 → CountersAgree pm) ∧
      (∀ i, EssentialAt pm₀ i → EssentialAt pm i) ∧
      ∀ c, ((pmCall (some pm) c).2.1 = -1 → (pmCall (some pm) c).1 = some pm) ∧
        ∀ pm', pmStep pm c = some pm' → (∀ i, EssentialAt pm i → EssentialAt pm' i) ∧
          (c.removes = true → installedSize pm < 2 ^ 64 →
            pm'.totalInstalledSize.toNat ≤ pm.totalInstalledSize.toNat) := by
  have hkept : CountersKept pm :=
    hrun.invariant hstart.kept fun pm c pm' hpm _ hs => countersKept_step hpm hs
  refine ⟨hkept, hkept.exact, fun i hi => ?_, fun c => ⟨failed_call pm c, fun pm' hs => ⟨?_, ?_⟩⟩⟩
  · exact hrun.invariant (P := fun pm => EssentialAt pm i) hi fun pm c pm' hpm _ hs =>
      essentialAt_step hpm hs
  · exact fun i hi => essentialAt_step hi hs
  · exact fun hremoves hfits => removal_shrinks hkept hfits hremoves hs

def aPackage (name : Bytes) (status : PackageStatus) (size : BitVec 64)
    (dependencies : List PackageDependency) (essential : Bool) : PackageInfo where
  name := name
  status := status
  sizeInstalled := size
  installDate := 0
  installPath := []
  dependencies := dependencies
  installedFiles := []
  isEssential := essential

def smallDatabase : PackageManager where
  packages := [aPackage (str "libc") .installed 300 [] true,
    aPackage (str "vim") .notInstalled 40 [⟨str "libc", .requires⟩] false]
  totalInstalledSize := 300
  totalPackagesInstalled := 1
  fits := by decide

def pmRan (pm : PackageManager) (calls : List PackageCall) : PackageManager :=
  (exec (guarded pmStep fun _ _ => true) pm calls).getD pm

theorem pmRan_run {calls : List PackageCall}
    (h : (exec (guarded pmStep fun _ _ => true) pm calls).isSome = true) :
    PackageRun pm calls (pmRan pm calls) :=
  (Run.of_exec_isSome h).mono fun _ _ _ => trivial

def editorCalls : List PackageCall :=
  [.install (str "vim") 7, .remove (str "libc"), .install (str "emacs") 8, .purge (str "vim")]

theorem package_bookkeeping_editor :
    CountersKept (pmRan smallDatabase editorCalls) ∧
      (installedSize (pmRan smallDatabase editorCalls) < 2 ^ 64 →
        CountersAgree (pmRan smallDatabase editorCalls)) ∧
      (∀ i, EssentialAt smallDatabase i → EssentialAt (pmRan smallDatabase editorCalls) i) ∧
      ∀ c, ((pmCall (some (pmRan smallDatabase editorCalls)) c).2.1 = -1 →
          (pmCall (some (pmRan smallDatabase editorCalls)) c).1 =
            some (pmRan smallDatabase editorCalls)) ∧
        ∀ pm', pmStep (pmRan smallDatabase editorCalls) c = some pm' →
          (∀ i, EssentialAt (pmRan smallDatabase editorCalls) i → EssentialAt pm' i) ∧
          (c.removes = true → installedSize (pmRan smallDatabase editorCalls) < 2 ^ 64 →
            pm'.totalInstalledSize.toNat ≤
              (pmRan smallDatabase editorCalls).totalInstalledSize.toNat) :=
  package_bookkeeping ⟨by decide +kernel, by decide +kernel⟩ (pmRan_run (by decide +kernel))

def hugeDatabase : PackageManager where
  packages := [aPackage (str "left") .notInstalled 0x8000000000000000 [] false,
    aPackage (str "right") .notInstalled 0x8000000000000000 [] false]
  totalInstalledSize := 0
  totalPackagesInstalled := 0
  fits := by decide

theorem size_counter_wraps : ¬ ∀ (pm₀ pm : PackageManager) (calls : List PackageCall),
    CountersAgree pm₀ → PackageRun pm₀ calls pm → CountersAgree pm := by
  intro hall
  have hagree := hall hugeDatabase _ [.install (str "left") 1, .install (str "right") 2]
    ⟨by decide +kernel, by decide +kernel⟩ (pmRan_run (by decide +kernel))
  exact absurd hagree.sized (by decide +kernel)

end Counters

end ZoraVM.Package

import ZoraVM.Package.Bookkeeping

namespace ZoraVM.Package

open Foundation

def Closed (pm : PackageManager) : Prop :=
  ∀ pkg ∈ pm.packages, pkg.status = .installed → ∀ dep ∈ pkg.dependencies, dep.type = .requires →
    packageInstalled pm dep.packageName = true

-- A database and the warnings that pm_remove_package has given: who depends on what is removed.
structure PackageWorld where
  manager : PackageManager
  warned : List (Bytes × Bytes)

def PackageWorld.step (w : PackageWorld) (c : PackageCall) : Option PackageWorld :=
  (pmStep w.manager c).map fun pm =>
    let told := if c.removes then (pmCall (some w.manager) c).2.2 else []
    ⟨pm, w.warned ++ told.map fun other => (other, c.name)⟩

def requirementsMet (pm : PackageManager) : PackageCall → Bool
  | .install packageName _ =>
    (findPackage pm packageName).all fun found =>
      found.2.dependencies.all fun dep => dep.type = .requires →
        dep.packageName = packageName ∨ packageInstalled pm dep.packageName = true
  | _ => true

section Closure

variable {pm pm' : PackageManager} {old new pkg : PackageInfo} {name : Bytes}

theorem packageInstalled_iff : packageInstalled pm name = true ↔
    ∃ pkg ∈ pm.packages, pkg.name = name ∧ pkg.status = .installed := by
  simp [packageInstalled]

def Accounted (w : PackageWorld) : Prop :=
  ∀ pkg ∈ w.manager.packages, pkg.status = .installed → ∀ dep ∈ pkg.dependencies,
    dep.type = .requires → packageInstalled w.manager dep.packageName = true ∨
      (pkg.name, dep.packageName) ∈ w.warned

theorem Replaces.mem_new (h : Replaces pm pm' old new) (hpkg : pkg ∈ pm'.packages) :
    pkg = new ∨ pkg ∈ pm.packages := by
  obtain ⟨pre, post, hl, hl'⟩ := h.place
  rw [hl'] at hpkg
  rw [hl]
  simp only [List.mem_append, List.mem_cons] at hpkg ⊢
  tauto

theorem Replaces.mem_old (h : Replaces pm pm' old new) (hpkg : pkg ∈ pm.packages) :
    pkg = old ∨ pkg ∈ pm'.packages := by
  obtain ⟨pre, post, hl, hl'⟩ := h.place
  rw [hl] at hpkg
  rw [hl']
  simp only [List.mem_append, List.mem_cons] at hpkg ⊢
  tauto

theorem Replaces.new_mem (h : Replaces pm pm' old new) : new ∈ pm'.packages := by
  obtain ⟨pre, post, -, hl'⟩ := h.place
  rw [hl']
  exact List.mem_append_right pre List.mem_cons_self

theorem Installs.mono (h : Installs pm pm' old new) (hname : packageInstalled pm name = true) :
    packageInstalled pm' name = true := by
  obtain ⟨pkg, hmem, hpkg, hstatus⟩ := packageInstalled_iff.mp hname
  rcases h.toReplaces.mem_old hmem with rfl | hmem'
  · exact absurd hstatus h.before
  · exact packageInstalled_iff.mpr ⟨pkg, hmem', hpkg, hstatus⟩

theorem Removes.lost (h : Removes pm pm' old new) (hname : packageInstalled pm name = true) :
    packageInstalled pm' name = true ∨ name = old.name := by
  obtain ⟨pkg, hmem, hpkg, hstatus⟩ := packageInstalled_iff.mp hname
  rcases h.toReplaces.mem_old hmem with rfl | hmem'
  · exact .inr hpkg.symm
  · exact .inl (packageInstalled_iff.mpr ⟨pkg, hmem', hpkg, hstatus⟩)

theorem mem_reverseDependencies {dep : PackageDependency} (hpkg : pkg ∈ pm.packages)
    (hstatus : pkg.status = .installed) (hdep : dep ∈ pkg.dependencies) :
    pkg.name ∈ reverseDependencies pm dep.packageName := by
  refine List.mem_flatMap.mpr ⟨pkg, List.mem_filter.mpr ⟨hpkg, decide_eq_true hstatus⟩, ?_⟩
  exact List.mem_map.mpr ⟨dep, List.mem_filter.mpr ⟨hdep, decide_eq_true rfl⟩, rfl⟩

theorem Installs.accounted {warned : List (Bytes × Bytes)} {now : Int}
    (h : Installs pm pm' old new) {i : Nat} (hfound : findPackage pm name = some (i, old))
    (hmet : requirementsMet pm (.install name now) = true) (hw : Accounted ⟨pm, warned⟩) :
    Accounted ⟨pm', warned⟩ := by
  intro pkg hpkg hstatus dep hdep hrequires
  rcases h.toReplaces.mem_new hpkg with rfl | hmem
  · left
    rw [h.dependencies] at hdep
    obtain ⟨-, -, -, hname, -⟩ := findPackage_some hfound
    simp only [requirementsMet, hfound, Option.all_some] at hmet
    rcases of_decide_eq_true (List.all_eq_true.mp hmet dep hdep) hrequires with hself | hinstalled
    · refine packageInstalled_iff.mpr ⟨pkg, hpkg, ?_, hstatus⟩
      rw [h.name, hself, hname]
    · exact h.mono hinstalled
  · rcases hw pkg hmem hstatus dep hdep hrequires with hinstalled | hwarned
    · exact .inl (h.mono hinstalled)
    · exact .inr hwarned

theorem Removes.accounted {warned : List (Bytes × Bytes)} (h : Removes pm pm' old new)
    (hw : Accounted ⟨pm, warned⟩) : Accounted
      ⟨pm', warned ++ (reverseDependencies pm old.name).map fun other => (other, old.name)⟩ := by
  intro pkg hpkg hstatus dep hdep hrequires
  rcases h.toReplaces.mem_new hpkg with rfl | hmem
  · exact absurd hstatus h.after
  · rcases hw pkg hmem hstatus dep hdep hrequires with hinstalled | hwarned
    · rcases h.lost hinstalled with hstill | hgone
      · exact .inl hstill
      · refine .inr (List.mem_append_right warned (List.mem_map.mpr ⟨pkg.name, ?_, ?_⟩))
        · rw [← hgone]
          exact mem_reverseDependencies hmem hstatus hdep
        · rw [hgone]
    · exact .inr (List.mem_append_left _ hwarned)

theorem accounted_step {w w' : PackageWorld} {c : PackageCall} (hw : Accounted w)
    (hmet : requirementsMet w.manager c = true) (hs : w.step c = some w') : Accounted w' := by
  obtain ⟨pm', hstep, rfl⟩ := Option.map_eq_some_iff.mp hs
  rcases pmCall_cases w.manager c with ⟨r, hsame, -⟩ |
    ⟨t, old, new, ⟨now, hc⟩, hinstalls, ⟨i, hfound⟩, hdone⟩ | ⟨t, old, new, hc, hremoves, hname, hdone⟩
  · rw [pmStep, hsame] at hstep
    obtain rfl := Option.some.inj hstep
    have htold : (if c.removes = true then (pmCall (some w.manager) c).2.2 else []) = [] := by
      rw [hsame, ite_self]
    dsimp only
    rw [htold, List.map_nil, List.append_nil]
    exact hw
  · rw [pmStep, hdone] at hstep
    obtain rfl := Option.some.inj hstep
    have hremoves : c.removes = false := by rw [hc]; rfl
    rw [hc] at hmet
    dsimp only
    rw [hremoves, if_neg Bool.false_ne_true, List.map_nil, List.append_nil]
    exact hinstalls.accounted hfound hmet hw
  · rw [pmStep, hdone] at hstep
    obtain rfl := Option.some.inj hstep
    rw [if_pos hc, hdone, ← hname]
    exact hremoves.accounted hw

theorem dependencies_accounted {pm₀ : PackageManager} {calls : List PackageCall} {w : PackageWorld}
    (hclosed : Closed pm₀)
    (hrun : Run PackageWorld.step (fun w c => requirementsMet w.manager c = true) ⟨pm₀, []⟩ calls w) :
    Accounted w ∧ (w.warned = [] → Closed w.manager) := by
  have hw : Accounted w := by
    refine hrun.invariant (P := Accounted) ?_ fun w c w' hw hmet hs => accounted_step hw hmet hs
    intro pkg hpkg hstatus dep hdep hrequires
    exact .inl (hclosed pkg hpkg hstatus dep hdep hrequires)
  refine ⟨hw, fun hnone pkg hpkg hstatus dep hdep hrequires => ?_⟩
  rcases hw pkg hpkg hstatus dep hdep hrequires with hinstalled | hwarned
  · exact hinstalled
  · rw [hnone] at hwarned
    cases hwarned

def closedDatabase : PackageManager where
  packages := [aPackage (str "ncurses") .installed 30 [] false,
    aPackage (str "vim") .notInstalled 40 [⟨str "ncurses", .requires⟩, ⟨str "ctags", .suggests⟩] false]
  totalInstalledSize := 30
  totalPackagesInstalled := 1
  fits := by decide

instance : DecidablePred Closed := fun pm => inferInstanceAs (Decidable (∀ pkg ∈ pm.packages,
  pkg.status = .installed → ∀ dep ∈ pkg.dependencies, dep.type = .requires →
    packageInstalled pm dep.packageName = true))

def removedAnyway : List PackageCall := [.install (str "vim") 7, .remove (str "ncurses")]

def packageRan (calls : List PackageCall) : PackageWorld :=
  (exec (guarded PackageWorld.step fun w c => requirementsMet w.manager c) ⟨closedDatabase, []⟩
    calls).getD ⟨closedDatabase, []⟩

theorem dependencies_accounted_vim :
    Accounted (packageRan removedAnyway) ∧
      ((packageRan removedAnyway).warned = [] → Closed (packageRan removedAnyway).manager) :=
  dependencies_accounted (by decide +kernel) (Run.of_exec_isSome (by decide +kernel))

theorem removal_breaks_closure : ¬ ∀ (pm₀ pm : PackageManager) (calls : List PackageCall),
    Closed pm₀ → Run pmStep (fun pm c => (pmCall (some pm) c).2.1 = 0) pm₀ calls pm → Closed pm := by
  intro hall
  have hrun : (exec (guarded pmStep fun pm c => (pmCall (some pm) c).2.1 = 0) closedDatabase
      removedAnyway).isSome = true := by decide +kernel
  have hclosed := hall closedDatabase _ removedAnyway (by decide +kernel)
    ((Run.of_exec_isSome hrun).mono fun _ _ h => of_decide_eq_true h)
  exact absurd hclosed (by decide +kernel)

end Closure

end ZoraVM.Package

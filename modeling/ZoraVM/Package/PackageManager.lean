import ZoraVM.Foundation.CString
import ZoraVM.Foundation.Run

namespace ZoraVM.Package

open Foundation

def maxPackages : Nat := 1000

inductive PackageStatus where
  | notInstalled
  | installed
  | upgradable
  | broken
  | held
  | removing
  | installing
  deriving DecidableEq, Repr

inductive DependencyType where
  | requires
  | suggests
  | conflicts
  | provides
  | replaces
  deriving DecidableEq, Repr

structure PackageDependency where
  packageName : Bytes
  type : DependencyType
  deriving DecidableEq, Repr

structure PackageInfo where
  name : Bytes
  status : PackageStatus
  sizeInstalled : BitVec 64
  installDate : Int
  installPath : Bytes
  dependencies : List PackageDependency
  installedFiles : List Bytes
  isEssential : Bool
  deriving DecidableEq, Repr

structure PackageManager where
  packages : List PackageInfo
  totalInstalledSize : BitVec 64
  totalPackagesInstalled : Int
  fits : packages.length ≤ maxPackages
  deriving DecidableEq, Repr

def findPackage (pm : PackageManager) (packageName : Bytes) : Option (Nat × PackageInfo) :=
  (pm.packages.findIdx? fun pkg => pkg.name = packageName).bind fun i =>
    pm.packages[i]?.map fun pkg => (i, pkg)

def PackageManager.put (pm : PackageManager) (i : Nat) (pkg : PackageInfo) : PackageManager :=
  { pm with packages := pm.packages.set i pkg, fits := List.length_set.trans_le pm.fits }

def packageInstalled (pm : PackageManager) (packageName : Bytes) : Bool :=
  pm.packages.any fun pkg => pkg.name = packageName ∧ pkg.status = .installed

def installedFilesOf (name : Bytes) : List Bytes :=
  [str "/usr/local/bin/" ++ name, str "/usr/local/lib/lib" ++ name ++ str ".so",
    str "/usr/local/share/" ++ name ++ str "/README"]

def PackageInfo.install (pkg : PackageInfo) (now : Int) : PackageInfo :=
  { pkg with
    status := .installed
    installDate := now
    installPath := str "/usr/local"
    installedFiles := installedFilesOf pkg.name }

def PackageInfo.remove (pkg : PackageInfo) : PackageInfo :=
  { pkg with status := .notInstalled, installedFiles := [] }

-- The dependencies of which pm_install_package says that they will be installed.
def missingDependencies (pm : PackageManager) (pkg : PackageInfo) : List Bytes :=
  (pkg.dependencies.filter fun dep =>
    dep.type = .requires ∧ packageInstalled pm dep.packageName = false).map (·.packageName)

-- The packages of which pm_remove_package warns that they depend on the one it removes.
def reverseDependencies (pm : PackageManager) (packageName : Bytes) : List Bytes :=
  (pm.packages.filter fun other => other.status = .installed).flatMap fun other =>
    (other.dependencies.filter fun dep => dep.packageName = packageName).map fun _ => other.name

-- The last part of an answer is what the user is told of dependencies.
def pmInstallPackage (pmState : Option PackageManager) (packageName : Bytes) (now : Int) :
    Option PackageManager × Int × List Bytes :=
  match pmState with
  | none => (none, -1, [])
  | some pm =>
    match findPackage pm packageName with
    | none => (some pm, -1, [])
    | some (i, pkg) =>
      if pkg.status = .installed then (some pm, 0, [])
      else
        (some { pm.put i (pkg.install now) with
          totalPackagesInstalled := pm.totalPackagesInstalled + 1
          totalInstalledSize := pm.totalInstalledSize + pkg.sizeInstalled }, 0,
          missingDependencies pm pkg)

def pmRemovePackage (pmState : Option PackageManager) (packageName : Bytes) :
    Option PackageManager × Int × List Bytes :=
  match pmState with
  | none => (none, -1, [])
  | some pm =>
    match findPackage pm packageName with
    | none => (some pm, -1, [])
    | some (i, pkg) =>
      if pkg.status ≠ .installed then (some pm, -1, [])
      else if pkg.isEssential then (some pm, -1, [])
      else
        (some { pm.put i pkg.remove with
          totalPackagesInstalled := pm.totalPackagesInstalled - 1
          totalInstalledSize := pm.totalInstalledSize - pkg.sizeInstalled }, 0,
          reverseDependencies pm packageName)

def pmPurgePackage (pmState : Option PackageManager) (packageName : Bytes) :
    Option PackageManager × Int × List Bytes := pmRemovePackage pmState packageName

inductive PackageCall where
  | install (packageName : Bytes) (now : Int)
  | remove (packageName : Bytes)
  | purge (packageName : Bytes)
  deriving DecidableEq, Repr

def pmCall (pmState : Option PackageManager) :
    PackageCall → Option PackageManager × Int × List Bytes
  | .install packageName now => pmInstallPackage pmState packageName now
  | .remove packageName => pmRemovePackage pmState packageName
  | .purge packageName => pmPurgePackage pmState packageName

def PackageCall.name : PackageCall → Bytes
  | .install packageName _ | .remove packageName | .purge packageName => packageName

def PackageCall.removes : PackageCall → Bool
  | .install .. => false
  | .remove _ | .purge _ => true

section Effects

variable {pm : PackageManager} {packageName : Bytes} {i : Nat} {pkg : PackageInfo}

theorem findPackage_some (h : findPackage pm packageName = some (i, pkg)) : ∃ pre post,
    pm.packages = pre ++ pkg :: post ∧ pkg.name = packageName ∧
      ∀ pkg', pm.packages.set i pkg' = pre ++ pkg' :: post := by
  obtain ⟨j, hj, hslot⟩ := Option.bind_eq_some_iff.mp h
  obtain ⟨found, hfound, hpair⟩ := Option.map_eq_some_iff.mp hslot
  obtain ⟨rfl, rfl⟩ := Prod.mk.inj hpair
  obtain ⟨hlt, hname, -⟩ := List.findIdx?_eq_some_iff_getElem.mp hj
  obtain ⟨-, rfl⟩ := List.getElem?_eq_some_iff.mp hfound
  refine ⟨pm.packages.take j, pm.packages.drop (j + 1), ?_, of_decide_eq_true hname, fun pkg' => ?_⟩
  · rw [← List.drop_eq_getElem_cons hlt, List.take_append_drop]
  · exact List.set_eq_take_append_cons_drop.trans (if_pos hlt)

structure Replaces (pm pm' : PackageManager) (old new : PackageInfo) : Prop where
  place : ∃ pre post, pm.packages = pre ++ old :: post ∧ pm'.packages = pre ++ new :: post
  name : new.name = old.name
  dependencies : new.dependencies = old.dependencies
  size : new.sizeInstalled = old.sizeInstalled
  essential : new.isEssential = old.isEssential

structure Installs (pm pm' : PackageManager) (old new : PackageInfo) : Prop extends
    Replaces pm pm' old new where
  before : old.status ≠ .installed
  after : new.status = .installed
  counted : pm'.totalPackagesInstalled = pm.totalPackagesInstalled + 1
  sized : pm'.totalInstalledSize = pm.totalInstalledSize + old.sizeInstalled

structure Removes (pm pm' : PackageManager) (old new : PackageInfo) : Prop extends
    Replaces pm pm' old new where
  before : old.status = .installed
  after : new.status ≠ .installed
  optional : old.isEssential = false
  counted : pm'.totalPackagesInstalled = pm.totalPackagesInstalled - 1
  sized : pm'.totalInstalledSize = pm.totalInstalledSize - old.sizeInstalled

theorem pmInstallPackage_cases (pm : PackageManager) (packageName : Bytes) (now : Int) :
    (∃ r, pmInstallPackage (some pm) packageName now = (some pm, r, [])) ∨
    ∃ pm' old new, Installs pm pm' old new ∧ (∃ i, findPackage pm packageName = some (i, old)) ∧
      pmInstallPackage (some pm) packageName now = (some pm', 0, missingDependencies pm old) := by
  cases hfound : findPackage pm packageName with
  | none => exact .inl ⟨-1, by simp only [pmInstallPackage, hfound]⟩
  | some found =>
    obtain ⟨i, pkg⟩ := found
    obtain ⟨pre, post, hl, -, hset⟩ := findPackage_some hfound
    simp only [pmInstallPackage, hfound]
    split
    · exact .inl ⟨0, rfl⟩
    · next hstatus =>
      refine .inr ⟨_, pkg, pkg.install now, ?_, ⟨i, rfl⟩, rfl⟩
      exact ⟨⟨⟨pre, post, hl, hset _⟩, rfl, rfl, rfl, rfl⟩, hstatus, rfl, rfl, rfl⟩

theorem pmRemovePackage_cases (pm : PackageManager) (packageName : Bytes) :
    pmRemovePackage (some pm) packageName = (some pm, -1, []) ∨
    ∃ pm' old new, Removes pm pm' old new ∧ old.name = packageName ∧
      pmRemovePackage (some pm) packageName = (some pm', 0, reverseDependencies pm packageName) := by
  cases hfound : findPackage pm packageName with
  | none => exact .inl (by simp only [pmRemovePackage, hfound])
  | some found =>
    obtain ⟨i, pkg⟩ := found
    obtain ⟨pre, post, hl, hname, hset⟩ := findPackage_some hfound
    simp only [pmRemovePackage, hfound]
    split
    · exact .inl rfl
    · next hstatus =>
      split
      · exact .inl rfl
      · next hoptional =>
        refine .inr ⟨_, pkg, pkg.remove, ?_, hname, rfl⟩
        exact ⟨⟨⟨pre, post, hl, hset _⟩, rfl, rfl, rfl, rfl⟩, not_not.mp hstatus,
          PackageStatus.noConfusion, Bool.not_eq_true _ |>.mp hoptional, rfl, rfl⟩

theorem pmCall_cases (pm : PackageManager) (c : PackageCall) :
    (∃ r, pmCall (some pm) c = (some pm, r, []) ∧ (c.removes = true → r = -1)) ∨
    (∃ pm' old new, (∃ now, c = .install c.name now) ∧ Installs pm pm' old new ∧
      (∃ i, findPackage pm c.name = some (i, old)) ∧
      pmCall (some pm) c = (some pm', 0, missingDependencies pm old)) ∨
    ∃ pm' old new, c.removes = true ∧ Removes pm pm' old new ∧ old.name = c.name ∧
      pmCall (some pm) c = (some pm', 0, reverseDependencies pm c.name) := by
  cases c with
  | install packageName now =>
    rcases pmInstallPackage_cases pm packageName now with
      ⟨r, hsame⟩ | ⟨pm', old, new, hinstalls, hfound, hdone⟩
    · exact .inl ⟨r, hsame, fun h => by cases h⟩
    · exact .inr (.inl ⟨pm', old, new, ⟨now, rfl⟩, hinstalls, hfound, hdone⟩)
  | remove packageName =>
    rcases pmRemovePackage_cases pm packageName with
      hfails | ⟨pm', old, new, hremoves, hname, hdone⟩
    · exact .inl ⟨-1, hfails, fun _ => rfl⟩
    · exact .inr (.inr ⟨pm', old, new, rfl, hremoves, hname, hdone⟩)
  | purge packageName =>
    rcases pmRemovePackage_cases pm packageName with
      hfails | ⟨pm', old, new, hremoves, hname, hdone⟩
    · exact .inl ⟨-1, hfails, fun _ => rfl⟩
    · exact .inr (.inr ⟨pm', old, new, rfl, hremoves, hname, hdone⟩)

end Effects

end ZoraVM.Package

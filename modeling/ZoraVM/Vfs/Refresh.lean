import ZoraVM.Vfs.HostTree
import ZoraVM.Vfs.NodeRules

namespace ZoraVM.Vfs

open Foundation

def refreshEntry (vmNode : Nat) (hostPath : Bytes) (s : VfsState) (e : Bytes × HostEntry) :
    Outcome VfsState :=
  match Forest.childNamed Attr.name s.nodes vmNode e.1, e.2 with
  | some _, _ => .ok s
  | none, .directory =>
    vfsLoadHostDirectory maxPath (vfsAddChild s vmNode (vfsCreateDirectoryNode s e.1)) s.nodes.size
      (entryPath hostPath e.1)
  | none, .file content =>
    .ok (vfsAddChild s vmNode (hostFileNode s e.1 (entryPath hostPath e.1) content))

def vfsRefreshDirectory (s : VfsState) (vmNode : Nat) : Outcome VfsState := do
  let a ← nodeAt s vmNode
  match a.isDirectory, a.hostPath with
  | true, some hostPath => (searchAll s.host hostPath).foldlM (refreshEntry vmNode hostPath) s
  | _, _ => .ok s

section Specification

variable (hostPath : Bytes) (rest : List Bytes) (n : Nat)

def isNamed (nodes : Forest Attr) (name : Bytes) (c : Nat) : Bool :=
  Forest.keyAt Attr.name nodes c == some name

def EveryEntryNamed (s : VfsState) : Prop :=
  ∀ name e, s.host.entryBelow hostPath (rest ++ [name]) = some e →
    ∃ c ∈ Forest.childrenOf s.nodes n, isNamed s.nodes name c = true

structure Refreshed (s s' : VfsState) : Prop where
  complete : EveryEntryNamed hostPath rest n s'
  sameHost : s'.host = s.host
  kept : ∀ c ∈ Forest.childrenOf s.nodes n,
    c ∈ Forest.childrenOf s'.nodes n ∧ Forest.valAt s'.nodes c = Forest.valAt s.nodes c
  single : ∀ c ∈ Forest.childrenOf s.nodes n, ∀ name, isNamed s.nodes name c = true →
    (Forest.childrenOf s'.nodes n).countP (isNamed s'.nodes name) =
      (Forest.childrenOf s.nodes n).countP (isNamed s.nodes name)

def Mounted (vmPath : Bytes) (s : VfsState) : Prop :=
  ∃ s₀, Reachable s₀ ∧ vfsMountPersistent s₀ vmPath hostPath = .ok (0, s)

def Later (s s' : VfsState) : Prop := ∃ calls, Run vfsStep (fun _ _ => True) s calls s'

structure BelowMount (vmPath : Bytes) (s : VfsState) : Prop where
  found : Forest.walk Attr.name s.nodes s.root (pathComponents vmPath ++ rest) = some n
  directory : IsDirectory s.nodes n

end Specification

variable {s s' : VfsState} {hostPath vmPath : Bytes} {rest : List Bytes} {n : Nat}

section Bookkeeping

-- A directory never learns where it came from: only file nodes are given a host path.
def NoDirectoryPaths (nodes : Forest Attr) : Prop :=
  ∀ n a, Forest.valAt nodes n = some a → a.isDirectory = true → a.hostPath = none

theorem nodeInvariant_noDirectoryPaths : NodeInvariant NoDirectoryPaths := by
  refine ⟨fun {nodes parent v} h hp hv m a ha hdir => ?_, fun {nodes n f} h hf m b hb hdir => ?_,
    fun {nodes n} h m a ha hdir => ?_⟩
  · rw [Forest.valAt_link hp.live] at ha
    split at ha
    · obtain rfl := Option.some.inj ha
      exact hv hdir
    · exact h m a ha hdir
  · rw [Forest.valAt_update] at hb
    split at hb
    · next hm =>
      obtain ⟨a, ha, rfl⟩ := Option.map_eq_some_iff.mp hb
      rw [hf.hostPath]
      exact h n a ha (hf.isDirectory a ▸ hdir)
    · exact h m b hb hdir
  · rw [Forest.valAt_unlink] at ha
    split at ha
    · cases ha
    · exact h m a ha hdir

theorem noDirectoryPaths_single (junk : Attr) :
    NoDirectoryPaths (Forest.single (rootNode junk)) := by
  intro n a ha _
  rw [Forest.valAt_single] at ha
  split at ha
  · obtain rfl := Option.some.inj ha
    rfl
  · cases ha

theorem Reachable.noDirectoryPaths (h : Reachable s) : NoDirectoryPaths s.nodes := by
  obtain ⟨calls, hreach⟩ := h
  exact nodeInvariant_noDirectoryPaths.reachable noDirectoryPaths_single hreach

theorem noDirectoryPaths_later (hmount : Mounted hostPath vmPath s) (hlater : Later s s') :
    NoDirectoryPaths s'.nodes := by
  obtain ⟨s₀, hreach, hcall⟩ := hmount
  obtain ⟨calls, hrun⟩ := hlater
  refine hrun.invariant (P := fun t => NoDirectoryPaths t.nodes) ?_ ?_
  · exact nodeInvariant_noDirectoryPaths.mount hreach.noDirectoryPaths hcall
  · exact fun s c s' hs _ hstep => nodeInvariant_noDirectoryPaths.step hs hstep

theorem refresh_nothing (h : NoDirectoryPaths s.nodes) (hn : IsDirectory s.nodes n) :
    vfsRefreshDirectory s n = .ok s := by
  obtain ⟨a, ha, hdir⟩ := hn
  have hpath := h n a ha hdir
  rw [vfsRefreshDirectory, nodeAt_of_valAt ha]
  dsimp only [bind, Except.bind]
  rw [hdir, hpath]

theorem refreshed_same_iff :
    Refreshed hostPath rest n s s ↔ EveryEntryNamed hostPath rest n s :=
  ⟨Refreshed.complete, fun h => ⟨h, rfl, fun _ hc => ⟨hc, rfl⟩, fun _ _ _ _ => rfl⟩⟩

end Bookkeeping

section Results

theorem refresh_complete_iff (hmount : Mounted hostPath vmPath s) (hlater : Later s s')
    (hn : BelowMount rest n vmPath s') :
    ∃ s'', vfsRefreshDirectory s' n = .ok s'' ∧
      (Refreshed hostPath rest n s' s'' ↔ EveryEntryNamed hostPath rest n s') :=
  ⟨s', refresh_nothing (noDirectoryPaths_later hmount hlater) hn.directory, refreshed_same_iff⟩

def emptyHostDirectory : Host := openHost [(⟨false, [str "r"]⟩, .directory)]

def newEntries : List (Location × HostEntry) :=
  [(⟨false, [str "r"]⟩, .directory), (⟨false, [str "f", str "r"]⟩, .file (str "hi"))]

def mountedFrom (host : Host) : VfsState :=
  match vfsMountPersistent (booted host) (str "/home") (str "r") with
  | .ok (_, s) => s
  | .error _ => booted host

theorem mountedFrom_eq {host : Host}
    (hzero : (vfsMountPersistent (booted host) (str "/home") (str "r")).toOption.map Prod.fst = some 0) :
    vfsMountPersistent (booted host) (str "/home") (str "r") = .ok (0, mountedFrom host) := by
  unfold mountedFrom
  generalize vfsMountPersistent (booted host) (str "/home") (str "r") = mounted at hzero
  rcases mounted with e | ⟨r, s⟩
  · cases hzero
  · obtain rfl : r = 0 := Option.some.inj hzero
    rfl

def mountedFile : VfsState := mountedFrom (openHost newEntries)

theorem mounted_file : Mounted (str "r") (str "/home") mountedFile := by
  have hmount : vfsMountPersistent (booted (openHost newEntries)) (str "/home") (str "r") =
      .ok (0, mountedFile) := mountedFrom_eq (by decide +kernel)
  have hreach := reachableBy_ran (fun _ _ => true) (openHost newEntries) [] (by decide +kernel)
    (by decide +kernel)
  exact ⟨_, ⟨_, hreach.mono fun _ _ _ => trivial⟩, hmount⟩

theorem everyEntryNamed_file : EveryEntryNamed (str "r") [] 2 mountedFile := by
  intro name e he
  have hentries : mountedFile.host.entries = newEntries := by decide +kernel
  have hresolve : Location.resolve (str "r") = ⟨false, [str "r"]⟩ := by decide
  rw [Host.entryBelow, Host.entry, hentries, hresolve, List.lookup_eq_some_iff] at he
  obtain ⟨before, after, heq, _⟩ := he
  have hmem : (below ⟨false, [str "r"]⟩ ([] ++ [name]), e) ∈ newEntries := by
    rw [heq]
    exact List.mem_append_right _ List.mem_cons_self
  have hname : name = str "f" := by
    rcases List.mem_cons.mp hmem with hroot | hfile
    · cases hroot
    · have hparts := congrArg Location.parts (Prod.mk.inj (List.mem_singleton.mp hfile)).1
      exact (List.cons.inj hparts).1
  exact ⟨7, by decide +kernel, hname ▸ by decide +kernel⟩

theorem refresh_complete_iff_file :
    ∃ s'', vfsRefreshDirectory mountedFile 2 = .ok s'' ∧
      Refreshed (str "r") [] 2 mountedFile s'' := by
  have hbelow : BelowMount [] 2 (str "/home") mountedFile :=
    ⟨by decide +kernel, ⟨_, Option.eq_some_of_isSome (by decide +kernel), by decide +kernel⟩⟩
  obtain ⟨s'', hrun, hiff⟩ := refresh_complete_iff mounted_file ⟨[], .start⟩ hbelow
  exact ⟨s'', hrun, hiff.mpr everyEntryNamed_file⟩

def mountedHome : VfsState := mountedFrom emptyHostDirectory

theorem mounted_home : Mounted (str "r") (str "/home") mountedHome := by
  have hmount : vfsMountPersistent (booted emptyHostDirectory) (str "/home") (str "r") =
      .ok (0, mountedHome) := mountedFrom_eq (by decide +kernel)
  have hreach := reachableBy_ran (fun _ _ => true) emptyHostDirectory [] (by decide +kernel)
    (by decide +kernel)
  exact ⟨_, ⟨_, hreach.mono fun _ _ _ => trivial⟩, hmount⟩

theorem belowMount_home : BelowMount [] 2 (str "/home") mountedHome :=
  ⟨by decide +kernel, ⟨_, Option.eq_some_of_isSome (by decide +kernel), by decide +kernel⟩⟩

def homeWithNewFile : VfsState :=
  { mountedHome with host := { mountedHome.host with
    entries := newEntries
    mayRead := fun _ => true
    mayWrite := fun _ => true } }

theorem belowMount_newFile : BelowMount [] 2 (str "/home") homeWithNewFile := by
  constructor
  · dsimp only [homeWithNewFile]
    exact belowMount_home.found
  · dsimp only [homeWithNewFile]
    exact belowMount_home.directory

theorem later_newFile : Later mountedHome homeWithNewFile :=
  ⟨_, .single (i := .hostChange newEntries (fun _ => true) fun _ => true) trivial rfl⟩

theorem new_file_not_seen :
    ¬ ∀ (hostPath vmPath : Bytes) (rest : List Bytes) (n : Nat) (s s' s'' : VfsState),
      Mounted hostPath vmPath s → Later s s' → BelowMount rest n vmPath s' →
      vfsRefreshDirectory s' n = .ok s'' → Refreshed hostPath rest n s' s'' := by
  intro hall
  have hpaths := noDirectoryPaths_later mounted_home later_newFile
  have hrun : vfsRefreshDirectory homeWithNewFile 2 = .ok homeWithNewFile :=
    refresh_nothing hpaths belowMount_newFile.directory
  have hseen := hall (str "r") (str "/home") [] 2 mountedHome homeWithNewFile homeWithNewFile
    mounted_home later_newFile belowMount_newFile hrun
  obtain ⟨c, hc, _⟩ := hseen.complete (str "f") (.file (str "hi")) (by decide)
  have hnone : Forest.childrenOf homeWithNewFile.nodes 2 = [] := by decide +kernel
  rw [hnone] at hc
  exact absurd hc List.not_mem_nil

end Results

end ZoraVM.Vfs

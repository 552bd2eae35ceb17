import ZoraVM.Foundation.PathMap
import ZoraVM.Vfs.ReadWrite
import ZoraVM.Vfs.RootSurvival
import ZoraVM.Vfs.SiblingNames

namespace ZoraVM.Vfs

open Foundation

section Abstract

-- What stands at a path, wherever its node and its bytes may lie.
structure Entry where
  isDirectory : Bool
  isSymlink : Bool
  symlinkTarget : Option Bytes
  content : Option Bytes
  mode : BitVec 32
  owner : Bytes
  group : Bytes
  createdTime : Nat
  modifiedTime : Nat
  deriving DecidableEq, Repr

def Entry.allows (e : Entry) (id : Identity) (required : BitVec 32) : Bool :=
  if id.vfsIsRoot then true
  else if e.owner = id.vfsCurrentUser then e.mode &&& (required <<< 6) != 0
  else if e.group = id.vfsCurrentGroup then e.mode &&& (required <<< 3) != 0
  else e.mode &&& required != 0

abbrev Entries := PathMap Bytes Entry fun e => e.isDirectory = true

structure EntryMap where
  entries : Entries
  currentDirectory : Bytes
  identity : Identity
  clock : Nat

namespace EntryMap

variable (m : EntryMap)

def entry (path : Bytes) : Option Entry := m.entries.get (pathComponents path)

def newEntry (isDirectory : Bool) (mode : BitVec 32) : Entry :=
  ⟨isDirectory, false, none, none, mode, clip 50 m.identity.vfsCurrentUser,
    clip 50 m.identity.vfsCurrentGroup, m.clock, m.clock⟩

open Classical in
noncomputable def create (dir name : Bytes) (e : Entry) : Int × EntryMap :=
  if hdir : m.entries.Inner (pathComponents dir) then
    if hfree : m.entries.get (pathComponents dir ++ [name]) = none then
      (0, { m with entries := m.entries.add (pathComponents dir) name e hdir hfree })
    else (0, m)
  else (-1, m)

open Classical in
noncomputable def remove (path : Bytes) (isDirectory : Bool) : Int × EntryMap :=
  if h : pathComponents path ≠ [] ∧ m.entries.Leaf (pathComponents path) ∧
      ∃ e, m.entry path = some e ∧ e.isDirectory = isDirectory then
    (0, { m with entries := m.entries.remove (pathComponents path) h.1 h.2.1 })
  else (-1, m)

def change (path : Bytes) (may : Entry → Bool) (f : Entry → Entry)
    (hf : ∀ e, e.isDirectory = true → (f e).isDirectory = true) : Int × EntryMap :=
  match m.entry path with
  | none => (-1, m)
  | some e =>
    if may e then (0, { m with entries := m.entries.modify (pathComponents path) f hf }) else (-1, m)

def write (path data : Bytes) : Int × EntryMap :=
  m.change path (fun e => !e.isDirectory && e.allows m.identity (permWrite >>> 6))
    (fun e => { e with content := if data = [] then none else some data, modifiedTime := m.clock })
    fun _ h => h

def read (path : Bytes) : Option Bytes :=
  (m.entry path).bind fun e =>
    if !e.isDirectory && e.allows m.identity (permRead >>> 6) then e.content else none

def chmod (path : Bytes) (mode : BitVec 32) : Int × EntryMap :=
  m.change path (fun e => m.identity.vfsIsRoot || e.owner == m.identity.vfsCurrentUser)
    (fun e => { e with mode := mode, modifiedTime := m.clock }) fun _ h => h

def chown (path : Bytes) (owner group : Option Bytes) : Int × EntryMap :=
  m.change path (fun _ => m.identity.vfsIsRoot)
    (fun e =>
      { e with
        owner := (owner.map (clip 50)).getD e.owner
        group := (group.map (clip 50)).getD e.group
        modifiedTime := m.clock }) fun _ h => h

def newDirectory (path : Bytes) : Bytes :=
  if path.head? = some slash then clip 256 path
  else if m.currentDirectory = [slash] then clip 256 (slash :: path)
  else clip 256 (m.currentDirectory ++ slash :: path)

open Classical in
noncomputable def call : VfsCall → Int × EntryMap
  | .mkdir path =>
    match splitPath path with
    | .ok (dir, name) => m.create dir name (m.newEntry true defaultDirPerms)
    | .error _ => (-1, m)
  | .createFile path =>
    match splitPath path with
    | .ok (dir, name) => m.create dir name (m.newEntry false defaultFilePerms)
    | .error _ => (-1, m)
  | .createSymlink link target =>
    m.create (splitLinkPath link).1 (splitLinkPath link).2
      { m.newEntry false 0o777 with isSymlink := true, symlinkTarget := some target }
  | .deleteFile path => m.remove path false
  | .rmdir path => m.remove path true
  | .writeFile path data => m.write path data
  | .readFile path => (if (m.read path).isSome then 0 else -1, m)
  | .chmod path mode => m.chmod path mode
  | .chown path owner group => m.chown path owner group
  | .chdir path =>
    if m.entries.Inner (pathComponents (m.newDirectory path)) then
      (0, { m with currentDirectory := m.newDirectory path })
    else (-1, m)
  | .identify identity => (0, { m with identity := identity })
  | .wait clock => (0, { m with clock := clock })
  | _ => (0, m)

noncomputable def calls (cs : List VfsCall) : EntryMap := cs.foldl (fun m c => (m.call c).2) m

def blank (junk : Attr) (clock : Nat) : EntryMap where
  entries := .single ⟨true, junk.isSymlink, junk.symlinkTarget, none, junk.mode, junk.owner, junk.group,
    junk.createdTime, junk.modifiedTime⟩ rfl
  currentDirectory := [slash]
  identity := guest
  clock := clock

noncomputable def booted (junk : Attr) (clock : Nat) : EntryMap :=
  (blank junk clock).calls (initialDirectories.map .mkdir)

end EntryMap

end Abstract

section Guard

-- Whether the two halves of a path fit their buffers.
def splits : VfsCall → Bool
  | .mkdir path => (splitPath path).isOk
  | .createFile path => (splitPath path).isOk
  | _ => true

-- No second entry of a name, nothing brought in from the host, and the root stays.
def mapped (s : VfsState) (c : VfsCall) : Bool :=
  addsNoNamesake s c && keepsRoot s c &&
    match c with
    | .mountPersistent _ _ => false
    | _ => true

end Guard

section Shown

variable {s s' : VfsState} {m : EntryMap} {path : Bytes} {ks : List Bytes} {n : Nat} {a : Attr}

def entryOf (blocks : Heap Bytes) (a : Attr) : Entry :=
  ⟨a.isDirectory, a.isSymlink, a.symlinkTarget, a.data.map fun p => bytesAt blocks (some p) a.size,
    a.mode, a.owner, a.group, a.createdTime, a.modifiedTime⟩

theorem entryOf_congr {blocks blocks' : Heap Bytes}
    (hsame : ∀ p, a.data = some p → blocks'.get p = blocks.get p) :
    entryOf blocks' a = entryOf blocks a := by
  cases hp : a.data with
  | none => simp only [entryOf, hp, Option.map_none]
  | some p => simp only [entryOf, hp, Option.map_some, bytesAt, hsame p hp]

def entryAt (s : VfsState) (ks : List Bytes) : Option Entry :=
  (Forest.walk Attr.name s.nodes s.root ks).bind fun n =>
    (Forest.valAt s.nodes n).map (entryOf s.blocks)

structure Shows (s : VfsState) (m : EntryMap) : Prop where
  sound : Sound s.nodes s.blocks s.root
  distinct : Distinct s
  unmounted : ∀ {n a}, Forest.valAt s.nodes n = some a → a.hostPath = none
  entries : ∀ ks, m.entries.get ks = entryAt s ks
  currentDirectory : m.currentDirectory = s.currentDirectory
  identity : m.identity = s.identity
  clock : m.clock = s.clock

namespace Shows

variable (h : Shows s m)

include h

theorem get_of_walk (hwalk : Forest.walk Attr.name s.nodes s.root ks = some n)
    (ha : Forest.valAt s.nodes n = some a) : m.entries.get ks = some (entryOf s.blocks a) := by
  rw [h.entries, entryAt, hwalk, Option.bind_some, ha]
  rfl

theorem get_eq_none : m.entries.get ks = none ↔ Forest.walk Attr.name s.nodes s.root ks = none := by
  constructor
  · intro hnone
    cases hwalk : Forest.walk Attr.name s.nodes s.root ks with
    | none => rfl
    | some n =>
      have hlive := h.sound.tree.live_walk h.sound.tree.root_live hwalk
      obtain ⟨a, ha⟩ := Forest.live_iff_valAt.mp hlive
      cases (h.get_of_walk hwalk ha).symm.trans hnone
  · intro hwalk
    rw [h.entries, entryAt, hwalk]
    rfl

theorem exists_node {e : Entry} (hget : m.entries.get ks = some e) :
    ∃ n a, Forest.walk Attr.name s.nodes s.root ks = some n ∧ Forest.valAt s.nodes n = some a ∧
      e = entryOf s.blocks a := by
  cases hwalk : Forest.walk Attr.name s.nodes s.root ks with
  | none => cases (h.get_eq_none.mpr hwalk).symm.trans hget
  | some n =>
    obtain ⟨a, ha⟩ := Forest.live_iff_valAt.mp (h.sound.tree.live_walk h.sound.tree.root_live hwalk)
    exact ⟨n, a, rfl, ha, Option.some.inj (hget.symm.trans (h.get_of_walk hwalk ha))⟩

theorem find_eq (path : Bytes) : vfsFindNode s path =
    .ok (Forest.walk Attr.name s.nodes s.root (pathComponents path)) :=
  vfsFindNode_of_live h.sound.tree.root_live

theorem inner_of_directory (hwalk : Forest.walk Attr.name s.nodes s.root ks = some n)
    (hn : IsDirectory s.nodes n) : m.entries.Inner ks := by
  obtain ⟨a, ha, hdir⟩ := hn
  exact ⟨_, h.get_of_walk hwalk ha, hdir⟩

theorem directory_of_inner (hin : m.entries.Inner ks) :
    ∃ n, Forest.walk Attr.name s.nodes s.root ks = some n ∧ IsDirectory s.nodes n := by
  obtain ⟨e, hget, hdir⟩ := hin
  obtain ⟨n, a, hwalk, ha, rfl⟩ := h.exists_node hget
  exact ⟨n, hwalk, a, ha, hdir⟩

theorem findDirectory_none (hnot : ¬ m.entries.Inner (pathComponents path)) :
    findDirectory s path = .ok none := by
  obtain ⟨found, hfind⟩ := findDirectory_total h.sound path
  cases found with
  | none => exact hfind
  | some n =>
    exact absurd (h.inner_of_directory (findDirectory_ok_some hfind).2.1 (isDirectory_of_find hfind)) hnot

theorem findDirectory_some (hin : m.entries.Inner (pathComponents path)) :
    ∃ n, findDirectory s path = .ok (some n) ∧
      Forest.walk Attr.name s.nodes s.root (pathComponents path) = some n ∧ IsDirectory s.nodes n := by
  obtain ⟨n, hwalk, hn⟩ := h.directory_of_inner hin
  exact ⟨n, findDirectory_of_walk h.sound.tree.root_live hwalk hn, hwalk, hn⟩

theorem child_eq_none (hwalk : Forest.walk Attr.name s.nodes s.root ks = some n) (name : Bytes) :
    Forest.childNamed Attr.name s.nodes n name = none ↔ m.entries.get (ks ++ [name]) = none := by
  rw [h.get_eq_none, Forest.walk_concat, hwalk, Option.bind_some]

theorem leaf_iff (hwalk : Forest.walk Attr.name s.nodes s.root ks = some n) :
    m.entries.Leaf ks ↔ Forest.childrenOf s.nodes n = [] := by
  constructor
  · intro hleaf
    refine List.eq_nil_iff_forall_not_mem.mpr fun c hc => ?_
    obtain ⟨v, hv⟩ := Forest.live_iff_valAt.mp (h.sound.tree.child_parent hc).1
    have hkey : Forest.keyAt Attr.name s.nodes c = some v.name :=
      Forest.keyAt_eq_some_iff.mpr ⟨v, hv, rfl⟩
    exact Forest.childNamed_eq_none.mp ((h.child_eq_none hwalk v.name).mpr (hleaf v.name)) c hc hkey
  · intro hnil k
    exact (h.child_eq_none hwalk k).mp (Forest.childNamed_of_leaf hnil)

end Shows

end Shown

section Changes

variable {s t : VfsState} {m : EntryMap} {ks : List Bytes} {parent n : Nat} {a b v : Attr}

namespace Shows

variable (h : Shows s m)

include h

theorem link (hwalk : Forest.walk Attr.name s.nodes s.root ks = some parent)
    (hparent : IsDirectory s.nodes parent) (hin : m.entries.Inner ks)
    (hfree : m.entries.get (ks ++ [v.name]) = none) (hdata : v.data = none) (hhost : v.hostPath = none)
    (ht : t = { s with nodes := Forest.link s.nodes parent v, host := t.host }) :
    Shows t { m with entries := m.entries.add ks v.name (entryOf s.blocks v) hin hfree } := by
  have hlive := hparent.live
  have hchild := (h.child_eq_none hwalk v.name).mpr hfree
  rw [ht]
  refine ⟨h.sound.link hparent hdata, h.distinct.link h.sound.tree hlive hchild, ?_, fun ls => ?_,
    h.currentDirectory, h.identity, h.clock⟩
  · intro k c hc
    rw [Forest.valAt_link hlive] at hc
    split at hc
    · obtain rfl := Option.some.inj hc
      exact hhost
    · exact h.unmounted hc
  · rw [PathMap.get_add, entryAt, h.sound.tree.walk_link_eq hlive hwalk hchild]
    split
    · rw [Option.bind_some, Forest.valAt_link hlive, if_pos rfl]
      rfl
    · rw [h.entries, entryAt]
      cases hw : Forest.walk Attr.name s.nodes s.root ls with
      | none => rfl
      | some k =>
        have hk := h.sound.tree.live_walk h.sound.tree.root_live hw
        rw [Option.bind_some, Option.bind_some, Forest.valAt_link_of_live hlive v hk]

theorem unlink (hwalk : Forest.walk Attr.name s.nodes s.root ks = some n) (hks : ks ≠ [])
    (hleaf : m.entries.Leaf ks) (hothers : ∀ {k c p}, k ≠ n → Forest.valAt s.nodes k = some c →
      c.data = some p → t.blocks.get p = s.blocks.get p)
    (ht : t = { s with nodes := Forest.unlink s.nodes n, blocks := t.blocks, host := t.host }) :
    Shows t { m with entries := m.entries.remove ks hks hleaf } := by
  have hroot : n ≠ s.root := by
    rintro rfl
    exact hks (h.sound.tree.walk_unique hwalk rfl)
  have hnil := (h.leaf_iff hwalk).mp hleaf
  have hsound := h.sound.unlink hnil hroot hothers
  rw [ht]
  refine ⟨hsound, h.distinct.unlink h.sound.tree n, ?_, fun ls => ?_, h.currentDirectory, h.identity,
    h.clock⟩
  · intro k c hc
    rw [Forest.valAt_unlink] at hc
    split at hc
    · cases hc
    · exact h.unmounted hc
  · rw [PathMap.get_remove, entryAt, h.sound.tree.walk_unlink_eq h.distinct hnil hroot hwalk]
    split
    · rfl
    · next hls =>
      rw [h.entries, entryAt]
      cases hw : Forest.walk Attr.name s.nodes s.root ls with
      | none => rfl
      | some k =>
        have hk : k ≠ n := by
          rintro rfl
          exact hls (h.sound.tree.walk_unique hw hwalk)
        rw [Option.bind_some, Option.bind_some, Forest.valAt_unlink, if_neg hk]
        cases hc : Forest.valAt s.nodes k with
        | none => rfl
        | some c =>
          exact congrArg some (entryOf_congr fun p hp => hothers hk hc hp).symm

theorem modify {g : Entry → Entry} (hg : ∀ e, e.isDirectory = true → (g e).isDirectory = true)
    (hwalk : Forest.walk Attr.name s.nodes s.root ks = some n) (ha : Forest.valAt s.nodes n = some a)
    (hb : Forest.valAt t.nodes n = some b) (hentry : entryOf t.blocks b = g (entryOf s.blocks a))
    (hhost : b.hostPath = a.hostPath)
    (hwalks : ∀ ls, Forest.walk Attr.name t.nodes t.root ls = Forest.walk Attr.name s.nodes s.root ls)
    (hothers : OthersUnchanged s t n) (hsound : Sound t.nodes t.blocks t.root) (hdistinct : Distinct t)
    (hcurrent : t.currentDirectory = s.currentDirectory) (hidentity : t.identity = s.identity)
    (hclock : t.clock = s.clock) : Shows t { m with entries := m.entries.modify ks g hg } := by
  refine ⟨hsound, hdistinct, ?_, fun ls => ?_, h.currentDirectory.trans hcurrent.symm,
    h.identity.trans hidentity.symm, h.clock.trans hclock.symm⟩
  · intro k c hc
    by_cases hk : k = n
    · subst hk
      obtain rfl := Option.some.inj (hb.symm.trans hc)
      exact hhost.trans (h.unmounted ha)
    · exact h.unmounted ((hothers k hk).1 ▸ hc)
  · rw [PathMap.get_modify, entryAt, hwalks]
    split
    · next hls =>
      rw [hls, h.get_of_walk hwalk ha, hwalk, Option.bind_some, hb, Option.map_some, Option.map_some,
        hentry]
    · next hls =>
      rw [h.entries, entryAt]
      cases hw : Forest.walk Attr.name s.nodes s.root ls with
      | none => rfl
      | some k =>
        have hk : k ≠ n := by
          rintro rfl
          exact hls (h.sound.tree.walk_unique hw hwalk)
        obtain ⟨hval, hblocks⟩ := hothers k hk
        rw [Option.bind_some, Option.bind_some, hval]
        cases hc : Forest.valAt s.nodes k with
        | none => rfl
        | some c =>
          exact congrArg some (entryOf_congr fun p hp => hblocks c p hc hp).symm

end Shows

end Changes

end ZoraVM.Vfs

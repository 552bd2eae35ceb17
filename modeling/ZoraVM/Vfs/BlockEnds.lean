import ZoraVM.Foundation.CInt
import ZoraVM.Foundation.Memory
import ZoraVM.Vfs.ReadWrite

namespace ZoraVM.Vfs

open Foundation

-- A block ends where its node says, or with one zero behind that.
def EndsAt (size : Nat) (block : Bytes) : Prop :=
  block.length = size ∨ ∃ text, text.length = size ∧ block = text ++ [0]

def Ended (nodes : Forest Attr) (blocks : Heap Bytes) : Prop :=
  ∀ n a p block, Forest.valAt nodes n = some a → a.data = some p → blocks.get p = some block →
    EndsAt a.size block

structure WellEnded (s : VfsState) : Prop where
  consistent : Consistent s
  ended : s.nodes.live s.root = true → Ended s.nodes s.blocks

namespace Ended

variable {nodes nodes' : Forest Attr} {blocks blocks' : Heap Bytes} {root n parent : Nat}
  {a v : Attr} {f : Attr → Attr}

theorem link (h : Ended nodes blocks) (hp : nodes.live parent = true) (hv : v.data = none) :
    Ended (Forest.link nodes parent v) blocks := by
  intro m b p block hb hdata hblock
  rw [Forest.valAt_link hp] at hb
  split at hb
  · obtain rfl := Option.some.inj hb
    rw [hv] at hdata
    cases hdata
  · exact h m b p block hb hdata hblock

theorem freed (h : Ended nodes blocks) {p : Option Nat} (hfree : freeData blocks p = .ok blocks') :
    Ended nodes blocks' := by
  intro m b q block hb hdata hblock
  refine h m b q block hb hdata ?_
  cases p with
  | none => rwa [freeData_none hfree] at hblock
  | some p =>
    rw [freeData_some hfree, Heap.get_free] at hblock
    split at hblock
    · cases hblock
    · exact hblock

theorem unlink (h : Ended nodes blocks) (n : Nat) : Ended (Forest.unlink nodes n) blocks := by
  intro m b p block hb
  rw [Forest.valAt_unlink] at hb
  split at hb
  · cases hb
  · exact h m b p block hb

theorem update (h : Ended nodes blocks) (n : Nat) (hdata : ∀ a, (f a).data = a.data)
    (hsize : ∀ a, (f a).size = a.size) : Ended (Forest.update nodes n f) blocks := by
  intro m b p block hb hp hblock
  rw [Forest.valAt_update] at hb
  split at hb
  · obtain ⟨a, ha, rfl⟩ := Option.map_eq_some_iff.mp hb
    rw [hsize]
    exact h n a p block ha (hdata a ▸ hp) hblock
  · exact h m b p block hb hp hblock

theorem drop (h : Ended nodes blocks) (n size : Nat) :
    Ended (Forest.update nodes n (withData none size)) blocks := by
  intro m b p block hb hp hblock
  rw [Forest.valAt_update] at hb
  split at hb
  · obtain ⟨a, _, rfl⟩ := Option.map_eq_some_iff.mp hb
    cases hp
  · exact h m b p block hb hp hblock

theorem store (h : Ended nodes blocks') (hs : Sound nodes blocks root)
    (hsame : blocks'.size = blocks.size) {block : Bytes} {size : Nat} (hends : EndsAt size block) :
    Ended (Forest.update nodes n (withData (some blocks'.size) size)) (blocks'.alloc block) := by
  intro m b p found hb hp hfound
  rw [Forest.valAt_update] at hb
  split at hb
  · obtain ⟨a, _, rfl⟩ := Option.map_eq_some_iff.mp hb
    obtain rfl := Option.some.inj hp
    rw [Heap.get_alloc_self] at hfound
    exact Option.some.inj hfound ▸ hends
  · have hne : p ≠ blocks'.size := by
      rw [hsame]
      exact Nat.ne_of_lt (hs.lt_size hb hp)
    rw [Heap.get_alloc_of_ne hne] at hfound
    exact h m b p found hb hp hfound

end Ended

section Calls

variable {s s' : VfsState} {n parent : Nat} {path : Bytes} {r : Int}

theorem ended_addNode (h : Ended s.nodes s.blocks) (hp : IsDirectory s.nodes parent) {v : Attr}
    (hv : v.data = none) : Ended (addNode s parent v).nodes (addNode s parent v).blocks := by
  rw [addNode_eq]
  exact h.link hp.live hv

theorem ended_loaded (h : Ended s.nodes s.blocks) (hs : Sound s.nodes s.blocks s.root)
    (content : Bytes) : Ended (loaded s n content).nodes (loaded s n content).blocks :=
  h.store hs rfl (.inr ⟨content, rfl, rfl⟩)

theorem ended_written {a : Attr} {blocks : Heap Bytes} (h : Ended s.nodes s.blocks)
    (hs : Sound s.nodes s.blocks s.root) (hfree : freeData s.blocks a.data = .ok blocks)
    (content : Option Bytes) :
    Ended (written s n blocks content).nodes (written s n blocks content).blocks := by
  have hstored : Ended (storeData s n blocks content).nodes (storeData s n blocks content).blocks := by
    cases content with
    | none => exact (h.freed hfree).drop n 0
    | some b => exact (h.freed hfree).store hs (Sound.size_freeData hfree) (.inl rfl)
  rw [written_eq]
  exact hstored.update (f := touched s.clock) n (fun _ => rfl) fun _ => rfl

theorem wellEnded_mkdir (h : WellEnded s) (hcall : vfsMkdir s path = .ok (r, s')) :
    WellEnded s' := by
  refine ⟨consistent_mkdir h.consistent hcall, fun _ => ?_⟩
  rcases vfsMkdir_cases hcall with rfl | ⟨_, _, _, _, hfind, _, _, rfl⟩
  · exact h.ended ‹_›
  · exact ended_addNode (h.ended (findDirectory_ok_some hfind).1) (isDirectory_of_find hfind) rfl

theorem wellEnded_mount {hostPath : Bytes} (h : WellEnded s)
    (hcall : vfsMountPersistent s path hostPath = .ok (r, s')) : WellEnded s' :=
  ⟨consistent_mount h.consistent hcall,
    mount_induct (P := fun t => t.nodes.live t.root = true → Ended t.nodes t.blocks)
      (Q := fun t => Ended t.nodes t.blocks) h.ended (fun hmade => (wellEnded_mkdir h hmade).ended)
      (fun ht hlive => ht hlive) (fun hu hdir hv _ => hu.link hdir.live hv) (fun ht _ => ht) hcall⟩

theorem ended_step {c : VfsCall} (h : WellEnded s) (hstep : vfsStep s c = some s')
    (hlive : s'.nodes.live s'.root = true) : Ended s'.nodes s'.blocks := by
  obtain ⟨r, hcall⟩ := vfsStep_eq hstep
  cases c with
  | mkdir path => exact (wellEnded_mkdir h hcall).ended hlive
  | createFile path =>
    rcases vfsCreateFile_cases hcall with ⟨_, rfl⟩ | ⟨_, _, _, _, hfind, _, rfl⟩
    · exact h.ended hlive
    · exact ended_addNode (h.ended (findDirectory_ok_some hfind).1) (isDirectory_of_find hfind) rfl
  | createSymlink link target =>
    rcases vfsCreateSymlink_cases hcall with rfl | ⟨_, hfind, rfl⟩
    · exact h.ended hlive
    · exact (h.ended (findDirectory_ok_some hfind).1).link (isDirectory_of_find hfind).live rfl
  | deleteFile path =>
    rcases vfsDeleteFile_cases hcall with ⟨_, rfl⟩ | ⟨n, a, blocks, hfind, _, _, hfree, _, rfl⟩
    · exact h.ended hlive
    · exact ((h.ended (vfsFindNode_ok hfind).1).freed hfree).unlink n
  | rmdir path =>
    rcases vfsRmdir_cases hcall with ⟨_, rfl⟩ | ⟨n, _, hfind, _, _, _, _, rfl⟩
    · exact h.ended hlive
    · exact (h.ended (vfsFindNode_ok hfind).1).unlink n
  | writeFile path data =>
    rcases vfsWriteFile_cases hcall with
      ⟨_, rfl⟩ | ⟨n, a, blocks, content, hfind, _, _, _, hfree, _, _, rfl⟩
    · exact h.ended hlive
    · have hfound := (vfsFindNode_ok hfind).1
      exact ended_written (h.ended hfound) (h.consistent hfound) hfree content
  | readFile path =>
    obtain ⟨⟨found, t⟩, hread, hrest⟩ := Outcome.bind_eq_ok.mp hcall
    obtain ⟨rfl, rfl⟩ := Prod.mk.inj (Except.ok.inj hrest)
    rcases vfsReadFile_cases hread with ⟨_, rfl⟩ | ⟨n, _, hfind, _, _, _, hload⟩
    · exact h.ended hlive
    · have hfound := (vfsFindNode_ok hfind).1
      rcases hload with ⟨_, _, _, rfl⟩ | ⟨_, content, _, _, rfl⟩
      · exact h.ended hfound
      · exact ended_loaded (h.ended hfound) (h.consistent hfound) content
  | chmod path mode =>
    rcases vfsChmod_cases hcall with rfl | ⟨n, _, hfind, _, _, rfl⟩
    · exact h.ended hlive
    · exact (h.ended (vfsFindNode_ok hfind).1).update n (fun _ => rfl) fun _ => rfl
  | chown path owner group =>
    rcases vfsChown_cases hcall with rfl | ⟨n, hfind, _, rfl⟩
    · exact h.ended hlive
    · exact (h.ended (vfsFindNode_ok hfind).1).update n (fun _ => rfl) fun _ => rfl
  | chdir path =>
    rcases vfsChdir_cases hcall with rfl | ⟨_, rfl⟩
    · exact h.ended hlive
    · exact h.ended hlive
  | mountPersistent vmPath hostPath => exact (wellEnded_mount h hcall).ended hlive
  | setHostRoot hostRoot =>
    obtain ⟨rfl, rfl⟩ := Prod.mk.inj (Except.ok.inj hcall)
    exact h.ended hlive
  | identify identity =>
    obtain ⟨rfl, rfl⟩ := Prod.mk.inj (Except.ok.inj hcall)
    exact h.ended hlive
  | hostChange entries mayRead mayWrite =>
    obtain ⟨rfl, rfl⟩ := Prod.mk.inj (Except.ok.inj hcall)
    exact h.ended hlive
  | wait clock =>
    obtain ⟨rfl, rfl⟩ := Prod.mk.inj (Except.ok.inj hcall)
    exact h.ended hlive

theorem wellEnded_step {c : VfsCall} (h : WellEnded s) (hstep : vfsStep s c = some s') :
    WellEnded s' := ⟨consistent_step h.consistent hstep, ended_step h hstep⟩

end Calls

section Reach

variable {s s' : VfsState} {path text : Bytes}

theorem ended_blank (junk : Attr) (host : Host) (clock : Nat) :
    Ended (blankVfs junk host clock).nodes (blankVfs junk host clock).blocks := by
  intro n a p block _ _ hblock
  rw [blankVfs, Heap.get_empty] at hblock
  cases hblock

theorem Reachable.wellEnded (h : Reachable s) : WellEnded s := by
  obtain ⟨calls, hcalls⟩ := h
  refine hcalls.invariant ?_ (fun s s' path r _ hs hcall => wellEnded_mkdir hs hcall)
    fun s c s' hs _ hstep => wellEnded_step hs hstep
  intro junk host clock
  exact ⟨fun _ => sound_blank junk host clock, fun _ => ended_blank junk host clock⟩

theorem WellEnded.read (h : WellEnded s) (hread : readBytes s path = some text) :
    ∃ p t rest, vfsReadFile s path = .ok (some (some p, text.length), t) ∧
      t.blocks.get p = some (text ++ rest) ∧ (rest = [] ∨ rest = [0]) := by
  unfold readBytes at hread
  split at hread
  · next data size t hcall =>
    have hbytes := Option.some.inj hread
    rcases vfsReadFile_cases hcall with ⟨hnone, _⟩ | ⟨n, a, hfind, ha, _, _, hload⟩
    · cases hnone
    · have hlive := (vfsFindNode_ok hfind).1
      rcases hload with ⟨p, hdata, hfound, rfl⟩ | ⟨_, content, _, hfound, rfl⟩
      · obtain ⟨rfl, rfl⟩ := Prod.mk.inj (Option.some.inj hfound)
        obtain ⟨block, hblock, _⟩ := (h.consistent hlive).stored ha hdata
        simp only [bytesAt, hblock, Option.getD_some] at hbytes
        rcases h.ended hlive n a p block ha hdata hblock with hlen | ⟨whole, hlen, rfl⟩
        · obtain rfl : block = text := by rw [← hbytes, ← hlen, List.take_length]
          exact ⟨p, t, [], hlen ▸ hcall, by simpa using hblock, .inl rfl⟩
        · obtain rfl : whole = text := by
            rw [← hbytes, ← hlen, List.take_left]
          exact ⟨p, t, [0], hlen ▸ hcall, hblock, .inr rfl⟩
      · obtain ⟨rfl, rfl⟩ := Prod.mk.inj (Option.some.inj hfound)
        have hblock : (loaded s n content).blocks.get s.blocks.size = some (content ++ [0]) :=
          Heap.get_alloc_self s.blocks (content ++ [0])
        simp only [bytesAt, hblock, Option.getD_some, List.take_left] at hbytes
        subst hbytes
        exact ⟨s.blocks.size, _, [0], hcall, hblock, .inr rfl⟩
  · cases hread

theorem WellEnded.read_copied (h : WellEnded s) (hread : readBytes s path = some text) :
    ∃ p t, vfsReadFile s path = .ok (some (some p, text.length), t) ∧
      copyFrom t.blocks (some p) 0 text.length = .ok text := by
  obtain ⟨p, t, rest, hcall, hblock, -⟩ := h.read hread
  exact ⟨p, t, hcall, by simp [copyFrom, hblock]⟩

-- What a command prints of a file that it reads whole, or in its place.
def showFile {α : Type} (s : VfsState) (path : Bytes) (missing : α) (shown : Bytes → Checked α) :
    Checked (α × VfsState) := do
  match ← Checked.of (vfsReadFile s path) with
  | (some (some p, size), s) => do
    let content ← Checked.of (copyFrom s.blocks (some p) 0 size)
    let printed ← shown content
    .ok (printed, s)
  | (_, s) => .ok (missing, s)

theorem showFile_eq (hreach : Reachable s) (hread : readBytes s path = some text) :
    ∃ t, ∀ {α : Type} (missing : α) (shown : Bytes → Checked α),
      showFile s path missing shown = (fun printed => (printed, t)) <$> shown text := by
  obtain ⟨p, t, hcall, hcopy⟩ := hreach.wellEnded.read_copied hread
  refine ⟨t, fun missing shown => ?_⟩
  simp only [showFile, hcall, Checked.of, Except.mapError, bind, Except.bind, hcopy]
  rfl

theorem two_le_of_tail {argv : List Bytes} (h : argv.tail ≠ []) : ¬ argv.length < 2 := by
  match argv with
  | [] => exact absurd rfl h
  | [_] => exact absurd rfl h
  | _ :: _ :: _ => exact Nat.not_lt.mpr (Nat.le_add_left 2 _)

end Reach

end ZoraVM.Vfs

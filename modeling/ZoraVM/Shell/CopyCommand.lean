import ZoraVM.Shell.CopiedFile

namespace ZoraVM.Shell

open Foundation Vfs

variable {s : VfsState} {p q dir name c r : Bytes} {n m parent : Nat} {a b e : Attr}

section Copy

variable {src dest : Bytes} {found : Option Nat} (S : Source s p n a c)
  (hp : IsDirectory s.nodes parent) (hname : name.length < 256)

theorem readBytes_absent (h : vfsFindNode s r = .ok none) : readBytes s r = none := by
  simp [readBytes, vfsReadFile, h, bind, Except.bind]

include S hp hname in
theorem readBytes_source (hspares : sparesPath s p parent name = true) :
    readBytes (made s parent name) p = contentOf (made s parent name) a := by
  have hfind : vfsFindNode (made s parent name) p = .ok (some n) := by
    rw [find_made S.sound hp hname hspares, S.find]
  rw [readBytes_made hp hfind S.node S.file, if_pos S.readable]

include S hp hname in
theorem readBytes_source_copied (hspares : sparesPath s p parent name = true) {d : Nat} (hd : d ≠ n)
    (hdata : a.data ≠ none) :
    readBytes (storeData (made s parent name) d (made s parent name).blocks (some c)) p = some c := by
  have hfind : vfsFindNode (made s parent name) p = .ok (some n) := by
    rw [find_made S.sound hp hname hspares, S.find]
  have hblock : ∀ pa, a.data = some pa → pa < (made s parent name).blocks.size := by
    intro pa hpa
    rw [made_eq]
    exact S.sound.lt_size S.node hpa
  rw [readBytes_storeData_of_ne hfind hd.symm (valAt_made_old hp name S.node) S.file hblock,
    readBytes_source S hp hname hspares, contentOf_made hdata, S.contentOf_eq]

include S hp hname in
theorem readBytes_shadowed (hspares : sparesPath s p parent name = false)
    (hfound : found ≠ some s.nodes.size) :
    readBytes (copiedTo (made s parent name) found a c) p = none := by
  have hunread : readBytes (made s parent name) p = none := by
    rcases S.shadowed hp hname hspares with hfind | ⟨hfind, _⟩
    · exact readBytes_absent hfind
    · exact readBytes_made_new hp hfind
  by_cases hdata : a.data = none
  · rw [copiedTo_unloaded hdata, hunread]
  · cases found with
    | none => rw [copiedTo_nowhere, hunread]
    | some d =>
      rw [copiedTo_some hdata]
      rcases S.shadowed hp hname hspares with hfind | ⟨hfind, _⟩
      · exact readBytes_absent (by rw [find_storeData, hfind])
      · have hval : Forest.valAt (made s parent name).nodes s.nodes.size =
            some (vfsCreateFileNode s name) := by rw [valAt_made hp, if_pos rfl]
        have hne : s.nodes.size ≠ d := fun he => hfound (he ▸ rfl)
        rw [readBytes_storeData_of_ne hfind hne hval rfl (fun _ hpe => by cases hpe), hunread]

theorem permits_newFile (identity : Identity) (s : VfsState) (name user : Bytes) :
    permits identity (vfsCreateFileNode s name) user (permRead >>> 6) = true := by
  have hmode : (vfsCreateFileNode s name).mode = defaultFilePerms := rfl
  unfold permits
  rw [hmode]
  split
  · rfl
  · split
    · decide
    · split <;> decide

include hp in
theorem readBytes_new_copied (hdata : a.data ≠ none)
    (hfind : vfsFindNode (made s parent name) r = .ok (some s.nodes.size)) :
    readBytes (copiedTo (made s parent name) (some s.nodes.size) a c) r = some c := by
  have hval : Forest.valAt (made s parent name).nodes s.nodes.size =
      some (vfsCreateFileNode s name) := by rw [valAt_made hp, if_pos rfl]
  rw [copiedTo_some hdata, readBytes_storeData_self hfind hval rfl, if_pos (permits_newFile _ s name _)]

include hp in
theorem readBytes_old_copied (hdata : a.data ≠ none)
    (hfind : vfsFindNode (made s parent name) r = .ok (some m))
    (hb : Forest.valAt s.nodes m = some b) (hfile : b.isDirectory = false) :
    readBytes (copiedTo (made s parent name) (some m) a c) r =
      if permits s.identity b s.identity.vfsCurrentUser (permRead >>> 6) = true then some c
      else none := by
  rw [copiedTo_some hdata, readBytes_storeData_self hfind (valAt_made_old hp name hb) hfile, made_eq]

theorem vfsCreateFile_eq {target : Option Nat} (hsplit : splitPath q = .ok (dir, name))
    (hdir : findDirectory s dir = .ok target) :
    vfsCreateFile s q = .ok (target.elim (-1, s) fun parent => (0, made s parent name)) := by
  cases target <;> simp [vfsCreateFile, hsplit, hdir, bind, Except.bind, made]

variable (hsrc : fullPath s.currentDirectory src = p) (hdest : fullPath s.currentDirectory dest = q)
  (hsplit : splitPath q = .ok (dir, name))

include S hsrc hdest hsplit

theorem cpCommand_notCreated (hdir : findDirectory s dir = .ok none) :
    cpCommand s src dest = .ok (.notCreated, s) := by
  have hcreate := vfsCreateFile_eq hsplit hdir
  simp [cpCommand, hsrc, hdest, S.find, nodeAt_of_valAt S.node, S.file, hcreate, bind, Except.bind]

theorem cpCommand_copied (hdir : findDirectory s dir = .ok (some parent))
    (hfound : vfsFindNode (made s parent name) q = .ok found) (hne : found ≠ some n) :
    cpCommand s src dest = .ok (.copied, copiedTo (made s parent name) found a c) := by
  have hcreate := vfsCreateFile_eq hsplit hdir
  have hcopy : copyNodeData (made s parent name) n found =
      .ok (copiedTo (made s parent name) found a c) := by
    refine copyNodeData_eq (valAt_made_old (isDirectory_of_find hdir) name S.node) ?_ hne
    intro pa hpa
    rw [made_eq]
    exact S.stored hpa
  simp [cpCommand, hsrc, hdest, S.find, nodeAt_of_valAt S.node, S.file, hcreate, hfound, hcopy, bind,
    Except.bind]

theorem copyKeeps_created (hdir : findDirectory s dir = .ok (some parent))
    (hfound : vfsFindNode (made s parent name) q = .ok found) (hne : found ≠ some n) :
    CopyKeeps s src dest c ↔
      readBytes (copiedTo (made s parent name) found a c) q = some c ∧
        readBytes (copiedTo (made s parent name) found a c) p = some c := by
  have hcall := cpCommand_copied S hsrc hdest hsplit hdir hfound hne
  simp [CopyKeeps, hcall, hsrc, hdest]

theorem copyKeeps_new (hdir : findDirectory s dir = .ok (some parent)) (hlen : q.length < 256)
    (hfind : vfsFindNode (made s parent name) q = .ok (some s.nodes.size))
    (hspares : sparesPath s p parent name = true) :
    CopyKeeps s src dest c ↔
      (q.length < 256 ∧ a.data ≠ none) ∨
        CutToFile s p q a parent name fun b =>
          contentOf (made s parent name) a = some c ∧ contentOf (made s parent name) b = some c := by
  have hp := isDirectory_of_find hdir
  have hname := name_of_split hsplit
  have hnotcut : ∀ kept, ¬ CutToFile s p q a parent name kept := fun _ h => by
    have hlong := h.1
    omega
  rw [copyKeeps_created S hsrc hdest hsplit hdir hfind fun he => S.ne_fresh (Option.some.inj he).symm]
  simp only [hlen, true_and, hnotcut, or_false]
  constructor
  · rintro ⟨hread, _⟩ hdata
    rw [copiedTo_unloaded hdata, readBytes_made_new hp hfind] at hread
    cases hread
  · intro hdata
    refine ⟨readBytes_new_copied hp hdata hfind, ?_⟩
    rw [copiedTo_some hdata]
    exact readBytes_source_copied S hp hname hspares S.ne_fresh.symm hdata

theorem copyKeeps_cut (hdir : findDirectory s dir = .ok (some parent)) (hlen : 256 ≤ q.length)
    (hother : AbsentOrOther s q n) (hfind : vfsFindNode (made s parent name) q = vfsFindNode s q) :
    CopyKeeps s src dest c ↔
      (q.length < 256 ∧ a.data ≠ none) ∨
        CutToFile s p q a parent name fun b =>
          contentOf (made s parent name) a = some c ∧ contentOf (made s parent name) b = some c := by
  have hp := isDirectory_of_find hdir
  have hname := name_of_split hsplit
  have hshort : ¬ q.length < 256 := by omega
  simp only [hshort, false_and, false_or]
  rcases hother with hnone | ⟨m, b, hm, hmn, hb, hfile, _⟩
  · rw [copyKeeps_created S hsrc hdest hsplit hdir (hfind.trans hnone) fun he => by cases he]
    constructor
    · rintro ⟨hread, _⟩
      rw [copiedTo_nowhere, readBytes_absent (hfind.trans hnone)] at hread
      cases hread
    · rintro ⟨_, _, m, _, hm, _⟩
      rw [hnone] at hm
      cases hm
  · have hfind' := hfind.trans hm
    have hmfresh : m ≠ s.nodes.size :=
      Nat.ne_of_lt (Forest.live_lt_size (Forest.live_iff_valAt.mpr ⟨b, hb⟩))
    rw [copyKeeps_created S hsrc hdest hsplit hdir hfind' fun he => hmn (Option.some.inj he)]
    have hcut : CutToFile s p q a parent name (fun b =>
          contentOf (made s parent name) a = some c ∧ contentOf (made s parent name) b = some c) ↔
        sparesPath s p parent name = true ∧
          permits s.identity b s.identity.vfsCurrentUser (permRead >>> 6) = true ∧
          (a.data ≠ none ∨ contentOf (made s parent name) a = some c ∧
            contentOf (made s parent name) b = some c) := by
      simp [CutToFile, hlen, hm, hb]
    rw [hcut]
    cases hspares : sparesPath s p parent name with
    | false =>
      have hfound : some m ≠ some s.nodes.size := fun he => hmfresh (Option.some.inj he)
      simp [readBytes_shadowed S hp hname hspares hfound]
    | true =>
      by_cases hdata : a.data = none
      · rw [copiedTo_unloaded hdata, readBytes_made hp hfind' hb hfile,
          readBytes_source S hp hname hspares]
        by_cases hperm : permits s.identity b s.identity.vfsCurrentUser (permRead >>> 6) = true
        · simp [hperm, hdata, and_comm]
        · simp [hperm]
      · rw [readBytes_old_copied hp hdata hfind' hb hfile, copiedTo_some hdata,
          readBytes_source_copied S hp hname hspares hmn hdata]
        simp [hdata]

theorem copyKeeps_iff (hother : AbsentOrOther s q n) :
    CopyKeeps s src dest c ↔ Copyable s p q a c := by
  obtain ⟨found, hdir⟩ := findDirectory_total S.sound dir
  have hone : Copyable s p q a c ↔ ∀ parent, findDirectory s dir = .ok (some parent) →
      (q.length < 256 ∧ a.data ≠ none) ∨
        CutToFile s p q a parent name fun b =>
          contentOf (made s parent name) a = some c ∧ contentOf (made s parent name) b = some c := by
    simp [Copyable, hsplit]
  rw [hone, hdir]
  cases found with
  | none =>
    have hcall := cpCommand_notCreated S hsrc hdest hsplit hdir
    simp [CopyKeeps, hcall, hsrc, S.content]
  | some parent =>
    have hcases : CopyKeeps s src dest c ↔ (q.length < 256 ∧ a.data ≠ none) ∨
        CutToFile s p q a parent name fun b =>
          contentOf (made s parent name) a = some c ∧ contentOf (made s parent name) b = some c := by
      rcases S.destination (isDirectory_of_find hdir) hother hsplit hdir with
        ⟨hlen, hfind, hspares⟩ | ⟨hlen, hfind, _⟩
      · exact copyKeeps_new S hsrc hdest hsplit hdir hlen hfind hspares
      · exact copyKeeps_cut S hsrc hdest hsplit hdir hlen hother hfind
    rw [hcases]
    simp

end Copy

end ZoraVM.Shell

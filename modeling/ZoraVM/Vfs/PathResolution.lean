import ZoraVM.Vfs.SiblingNames

namespace ZoraVM.Vfs

open Foundation

section Definitions

variable (s : VfsState) (path : Bytes)

def FindsFaithfully : Prop :=
  ∀ n, vfsFindNode s path = .ok (some n) ↔
    Forest.Denotes Attr.name s.nodes s.root (tokens slash path) n

def LeadsNowhere (names : List Bytes) : Prop :=
  ∀ n, ¬ Forest.Denotes Attr.name s.nodes s.root names n

end Definitions

variable {s : VfsState} {path : Bytes}

theorem find_iff_denotes (htree : Forest.WellFormed s.nodes s.root)
    (hd : Forest.SiblingsDistinct Attr.name s.nodes) (n : Nat) :
    vfsFindNode s path = .ok (some n) ↔
      Forest.Denotes Attr.name s.nodes s.root (pathComponents path) n := by
  rw [vfsFindNode_of_live htree.root_live, Except.ok.injEq, hd.walk_iff]

theorem find_faithful_iff (htree : Forest.WellFormed s.nodes s.root)
    (hd : Forest.SiblingsDistinct Attr.name s.nodes) :
    FindsFaithfully s path ↔ tokens slash (clip 256 path) = tokens slash path ∨
      LeadsNowhere s (tokens slash (clip 256 path)) ∧ LeadsNowhere s (tokens slash path) := by
  simp only [FindsFaithfully, find_iff_denotes htree hd, pathComponents, LeadsNowhere]
  constructor
  · intro h
    by_cases hsome : ∃ n, Forest.Denotes Attr.name s.nodes s.root (tokens slash (clip 256 path)) n
    · obtain ⟨n, hn⟩ := hsome
      exact .inl (htree.path_unique hn ((h n).mp hn))
    · rw [not_exists] at hsome
      exact .inr ⟨hsome, fun n hn => hsome n ((h n).mpr hn)⟩
  · rintro (hsame | ⟨hcut, hwhole⟩) n
    · rw [hsame]
    · exact iff_of_false (hcut n) (hwhole n)

section Concrete

def bootCalls : List VfsCall := [.mkdir (str "/bin/d")]

def bootedTree : VfsState := ran (fun s c => namingCall c && addsNoNamesake s c) (openHost []) bootCalls

theorem sound_of_naming {calls : List VfsCall} {s : VfsState}
    (hreach : ReachableBy (fun s c => (namingCall c && addsNoNamesake s c) = true) calls s)
    (hlive : s.nodes.live s.root = true) : Sound s.nodes s.blocks s.root ∧ Distinct s := by
  obtain ⟨hc, hd⟩ := (hreach.mono fun s c h => by simpa using h).distinct
  exact ⟨hc hlive, hd⟩

theorem bootedTree_sound :
    Sound bootedTree.nodes bootedTree.blocks bootedTree.root ∧ Distinct bootedTree :=
  sound_of_naming (reachableBy_ran (fun s c => namingCall c && addsNoNamesake s c) (openHost [])
    bootCalls (by decide +kernel) (by decide +kernel)) (by decide +kernel)

theorem find_faithful_iff_bin : FindsFaithfully bootedTree (str "bin//d/") :=
  (find_faithful_iff bootedTree_sound.1.tree bootedTree_sound.2).mpr (.inl (by decide +kernel))

def paddedPath : Bytes := str "/bin" ++ (List.replicate 251 slash ++ str "x")

theorem padded_path_cut :
    ¬ ∀ (s : VfsState) (path : Bytes), Forest.WellFormed s.nodes s.root →
      Forest.SiblingsDistinct Attr.name s.nodes → FindsFaithfully s path := by
  intro hall
  have hfaithful := hall bootedTree paddedPath bootedTree_sound.1.tree bootedTree_sound.2
  have hcut : Forest.walk Attr.name bootedTree.nodes bootedTree.root (tokens slash (clip 256 paddedPath)) =
      some 1 := by decide +kernel
  have hwhole : Forest.walk Attr.name bootedTree.nodes bootedTree.root (tokens slash paddedPath) =
      none := by decide +kernel
  have hfound := (hfaithful 1).mp ((find_iff_denotes bootedTree_sound.1.tree bootedTree_sound.2 1).mpr
    (.of_walk hcut))
  rw [← bootedTree_sound.2.walk_iff, hwhole] at hfound
  cases hfound

end Concrete

end ZoraVM.Vfs

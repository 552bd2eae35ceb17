import ZoraVM.Vfs.Soundness

namespace ZoraVM.Vfs

open Foundation

def NamesUnique (s : VfsState) : Prop :=
  (∀ n, ((Forest.childrenOf s.nodes n).map (Forest.keyAt Attr.name s.nodes)).Nodup) ∧
    ∀ names n m, Forest.Denotes Attr.name s.nodes s.root names n →
      Forest.Denotes Attr.name s.nodes s.root names m → n = m

section Guard

variable (s : VfsState)

def freeName (dir name : Bytes) : Bool :=
  match findDirectory s dir with
  | .ok (some parent) => (Forest.childNamed Attr.name s.nodes parent name).isNone
  | _ => true

def loadedNames (h : Host) (hostPath : Bytes) : List Bytes :=
  (searchAll h hostPath).map fun e => clip 256 e.1

def listedApart (h : Host) : Nat → Bytes → Bool
  | 0, _ => true
  | fuel + 1, hostPath =>
    decide (loadedNames h hostPath).Nodup && (searchAll h hostPath).all fun e =>
      match e.2 with
      | .directory => listedApart h fuel (entryPath hostPath e.1)
      | .file _ => true

def mountsApart (vmPath hostPath : Bytes) : Bool :=
  match mountPoint s vmPath with
  | .ok (some n, t) =>
    let h := (preparedHost t hostPath).host
    listedApart h maxPath hostPath && (loadedNames h hostPath).all fun name =>
      (Forest.childNamed Attr.name t.nodes n name).isNone
  | _ => true

def addsNoNamesake : VfsCall → Bool
  | .createFile path =>
    match splitPath path with
    | .ok (dir, name) => freeName s dir name
    | .error _ => true
  | .createSymlink linkPath _ => freeName s (splitLinkPath linkPath).1 (splitLinkPath linkPath).2
  | .mountPersistent vmPath hostPath => mountsApart s vmPath hostPath
  | _ => true

def namingCall : VfsCall → Bool
  | .mkdir _ => true
  | .createFile _ => true
  | .createSymlink _ _ => true
  | .deleteFile _ => true
  | .rmdir _ => true
  | .writeFile _ _ => true
  | .mountPersistent _ _ => true
  | _ => false

end Guard

variable {s s' t u : VfsState} {n : Nat} {names names' : List Bytes} {name : Bytes}

abbrev Distinct (s : VfsState) : Prop := Forest.SiblingsDistinct Attr.name s.nodes

section Load

structure Grown (s s' : VfsState) (n : Nat) (names : List Bytes) : Prop where
  sound : Sound s'.nodes s'.blocks s'.root
  distinct : Distinct s'
  host : s'.host = s.host
  directory : IsDirectory s'.nodes n
  others : ∀ k name, s.nodes.live k = true → k ≠ n →
    Forest.childNamed Attr.name s'.nodes k name = Forest.childNamed Attr.name s.nodes k name
  live : ∀ k, s.nodes.live k = true → s'.nodes.live k = true
  own : ∀ name, name ∉ names →
    Forest.childNamed Attr.name s'.nodes n name = Forest.childNamed Attr.name s.nodes n name

theorem Grown.refl (hs : Sound s.nodes s.blocks s.root) (hd : Distinct s)
    (hn : IsDirectory s.nodes n) : Grown s s n [] :=
  ⟨hs, hd, rfl, hn, fun _ _ _ _ => rfl, fun _ hk => hk, fun _ _ => rfl⟩

theorem Grown.trans (h : Grown s t n names) (h' : Grown t u n names') :
    Grown s u n (names ++ names') := by
  refine ⟨h'.sound, h'.distinct, h'.host.trans h.host, h'.directory, ?_, ?_, ?_⟩
  · intro k name hk hkn
    rw [h'.others k name (h.live k hk) hkn, h.others k name hk hkn]
  · exact fun k hk => h'.live k (h.live k hk)
  · intro name hname
    obtain ⟨h1, h2⟩ : name ∉ names ∧ name ∉ names' := by simpa using hname
    rw [h'.own name h2, h.own name h1]

theorem Grown.addChild (hs : Sound s.nodes s.blocks s.root) (hd : Distinct s)
    (hn : IsDirectory s.nodes n) {v : Attr} (hv : v.data = none)
    (hfree : Forest.childNamed Attr.name s.nodes n v.name = none) :
    Grown s (vfsAddChild s n v) n [v.name] := by
  refine ⟨sound_addChild hs hn hv, hd.link hs.tree hn.live hfree, rfl, hn.link hn.live v, ?_, ?_, ?_⟩
  · intro k name _ hkn
    simp [vfsAddChild, Forest.childNamed_link hs.tree hn.live, hkn]
  · exact fun k hk => (Forest.live_link hn.live v k).mpr (.inr hk)
  · intro name hname
    have hne : v.name ≠ name := fun he => hname (by simp [he])
    simp [vfsAddChild, Forest.childNamed_link hs.tree hn.live, hne]

theorem Grown.inside (h : Grown s t n names) {c : Nat} (hn : s.nodes.live n = true)
    (hfresh : s.nodes.live c = false) (h' : Grown t u c names') (hdir : IsDirectory u.nodes n) :
    Grown s u n names := by
  have hne : ∀ {k}, s.nodes.live k = true → k ≠ c := by
    rintro k hk rfl
    exact Bool.false_ne_true (hfresh.symm.trans hk)
  refine ⟨h'.sound, h'.distinct, h'.host.trans h.host, hdir, ?_, ?_, ?_⟩
  · intro k name hk hkn
    rw [h'.others k name (h.live k hk) (hne hk), h.others k name hk hkn]
  · exact fun k hk => h'.live k (h.live k hk)
  · intro name hname
    rw [h'.others n name (h.live n hn) (hne hn), h.own name hname]

theorem Grown.fold {α : Type} {entries : List α} {f : VfsState → α → Outcome VfsState}
    {nameOf : α → Bytes}
    (hone : ∀ t e t', e ∈ entries → Sound t.nodes t.blocks t.root → Distinct t →
      IsDirectory t.nodes n → t.host = s.host →
      Forest.childNamed Attr.name t.nodes n (nameOf e) = none → f t e = .ok t' →
      Grown t t' n [nameOf e])
    (hs : Sound s.nodes s.blocks s.root) (hd : Distinct s) (hn : IsDirectory s.nodes n)
    (hnodup : (entries.map nameOf).Nodup)
    (hfree : ∀ e ∈ entries, Forest.childNamed Attr.name s.nodes n (nameOf e) = none)
    (h : entries.foldlM f s = .ok s') : Grown s s' n (entries.map nameOf) := by
  induction entries generalizing s with
  | nil =>
    obtain rfl := Except.ok.inj h
    exact .refl hs hd hn
  | cons e entries ih =>
    rw [List.foldlM_cons] at h
    obtain ⟨t, hstep, hrest⟩ := Outcome.bind_eq_ok.mp h
    have hfirst := hone s e t List.mem_cons_self hs hd hn rfl (hfree e List.mem_cons_self) hstep
    rw [List.map_cons, List.nodup_cons] at hnodup
    refine hfirst.trans (ih ?_ hfirst.sound hfirst.distinct hfirst.directory hnodup.2 ?_ hrest)
    · intro t₁ e₁ t₂ he hs₁ hd₁ hn₁ hhost
      exact hone t₁ e₁ t₂ (List.mem_cons_of_mem e he) hs₁ hd₁ hn₁ (hhost.trans hfirst.host)
    · intro e₁ he
      have hne : nameOf e₁ ≠ nameOf e := fun heq => hnodup.1 (heq ▸ List.mem_map_of_mem he)
      rw [hfirst.own _ (by simpa using hne)]
      exact hfree e₁ (List.mem_cons_of_mem e he)

theorem childNamed_fresh (hs : Sound s.nodes s.blocks s.root) (hn : IsDirectory s.nodes n)
    (v : Attr) (name : Bytes) :
    Forest.childNamed Attr.name (vfsAddChild s n v).nodes s.nodes.size name = none := by
  have hne : s.nodes.size ≠ n := Nat.ne_of_gt (Forest.live_lt_size hn.live)
  have hleaf : Forest.childNamed Attr.name s.nodes s.nodes.size name = none :=
    Forest.childNamed_of_leaf (Forest.childrenOf_size s.nodes)
  simpa [vfsAddChild, Forest.childNamed_link hs.tree hn.live, hne] using hleaf

theorem grown_load {fuel : Nat} {hostPath : Bytes} (hs : Sound s.nodes s.blocks s.root)
    (hd : Distinct s) (hn : IsDirectory s.nodes n) (hlist : listedApart s.host fuel hostPath = true)
    (hfree : ∀ name ∈ loadedNames s.host hostPath,
      Forest.childNamed Attr.name s.nodes n name = none)
    (h : vfsLoadHostDirectory fuel s n hostPath = .ok s') :
    Grown s s' n (loadedNames s.host hostPath) := by
  induction fuel generalizing s n hostPath s' with
  | zero => cases h
  | succ fuel ih =>
    simp only [listedApart, Bool.and_eq_true, decide_eq_true_eq, List.all_eq_true] at hlist
    obtain ⟨hnodup, hsubs⟩ := hlist
    refine Grown.fold ?_ hs hd hn hnodup (fun e he => hfree _ (List.mem_map_of_mem he)) h
    rintro t ⟨name, entry⟩ t' he hst hdt hnt hhost hname hstep
    cases entry with
    | file content =>
      obtain rfl := Except.ok.inj hstep
      exact .addChild hst hdt hnt rfl hname
    | directory =>
      have hmade := Grown.addChild (v := vfsCreateDirectoryNode t name) hst hdt hnt rfl hname
      have hdir : IsDirectory (vfsAddChild t n (vfsCreateDirectoryNode t name)).nodes t.nodes.size :=
        isDirectory_fresh hnt rfl
      have hsub : listedApart t.host fuel (entryPath hostPath name) = true :=
        hhost ▸ hsubs (name, .directory) he
      have hbelow := ih hmade.sound hmade.distinct hdir hsub
        (fun k _ => childNamed_fresh hst hnt _ k) hstep
      have hkeep := (load_induct (P := fun _ => True) (fun _ _ _ _ => trivial) trivial hdir
        hstep).2 n hmade.directory
      exact hmade.inside hnt.live (Forest.not_live_size _) hbelow hkeep

end Load

section Steps

variable {path : Bytes} {r : Int}

theorem distinct_addNode (hs : Sound s.nodes s.blocks s.root) (hd : Distinct s) {parent : Nat}
    {v : Attr} (hp : IsDirectory s.nodes parent)
    (hfree : Forest.childNamed Attr.name s.nodes parent v.name = none) :
    Distinct (addNode s parent v) := by
  have hlink : Distinct (vfsAddChild s parent v) := hd.link hs.tree hp.live hfree
  rw [addNode_eq]
  exact hlink

theorem distinct_mkdir (hc : Consistent s) (hd : Distinct s) (h : vfsMkdir s path = .ok (r, s')) :
    Distinct s' := by
  rcases vfsMkdir_cases h with rfl | ⟨_, name, _, hsplit, hfind, hfree, _, rfl⟩
  · exact hd
  · have hname : (vfsCreateDirectoryNode s name).name = name :=
      clip_of_length_lt (name_of_split hsplit)
    refine distinct_addNode (hc (findDirectory_ok_some hfind).1) hd (isDirectory_of_find hfind) ?_
    rw [hname, hfree]

theorem distinct_unlink (hs : Sound s.nodes s.blocks s.root) (hd : Distinct s) :
    Forest.SiblingsDistinct Attr.name (Forest.unlink s.nodes n) := hd.unlink hs.tree n

theorem distinct_written (hd : Distinct s) (blocks : Heap Bytes) (content : Option Bytes) :
    Distinct (written s n blocks content) := by
  rw [written_eq]
  cases content with
  | none =>
    have hstored := hd.update (u := withData none 0) (fun _ => rfl) n
    exact hstored.update (u := touched s.clock) (fun _ => rfl) n
  | some b =>
    have hstored := hd.update (u := withData (some blocks.size) b.length) (fun _ => rfl) n
    exact hstored.update (u := touched s.clock) (fun _ => rfl) n

theorem distinct_mount {hostPath : Bytes} (hc : Consistent s) (hd : Distinct s)
    (hapart : mountsApart s path hostPath = true)
    (h : vfsMountPersistent s path hostPath = .ok (r, s')) : Distinct s' := by
  obtain ⟨found, t, hpoint, hrest⟩ := vfsMountPersistent_cases h
  obtain ⟨ht, hdir⟩ := mountPoint_cases hpoint
  have hboth : Consistent t ∧ Distinct t := by
    rcases ht with rfl | ⟨r, _, hmade⟩
    · exact ⟨hc, hd⟩
    · exact ⟨consistent_mkdir hc hmade, distinct_mkdir hc hd hmade⟩
  rcases hrest with ⟨_, rfl⟩ | ⟨n, rfl, hload⟩
  · exact hboth.2
  · have hfind := hdir n rfl
    obtain ⟨hlist, hnames⟩ : listedApart (preparedHost t hostPath).host maxPath hostPath = true ∧
        ∀ name ∈ loadedNames (preparedHost t hostPath).host hostPath,
          Forest.childNamed Attr.name t.nodes n name = none := by
      simpa [mountsApart, hpoint] using hapart
    exact (grown_load (s := preparedHost t hostPath) (hboth.1 (findDirectory_ok_some hfind).1)
      hboth.2 (isDirectory_of_find hfind) hlist hnames hload).distinct

theorem distinct_step {c : VfsCall} (hc : Consistent s) (hd : Distinct s)
    (hcall : namingCall c = true) (hadds : addsNoNamesake s c = true)
    (hstep : vfsStep s c = some s') : Distinct s' := by
  obtain ⟨r, h⟩ := vfsStep_eq hstep
  cases c with
  | mkdir path => exact distinct_mkdir hc hd h
  | createFile path =>
    rcases vfsCreateFile_cases h with ⟨_, rfl⟩ | ⟨_, name, parent, hsplit, hfind, _, rfl⟩
    · exact hd
    · have hfree : Forest.childNamed Attr.name s.nodes parent name = none := by
        simpa [addsNoNamesake, hsplit, freeName, hfind] using hadds
      have hname : (vfsCreateFileNode s name).name = name :=
        clip_of_length_lt (name_of_split hsplit)
      refine distinct_addNode (hc (findDirectory_ok_some hfind).1) hd (isDirectory_of_find hfind) ?_
      rw [hname, hfree]
  | createSymlink link target =>
    rcases vfsCreateSymlink_cases h with rfl | ⟨parent, hfind, rfl⟩
    · exact hd
    · have hfree : Forest.childNamed Attr.name s.nodes parent (splitLinkPath link).2 = none := by
        simpa [addsNoNamesake, freeName, hfind] using hadds
      have hname : (vfsSymlinkNode s (splitLinkPath link).2 target).name = (splitLinkPath link).2 := by
        unfold splitLinkPath
        cases splitLast slash link <;> exact clip_clip 256 _
      refine hd.link (hc (findDirectory_ok_some hfind).1).tree (isDirectory_of_find hfind).live ?_
      rw [hname, hfree]
  | deleteFile path =>
    rcases vfsDeleteFile_cases h with ⟨_, rfl⟩ | ⟨n, a, blocks, hfind, _, _, _, _, rfl⟩
    · exact hd
    · exact distinct_unlink (hc (vfsFindNode_ok hfind).1) hd
  | rmdir path =>
    rcases vfsRmdir_cases h with ⟨_, rfl⟩ | ⟨n, a, hfind, _, _, _, _, rfl⟩
    · exact hd
    · exact distinct_unlink (hc (vfsFindNode_ok hfind).1) hd
  | writeFile path data =>
    rcases vfsWriteFile_cases h with ⟨_, rfl⟩ | ⟨n, a, blocks, content, _, _, _, _, _, _, _, rfl⟩
    · exact hd
    · exact distinct_written hd blocks content
  | mountPersistent vmPath hostPath => exact distinct_mount hc hd hadds h
  | _ => cases hcall

end Steps

theorem ReachableBy.distinct {calls : List VfsCall}
    (h : ReachableBy (fun s c => namingCall c = true ∧ addsNoNamesake s c = true) calls s) :
    Consistent s ∧ Distinct s := by
  refine h.invariant (P := fun s => Consistent s ∧ Distinct s) ?_ ?_ ?_
  · intro junk host clock
    refine ⟨fun _ => sound_blank junk host clock, fun n => ?_⟩
    rw [show Forest.childrenOf (blankVfs junk host clock).nodes n = [] from
      Forest.childrenOf_single _ n]
    exact List.nodup_nil
  · exact fun s s' path r _ hs hcall => ⟨consistent_mkdir hs.1 hcall, distinct_mkdir hs.1 hs.2 hcall⟩
  · exact fun s c s' hs hok hstep =>
      ⟨consistent_step hs.1 hstep, distinct_step hs.1 hs.2 hok.1 hok.2 hstep⟩

theorem names_unique_of_no_namesake {calls : List VfsCall}
    (h : ReachableBy (fun s c => namingCall c = true ∧ addsNoNamesake s c = true) calls s) :
    NamesUnique s := by
  have hd := h.distinct.2
  exact ⟨hd, fun _ _ _ hn hm => hd.denotes_unique hn hm⟩

def sampleHost : Host :=
  openHost [(⟨false, [str "z"]⟩, .directory), (⟨false, [str "f", str "z"]⟩, .file (str "hi")),
    (⟨false, [str "d", str "z"]⟩, .directory), (⟨false, [str "f", str "d", str "z"]⟩, .file [])]

def sampleCalls : List VfsCall :=
  [.mkdir (str "/m"), .createFile (str "/m/a"), .mountPersistent (str "/m") (str "z"),
    .createSymlink (str "/m/d/l") (str "/m/a"), .writeFile (str "/m/a") (str "text"),
    .deleteFile (str "/m/a"), .createFile (str "/m/a"), .mkdir (str "/m")]

theorem names_unique_of_no_namesake_sample :
    NamesUnique (ran (fun s c => namingCall c && addsNoNamesake s c) sampleHost sampleCalls) := by
  have hreach := reachableBy_ran (fun s c => namingCall c && addsNoNamesake s c) sampleHost
    sampleCalls (by decide +kernel) (by decide +kernel)
  exact names_unique_of_no_namesake (hreach.mono fun s c h => by simpa using h)

def hostNamesUnique (h : Host) : Bool := decide (h.entries.map Prod.fst).Nodup

theorem second_create_duplicates :
    ¬ ∀ (calls : List VfsCall) (s : VfsState),
      ReachableBy (fun s c => namingCall c = true ∧ hostNamesUnique s.host = true) calls s →
      NamesUnique s := by
  intro hall
  have hreach := reachableBy_ran (fun s c => namingCall c && hostNamesUnique s.host) (openHost [])
    [.createFile (str "/a"), .createFile (str "/a")] (by decide +kernel) (by decide +kernel)
  have hunique := hall _ _ (hreach.mono fun s c h => by simpa using h)
  exact absurd (hunique.1 0) (by decide +kernel)

end ZoraVM.Vfs

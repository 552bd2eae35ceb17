import ZoraVM.Vfs.SyncFrames

namespace ZoraVM.Vfs

open Foundation Location

-- Whether the copy on the host is read again: by then the time of the file is 0.
def Rereads (h : Host) (writeTime : Location → BitVec 64) (l : Location) : Prop :=
  h.mayRead l = true ∧ 0 < timeOfFileTime (writeTime l)

structure SameData (s s' : VfsState) (a b : Attr) : Prop where
  size : b.size = a.size
  content : nodeContent s' b = nodeContent s a

structure FileSynced (h : Host) (writeTime : Location → BitVec 64) (l : Location) (fresh : Bytes)
    (s s' : VfsState) (a b : Attr) : Prop where
  loaded : Rereads h writeTime l →
    b.size = (loadedBytes fresh).length ∧ nodeContent s' b = loadedBytes fresh
  kept : ¬ Rereads h writeTime l → SameData s s' a b

structure Tracked (n : Nat) (names : List Bytes) (c : Nat) (a : Attr) (s : VfsState) : Prop where
  steady : Steady s.nodes s.blocks
  walk : Forest.walk Attr.name s.nodes n names = some c
  val : Forest.valAt s.nodes c = some a
  file : a.isDirectory = false
  directories : ∀ x, Forest.Above s.nodes c x → x ≠ c → IsDirectory s.nodes x

variable {h : Host} {writeTime : Location → BitVec 64} {hostPath name k : Bytes}
  {rest names : List Bytes} {s s' t t' : VfsState} {n m c x : Nat} {a b : Attr} {fresh : Bytes}
  {l : Location}

section Tracks

theorem SameData.refl (s : VfsState) (a : Attr) : SameData s s a a := ⟨rfl, rfl⟩

theorem SameData.trans {a' : Attr} (h₁ : SameData s t a a') (h₂ : SameData t s' a' b) :
    SameData s s' a b := ⟨h₂.size.trans h₁.size, h₂.content.trans h₁.content⟩

theorem FileSynced.between {a' : Attr} (hbefore : SameData s t a a')
    (hsync : FileSynced h writeTime l fresh t t' a' b) (hafter : SameData t' s' b b) :
    FileSynced h writeTime l fresh s s' a b := by
  refine ⟨fun hread => ?_, fun hnot => (hbefore.trans (hsync.kept hnot)).trans hafter⟩
  obtain ⟨hsize, hcontent⟩ := hsync.loaded hread
  exact ⟨hsize, hafter.content.trans hcontent⟩

namespace Tracked

theorem live (ht : Tracked n names c a s) : s.nodes.live c = true :=
  Forest.live_iff_valAt.mpr ⟨a, ht.val⟩

theorem upward (ht : Tracked n names c a s) : Forest.Upward (Forest.Above s.nodes c) s.nodes :=
  Forest.upward_above ht.steady.linked ht.live

theorem child (ht : Tracked n (name :: rest) c a s) :
    ∃ m, Forest.childNamed Attr.name s.nodes n name = some m ∧
      Forest.walk Attr.name s.nodes m rest = some c ∧ Forest.parentOf s.nodes m = some n ∧
      Forest.Above s.nodes c m := by
  obtain ⟨m, hm, hrest⟩ := Option.bind_eq_some_iff.mp ht.walk
  exact ⟨m, hm, hrest, (ht.steady.linked.child_parent (Forest.childNamed_eq_some hm).1).2,
    ht.upward.of_walk ht.steady.linked hrest .refl⟩

theorem moved (ht : Tracked n (name :: rest) c a s) (hc : Carries s s')
    (hmoved : Moved (Forest.Above s.nodes c) n s s')
    (hnamed : Forest.childNamed Attr.name s'.nodes n name =
      Forest.childNamed Attr.name s.nodes n name) :
    Tracked n (name :: rest) c a s' ∧ SameData s s' a a := by
  obtain ⟨m, hm, hrest, hparent, habove⟩ := ht.child
  have hup := hmoved.upward hc ht.upward
  have hsub : ∀ x, Forest.Above s'.nodes c x → Forest.Above s.nodes c x := by
    intro x hx
    induction hx with
    | refl => exact .refl
    | tail _ hstep ih => exact hup.parent ih hstep
  refine ⟨⟨hc.steady, ?_, (hmoved.nodes.val .refl).trans ht.val, ht.file, fun x hx hne => ?_⟩,
    rfl, hmoved.nodeContent .refl ht.val⟩
  · rw [Forest.walk, hnamed, hm]
    exact hmoved.nodes.walk ht.upward ht.steady.linked hc.steady.linked hc.keys hrest .refl
      (ht.steady.linked.older hparent)
  · obtain ⟨b, hb, hdir⟩ := ht.directories x (hsub x hx) hne
    exact ⟨b, (hmoved.nodes.val (hsub x hx)).trans hb, hdir⟩

theorem entries (ht : Tracked n (name :: rest) c a s) {done : List Bytes} (hout : name ∉ done)
    (hdone : EntriesDone n done s s') :
    Tracked n (name :: rest) c a s' ∧ SameData s s' a a := by
  obtain ⟨m, hm, _, hparent, habove⟩ := ht.child
  refine ht.moved hdone.carries (hdone.moved _ ht.upward fun x hx hxn k hk hkey => hout ?_)
    (hdone.others name hout)
  obtain rfl := ht.steady.linked.above_unique hx habove hxn hparent
  obtain rfl := Option.some.inj (hkey.symm.trans (Forest.childNamed_eq_some hm).2)
  exact hk

theorem not_missing (ht : Tracked n names c a s) (hfound : isMissing a = false) {d : Nat}
    (hd : Forest.Above s.nodes c d) (hb : Forest.valAt s.nodes d = some b) :
    isMissing b = false := by
  by_cases hdc : d = c
  · subst hdc
    obtain rfl := Option.some.inj (ht.val.symm.trans hb)
    exact hfound
  · obtain ⟨b', hb', hdir⟩ := ht.directories d hd hdc
    obtain rfl := Option.some.inj (hb.symm.trans hb')
    rw [isMissing, hdir]
    rfl

theorem sweep (ht : Tracked n (name :: rest) c a s) (hfound : isMissing a = false)
    (hswept : Swept n (Forest.childrenOf s.nodes n) s s') :
    Tracked n (name :: rest) c a s' ∧ SameData s s' a a := by
  obtain ⟨m, hm, _, _, habove⟩ := ht.child
  refine ht.moved hswept.carries (hswept.moved _ fun d _ hd b hb => ht.not_missing hfound hd hb) ?_
  obtain ⟨b, hb⟩ := Forest.live_iff_valAt.mp
    (ht.steady.linked.child_parent (Forest.childNamed_eq_some hm).1).1
  rw [hm]
  exact hswept.named name m b hm hb (ht.not_missing hfound habove hb)

theorem sameParents (ht : Tracked n names c a s) (hsteady : Steady s'.nodes s'.blocks)
    (hwalk : Forest.walk Attr.name s'.nodes n names = some c)
    (hval : Forest.valAt s'.nodes c = some b) (hfile : b.isDirectory = false)
    (hparent : ∀ x, Forest.parentOf s'.nodes x = Forest.parentOf s.nodes x)
    (hkept : ∀ x, x ≠ c → IsDirectory s.nodes x → IsDirectory s'.nodes x) :
    Tracked n names c b s' := by
  have habove : Forest.Above s'.nodes = Forest.Above s.nodes := by
    unfold Forest.Above
    simp only [hparent]
  refine ⟨hsteady, hwalk, hval, hfile, fun x hx hne => ?_⟩
  rw [habove] at hx
  exact hkept x hne (ht.directories x hx hne)

theorem mark (ht : Tracked n (name :: rest) c a s) :
    ∃ a', Tracked n (name :: rest) c a' (markChildren s n) ∧ SameData s (markChildren s n) a a' ∧
      (rest = [] → a'.modifiedTime = 0) := by
  have hmark := markChildren_carries ht.steady n
  have hval := valAt_markAll s (Forest.childrenOf s.nodes n) c
  rw [ht.val, Option.map_some, ← markChildren_eq] at hval
  have hwalk : Forest.walk Attr.name (markChildren s n).nodes n (name :: rest) = some c := by
    rw [Forest.walk_congr fun _ _ _ _ x _ => Forest.childNamed_congr ht.steady.linked
      hmark.steady.linked hmark.keys (childrenOf_markAll s _ x) _]
    exact ht.walk
  have hblocks : (markChildren s n).blocks = s.blocks := blocks_markAll s _
  have hkept : ∀ x, x ≠ c → IsDirectory s.nodes x → IsDirectory (markChildren s n).nodes x := by
    rintro x _ ⟨b, hb, hdir⟩
    have hx := valAt_markAll s (Forest.childrenOf s.nodes n) x
    rw [hb, Option.map_some, ← markChildren_eq] at hx
    split at hx
    · exact ⟨_, hx, (markedMissing_fields b).2.2.2.trans hdir⟩
    · exact ⟨b, hx, hdir⟩
  obtain ⟨_, hdata, hsize, hdir⟩ := markedMissing_fields a
  by_cases hc : c ∈ Forest.childrenOf s.nodes n
  · rw [if_pos hc] at hval
    refine ⟨markedMissing a, ht.sameParents hmark.steady hwalk hval (hdir.trans ht.file)
      (parentOf_markAll s _) hkept, ⟨hsize, ?_⟩, fun _ => ?_⟩
    · unfold nodeContent
      rw [hdata, hsize, hblocks]
    · rw [markedMissing, ht.file, if_neg Bool.false_ne_true]
  · rw [if_neg hc] at hval
    refine ⟨a, ht.sameParents hmark.steady hwalk hval ht.file (parentOf_markAll s _) hkept,
      ⟨rfl, ?_⟩, fun hnil => absurd ?_ hc⟩
    · unfold nodeContent
      rw [hblocks]
    · subst hnil
      obtain ⟨m, hm, hrest, _, _⟩ := ht.child
      obtain rfl := Option.some.inj hrest
      exact (Forest.childNamed_eq_some hm).1

theorem reread (ht : Tracked n [name] c a s) (hstored : Rewrites c s s')
    (hval : Forest.valAt s'.nodes c = some b) (hkind : b.isDirectory = a.isDirectory) :
    Tracked n [name] c b s' := by
  refine ht.sameParents hstored.carries.steady ?_ hval (hkind.trans ht.file) hstored.parent
    fun x hne hx => ?_
  · rw [Forest.walk, hstored.childNamed ht.steady n name]
    exact ht.walk
  · obtain ⟨d, hd, hdir⟩ := hx
    exact ⟨d, (hstored.val hne).trans hd, hdir⟩

theorem inside (ht : Tracked n (name :: rest) c a s)
    (hm : Forest.childNamed Attr.name s.nodes n name = some m) : Tracked m rest c a s := by
  refine ⟨ht.steady, ?_, ht.val, ht.file, ht.directories⟩
  obtain ⟨m', hm', hrest, _, _⟩ := ht.child
  obtain rfl := Option.some.inj (hm'.symm.trans hm)
  exact hrest

theorem around (ht : Tracked m rest c a s)
    (hm : Forest.childNamed Attr.name s.nodes n name = some m) : Tracked n (name :: rest) c a s := by
  refine ⟨ht.steady, ?_, ht.val, ht.file, ht.directories⟩
  rw [Forest.walk, hm]
  exact ht.walk

end Tracked

end Tracks

section Directories

theorem foldlM_append_ok {σ ι : Type} {f : σ → ι → Outcome σ} {xs ys : List ι} {y : ι} {u v w z : σ}
    (hxs : xs.foldlM f u = .ok v) (hy : f v y = .ok w) (hys : ys.foldlM f w = .ok z) :
    (xs ++ y :: ys).foldlM f u = .ok z := by
  rw [List.foldlM_append, hxs]
  dsimp only [bind, Except.bind]
  rw [List.foldlM_cons, hy]
  exact hys

structure Arrives (h : Host) (writeTime : Location → BitVec 64) (l : Location) (fresh : Bytes) (n : Nat)
    (names : List Bytes) (c : Nat) (a b : Attr) (s s' : VfsState) : Prop where
  carries : Carries s s'
  tracked : Tracked n names c b s'
  found : isMissing b = false
  synced : FileSynced h writeTime l fresh s s' a b

def EntryArrives (h : Host) (writeTime : Location → BitVec 64) (hostPath : Bytes) (n : Nat)
    (name : Bytes) (rest : List Bytes) (c : Nat) (fresh : Bytes) (e : HostEntry) (fuel : Nat) :
    Prop :=
  ∀ s a, Tracked n (name :: rest) c a s → s.host = h → 0 < s.clock →
    (rest = [] → a.modifiedTime = 0) →
    ∃ s' b, syncEntry writeTime (vfsSyncDirectoryFromHost writeTime fuel) n hostPath s (name, e) =
        .ok s' ∧
      Arrives h writeTime (below (resolve hostPath) (name :: rest)) fresh n (name :: rest) c a b s s'

def DirectoryArrives (h : Host) (writeTime : Location → BitVec 64) (hostPath : Bytes) (n : Nat)
    (names : List Bytes) (c : Nat) (fresh : Bytes) (fuel : Nat) : Prop :=
  ∀ s a, Tracked n names c a s → s.host = h → 0 < s.clock →
    ∃ s' b, vfsSyncDirectoryFromHost writeTime fuel s n hostPath = .ok (1, s') ∧
      Arrives h writeTime (below (resolve hostPath) names) fresh n names c a b s s'

theorem Tracked.live_start (ht : Tracked n (name :: rest) c a s) : s.nodes.live n = true := by
  obtain ⟨m, hm, _, _, _⟩ := ht.child
  exact Forest.live_of_child (Forest.childNamed_eq_some hm).1

theorem directory_arrives (ht : NamedTree h hostPath) {fuel : Nat} {e : HostEntry}
    (he : h.entryBelow hostPath [name] = some e)
    (hentry : EntryArrives h writeTime hostPath n name rest c fresh e fuel)
    (hcalm : ∀ name, h.entryBelow hostPath [name] = some .directory →
      Calm h (entryPath hostPath name) (vfsSyncDirectoryFromHost writeTime fuel)) :
    DirectoryArrives h writeTime hostPath n (name :: rest) c fresh (fuel + 1) := by
  intro s a htrack hhost hclock
  obtain ⟨before, after, hsplit⟩ := List.append_of_mem (ht.mem_searchAll.mpr he)
  have hmem : ∀ x ∈ before ++ (name, e) :: after, h.entryBelow hostPath [x.1] = some x.2 := by
    rw [← hsplit]
    exact fun x hx => ht.mem_searchAll.mp hx
  have hnodup := ht.nodup_searchAll
  rw [hsplit, List.map_append, List.map_cons] at hnodup
  obtain ⟨_, hafter, hapart⟩ := List.nodup_append.mp hnodup
  have hnewBefore : name ∉ before.map Prod.fst := fun hin =>
    hapart name hin name List.mem_cons_self rfl
  -- the marks, the entries before this one, this one, those after it, and the sweep
  obtain ⟨a₁, h₁, hsame₁, hzero⟩ := htrack.mark
  have hmark := markChildren_carries htrack.steady n
  obtain ⟨s₂, hrun₂, hdone₂⟩ := syncEntries_done writeTime ht
    (fun x hx => hmem x (List.mem_append_left _ hx)) hcalm h₁.steady (hmark.host.trans hhost)
    h₁.live_start
  obtain ⟨h₂, hsame₂⟩ := h₁.entries hnewBefore hdone₂
  have hcarried₂ := hmark.trans hdone₂.carries
  obtain ⟨s₃, b, hrun₃, h₃⟩ := hentry s₂ a₁ h₂ (hcarried₂.host.trans hhost)
    (hcarried₂.clock ▸ hclock) hzero
  have hcarried₃ := hcarried₂.trans h₃.carries
  obtain ⟨s₄, hrun₄, hdone₄⟩ := syncEntries_done writeTime ht
    (fun x hx => hmem x (List.mem_append_right _ (List.mem_cons_of_mem _ hx))) hcalm
    h₃.tracked.steady (hcarried₃.host.trans hhost) h₃.tracked.live_start
  obtain ⟨h₄, hsame₄⟩ := h₃.tracked.entries (List.nodup_cons.mp hafter).1 hdone₄
  obtain ⟨s₅, hrun₅, hswept⟩ := sweepChildren_swept h₄.steady n
  obtain ⟨h₅, hsame₅⟩ := h₄.sweep h₃.found hswept
  refine ⟨s₅, b, ?_, (hcarried₃.trans hdone₄.carries).trans hswept.carries, h₅, h₃.found,
    .between (hsame₁.trans hsame₂) h₃.synced (hsame₄.trans hsame₅)⟩
  rw [vfsSyncDirectoryFromHost, hhost, if_pos ht.searchable, hsplit]
  exact Outcome.bind_eq_ok.mpr ⟨s₄, foldlM_append_ok hrun₂ hrun₃ hrun₄,
    Outcome.bind_eq_ok.mpr ⟨s₅, hrun₅, rfl⟩⟩

theorem openRead_entry (ht : NamedTree h hostPath)
    (he : h.entryBelow hostPath [name] = some (.file fresh)) :
    h.openRead (entryPath hostPath name) =
      if h.mayRead (below (resolve hostPath) [name]) = true then some fresh else none := by
  have hplace : resolve (entryPath hostPath name) = below (resolve hostPath) [name] :=
    ht.resolve_entryPath he
  have hfile : h.fileAt (below (resolve hostPath) [name]) = some fresh := by
    have hentry : h.entry (below (resolve hostPath) [name]) = some (.file fresh) := he
    rw [Host.fileAt, hentry]
  rw [Host.openRead, hplace, hfile]

theorem file_arrives (ht : NamedTree h hostPath) (fuel : Nat)
    (he : h.entryBelow hostPath [name] = some (.file fresh)) :
    EntryArrives h writeTime hostPath n name [] c fresh (.file fresh) fuel := by
  intro s a htrack hhost hclock hmarked
  obtain ⟨m, hm, hrest, _, _⟩ := htrack.child
  obtain rfl := Option.some.inj hrest
  obtain ⟨s', b, hrun, hstored, hval, hread⟩ := syncExistingFile_rewrites writeTime htrack.steady
    htrack.val (entryPath hostPath name)
  have hplace : resolve (entryPath hostPath name) = below (resolve hostPath) [name] :=
    ht.resolve_entryPath he
  have hopen := openRead_entry ht he
  rw [← hhost] at hopen
  refine ⟨s', b, ?_, hstored.carries, htrack.reread hstored hval hread.kind, ?_,
    fun hagain => ?_, fun hnot => ?_⟩
  · dsimp only [syncEntry]
    rw [hm]
    exact hrun
  · have htime : (b.modifiedTime == 0) = false :=
      beq_eq_false_iff_ne.mpr (Nat.ne_of_gt (hread.found hclock))
    rw [isMissing, htime, Bool.and_false]
  · obtain ⟨hmay, hlater⟩ := hagain
    rw [← hhost] at hmay
    rw [if_pos hmay] at hopen
    refine hread.loaded fresh hopen ?_
    rw [hmarked rfl, hplace]
    exact hlater
  · obtain ⟨hsize, hcontent⟩ := hread.kept (by
      by_cases hmay : h.mayRead (below (resolve hostPath) [name]) = true
      · refine .inr ?_
        rw [hmarked rfl, hplace]
        exact Nat.le_of_not_lt fun hlater => hnot ⟨hmay, hlater⟩
      · refine .inl ?_
        rw [← hhost] at hmay
        rw [hopen, if_neg hmay])
    exact ⟨hsize, hcontent⟩

theorem subdirectory_arrives (ht : NamedTree h hostPath) {fuel : Nat}
    (he : h.entryBelow hostPath [name] = some .directory)
    (hcalm : Calm h (entryPath hostPath name) (vfsSyncDirectoryFromHost writeTime fuel))
    (hsub : ∀ m, DirectoryArrives h writeTime (entryPath hostPath name) m (k :: rest) c fresh fuel) :
    EntryArrives h writeTime hostPath n name (k :: rest) c fresh .directory fuel := by
  intro s a htrack hhost hclock _
  obtain ⟨m, hm, _, hparent, _⟩ := htrack.child
  have hinside := htrack.inside hm
  obtain ⟨s', b, hrun, harrives⟩ := hsub m s a hinside hhost hclock
  obtain ⟨s'', hrun', hbelow⟩ := hcalm s m htrack.steady hhost hinside.live_start
  obtain ⟨_, rfl⟩ := Prod.mk.inj (Except.ok.inj (hrun.symm.trans hrun'))
  have hnamed := hbelow.childNamed htrack.steady htrack.live_start hparent name
  have hplace : below (resolve (entryPath hostPath name)) (k :: rest) =
      below (resolve hostPath) (name :: k :: rest) := by
    rw [ht.resolve_entryPath he, below_child]
  refine ⟨s', b, ?_, harrives.carries, harrives.tracked.around (hnamed.trans hm), harrives.found,
    hplace ▸ harrives.synced⟩
  dsimp only [syncEntry]
  rw [hm]
  dsimp only
  rw [hrun]
  rfl

variable (writeTime) in
theorem entry_calm (ht : NamedTree h hostPath) {fuel : Nat}
    (hfuel : maxPath ≤ hostPath.length + (fuel + 1))
    (he : h.entryBelow hostPath [name] = some .directory) :
    maxPath ≤ (entryPath hostPath name).length + fuel ∧
      Calm h (entryPath hostPath name) (vfsSyncDirectoryFromHost writeTime fuel) := by
  have hlength : maxPath ≤ (entryPath hostPath name).length + fuel := by
    rw [ht.entryPath_eq he, List.length_append, List.length_cons]
    omega
  exact ⟨hlength, vfsSyncDirectoryFromHost_calm writeTime fuel _ (ht.child he) hlength⟩

theorem sync_arrives (rest : List Bytes) :
    ∀ name hostPath fuel n, NamedTree h hostPath → maxPath ≤ hostPath.length + fuel →
      h.entryBelow hostPath (name :: rest) = some (.file fresh) →
      DirectoryArrives h writeTime hostPath n (name :: rest) c fresh fuel := by
  have hsome : ∀ {hostPath : Bytes} {fuel}, NamedTree h hostPath →
      maxPath ≤ hostPath.length + fuel → ∃ less, fuel = less + 1 := by
    intro hostPath fuel ht hfuel
    have hroom := ht.room
    exact Nat.exists_eq_succ_of_ne_zero (by omega)
  induction rest with
  | nil =>
    intro name hostPath fuel n ht hfuel he
    obtain ⟨fuel, rfl⟩ := hsome ht hfuel
    exact directory_arrives ht he (file_arrives ht fuel he) fun name he' =>
      (entry_calm writeTime ht hfuel he').2
  | cons k rest ih =>
    intro name hostPath fuel n ht hfuel he
    obtain ⟨fuel, rfl⟩ := hsome ht hfuel
    have hdir : h.entryBelow hostPath [name] = some .directory := by
      by_contra hnot
      cases (ht.nothing_below hnot (List.cons_ne_nil k rest)).symm.trans he
    obtain ⟨hlength, hcalm⟩ := entry_calm writeTime ht hfuel hdir
    refine directory_arrives ht hdir (subdirectory_arrives ht hdir hcalm fun m => ?_)
      fun name he' => (entry_calm writeTime ht hfuel he').2
    refine ih k _ fuel m (ht.child hdir) hlength ?_
    have hbelow := ht.entryBelow_child hdir (k :: rest)
    exact hbelow.trans he

end Directories

section Results

variable (writeTime) (s s')

def hostPlace (names : List Bytes) : Location := below (resolve s.hostRootDirectory) names

def NewerSurvives : Prop :=
  ∀ names n size content time fresh, seen s names = some (n, .file size content time) →
    s.host.entryBelow s.hostRootDirectory names = some (.file fresh) →
    timeOfFileTime (writeTime (hostPlace s names)) ≤ time →
    ∃ time', seen s' names = some (n, .file size content time')

def OlderCopiesSame : Prop :=
  ∀ names n size content time fresh, seen s names = some (n, .file size content time) →
    s.host.entryBelow s.hostRootDirectory names = some (.file fresh) →
    timeOfFileTime (writeTime (hostPlace s names)) ≤ time →
    Rereads s.host writeTime (hostPlace s names) →
    size = (loadedBytes fresh).length ∧ content = loadedBytes fresh

variable {writeTime s s'} {size time : Nat} {content : Bytes}

theorem Sound.tracked (hs : Sound s.nodes s.blocks s.root)
    (hseen : seen s (name :: rest) = some (c, .file size content time)) :
    ∃ a, Tracked s.root (name :: rest) c a s ∧ a.size = size ∧ nodeContent s a = content := by
  obtain ⟨hwalk, a, ha, hsight⟩ := seen_eq_some.mp hseen
  obtain ⟨hfile, hsize, hcontent, _⟩ := file_of_sight hsight
  refine ⟨a, ⟨hs.steady, hwalk, ha, hfile, fun x hx hne => ?_⟩, hsize, hcontent⟩
  rcases Relation.ReflTransGen.cases_tail hx with heq | ⟨y, _, hy⟩
  · exact absurd heq hne
  · have hchild := hs.tree.parent_child hy
    obtain ⟨b, hb⟩ := Forest.live_iff_valAt.mp (Forest.live_of_child hchild)
    refine ⟨b, hb, ?_⟩
    by_contra hnot
    rw [hs.leaves hb (Bool.eq_false_of_not_eq_true hnot)] at hchild
    exact absurd hchild List.not_mem_nil

theorem Sound.not_root (hs : Sound s.nodes s.blocks s.root)
    (hseen : seen s names = some (c, .file size content time)) :
    ∃ name rest, names = name :: rest := by
  cases names with
  | cons name rest => exact ⟨name, rest, rfl⟩
  | nil =>
    obtain ⟨hwalk, a, ha, hsight⟩ := seen_eq_some.mp hseen
    obtain rfl := Option.some.inj hwalk
    rw [sightOf, if_pos (hs.root_directory ha)] at hsight
    cases hsight

theorem sync_file (hs : Sound s.nodes s.blocks s.root)
    (ht : NamedTree s.host s.hostRootDirectory) (hclock : 0 < s.clock)
    (hrun : vfsSyncDirectoryFromHost writeTime maxPath s s.root s.hostRootDirectory = .ok (1, s'))
    (hroot : s'.root = s.root)
    (hseen : seen s names = some (c, .file size content time))
    (he : s.host.entryBelow s.hostRootDirectory names = some (.file fresh)) :
    ∃ b, seen s' names = some (c, .file b.size (nodeContent s' b) b.modifiedTime) ∧
      (Rereads s.host writeTime (hostPlace s names) →
        b.size = (loadedBytes fresh).length ∧ nodeContent s' b = loadedBytes fresh) ∧
      (¬ Rereads s.host writeTime (hostPlace s names) →
        b.size = size ∧ nodeContent s' b = content) := by
  obtain ⟨name, rest, rfl⟩ := hs.not_root hseen
  obtain ⟨a, htrack, rfl, rfl⟩ := hs.tracked hseen
  obtain ⟨t, b, hrun', harrives⟩ := sync_arrives rest name s.hostRootDirectory maxPath s.root ht
    (Nat.le_add_left _ _) he s a htrack rfl hclock
  obtain ⟨_, rfl⟩ := Prod.mk.inj (Except.ok.inj (hrun.symm.trans hrun'))
  refine ⟨b, seen_eq_some.mpr ⟨?_, b, harrives.tracked.val, sightOf_file harrives.tracked.file⟩,
    harrives.synced.loaded, fun hnot => ?_⟩
  · rw [hroot]
    exact harrives.tracked.walk
  · have hkept := harrives.synced.kept hnot
    exact ⟨hkept.size, hkept.content⟩

theorem newer_survives_iff (writeTime : Location → BitVec 64) (s : VfsState)
    (hs : Sound s.nodes s.blocks s.root) (ht : NamedTree s.host s.hostRootDirectory)
    (hclock : 0 < s.clock) :
    ∃ s', vfsSyncFromHost writeTime s = .ok (1, s') ∧
      (NewerSurvives writeTime s s' ↔ OlderCopiesSame writeTime s) := by
  obtain ⟨s', hrun, hbelow⟩ := vfsSyncDirectoryFromHost_calm writeTime maxPath
    s.hostRootDirectory ht (Nat.le_add_left _ _) s s.root hs.steady rfl hs.tree.root_live
  refine ⟨s', ?_, fun hall names n size content time fresh hseen he hold hread => ?_,
    fun hsame names n size content time fresh hseen he hold => ?_⟩
  · rw [vfsSyncFromHost, if_neg ht.named, if_pos hs.tree.root_live]
    exact hrun
  · obtain ⟨b, hafter, hloaded, _⟩ := sync_file hs ht hclock hrun hbelow.carries.root hseen he
    obtain ⟨time', hkept⟩ := hall names n size content time fresh hseen he hold
    obtain ⟨hsize, hcontent⟩ := hloaded hread
    have hsight := (Prod.mk.inj (Option.some.inj (hafter.symm.trans hkept))).2
    obtain ⟨rfl, rfl, _⟩ := Sight.file.inj hsight
    exact ⟨hsize, hcontent⟩
  · obtain ⟨b, hafter, hloaded, hkept⟩ := sync_file hs ht hclock hrun hbelow.carries.root hseen he
    refine ⟨b.modifiedTime, ?_⟩
    rw [hafter]
    by_cases hread : Rereads s.host writeTime (hostPlace s names)
    · obtain ⟨hsize, hcontent⟩ := hloaded hread
      obtain ⟨hsize', hcontent'⟩ := hsame names n size content time fresh hseen he hold hread
      rw [hsize, hcontent, hsize', hcontent']
    · obtain ⟨hsize, hcontent⟩ := hkept hread
      rw [hsize, hcontent]

theorem namedTree_hostWithFile : NamedTree hostWithFile (str "r") := hostTree_hostWithFile

def laterTree : VfsState := { emptyTree with clock := 2 }

def treeWithNewerFile : VfsState :=
  vfsAddChild laterTree 0 (vfsCreateFileNode laterTree (str "f"))

theorem sound_treeWithNewerFile :
    Sound treeWithNewerFile.nodes treeWithNewerFile.blocks treeWithNewerFile.root := by
  have hsound : Sound laterTree.nodes laterTree.blocks laterTree.root := orderly_emptyTree.sound
  have hroot : IsDirectory laterTree.nodes 0 := ⟨_, rfl, rfl⟩
  exact sound_addChild hsound hroot rfl

theorem seen_newerFile : seen treeWithNewerFile [str "f"] = some (1, .file 0 [] 2) := by decide +kernel

-- The first second of 1970, whose time is 0.
def epoch : Location → BitVec 64 := fun _ => 116444736000000000

theorem newer_survives_iff_unread :
    ∃ s' time', vfsSyncFromHost epoch treeWithNewerFile = .ok (1, s') ∧
      NewerSurvives epoch treeWithNewerFile s' ∧ seen s' [str "f"] = some (1, .file 0 [] time') := by
  obtain ⟨s', hrun, hiff⟩ := newer_survives_iff epoch treeWithNewerFile sound_treeWithNewerFile
    namedTree_hostWithFile (by decide)
  have hunread : ¬ 0 < timeOfFileTime 116444736000000000 := by decide
  have hsurvives : NewerSurvives epoch treeWithNewerFile s' :=
    hiff.mpr fun names n size content time fresh _ _ _ hread => absurd hread.2 hunread
  have hfile : hostWithFile.entryBelow (str "r") [str "f"] = some (.file (str "hi")) := by decide
  obtain ⟨time', hkept⟩ := hsurvives [str "f"] 1 0 [] 2 (str "hi") seen_newerFile hfile (by decide)
  exact ⟨s', time', hrun, hsurvives, hkept⟩

theorem newer_file_overwritten :
    ¬ ∀ (writeTime : Location → BitVec 64) (s s' : VfsState) (r : Int),
      Sound s.nodes s.blocks s.root → NamedTree s.host s.hostRootDirectory → 0 < s.clock →
      vfsSyncFromHost writeTime s = .ok (r, s') → NewerSurvives writeTime s s' := by
  intro hall
  have hsound := sound_treeWithNewerFile
  have hclock : 0 < treeWithNewerFile.clock := by decide
  have ht : NamedTree treeWithNewerFile.host treeWithNewerFile.hostRootDirectory :=
    namedTree_hostWithFile
  obtain ⟨s', hrun, hbelow⟩ := vfsSyncDirectoryFromHost_calm year1970 maxPath
    treeWithNewerFile.hostRootDirectory ht (Nat.le_add_left _ _) treeWithNewerFile 0 hsound.steady
    rfl hsound.tree.root_live
  have hsync : vfsSyncFromHost year1970 treeWithNewerFile = .ok (1, s') := by
    rw [vfsSyncFromHost, if_neg ht.named, if_pos hsound.tree.root_live]
    exact hrun
  have hseen := seen_newerFile
  have hfile : hostWithFile.entryBelow (str "r") [str "f"] = some (.file (str "hi")) := by decide
  obtain ⟨b, hafter, hloaded, _⟩ := sync_file hsound ht hclock hrun hbelow.carries.root hseen hfile
  obtain ⟨hsize, _⟩ := hloaded ⟨rfl, by decide⟩
  obtain ⟨time', hkept⟩ := hall year1970 treeWithNewerFile s' 1 hsound ht hclock hsync [str "f"] 1 0
    [] 2 (str "hi") hseen hfile (by decide)
  have hsight := (Prod.mk.inj (Option.some.inj (hafter.symm.trans hkept))).2
  have hzero := (Sight.file.inj hsight).1
  rw [hsize] at hzero
  exact absurd hzero (by decide)

end Results

end ZoraVM.Vfs

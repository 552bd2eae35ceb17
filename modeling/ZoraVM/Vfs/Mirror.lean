import ZoraVM.Vfs.HostTree
import ZoraVM.Vfs.Seen

namespace ZoraVM.Vfs

open Foundation

def Mirrored (x : Option (Nat × Sight)) : HostEntry → Prop
  | .directory => ∃ n, x = some (n, .directory)
  | .file content => ∃ n time, 0 < time ∧
      x = some (n, .file (loadedBytes content).length (loadedBytes content) time)

def directoryOnly : Option (Nat × Sight) → Option (Nat × Sight) :=
  Option.filter fun x => x.2 == .directory

section Specification

variable (h : Host) (hostPath : Bytes) (path : List Bytes) (s s' : VfsState)

def KindsAgree : Prop := ∀ rest e n x, rest ≠ [] → h.entryBelow hostPath rest = some e →
  seen s (path ++ rest) = some (n, x) → (e = .directory ↔ x = .directory)

structure Synced : Prop where
  settled : Settled s s'
  outside : ∀ names, (∀ name rest, names ≠ path ++ name :: rest) → seen s' names = seen s names
  present : ∀ name rest e, h.entryBelow hostPath (name :: rest) = some e →
    Mirrored (seen s' (path ++ name :: rest)) e
  absent : ∀ rest k, h.entryBelow hostPath (rest ++ [k]) = none →
    (rest = [] ∨ h.entryBelow hostPath rest = some .directory) →
    seen s' (path ++ (rest ++ [k])) = directoryOnly (seen s (path ++ (rest ++ [k])))
  beyond : ∀ rest k, rest ≠ [] → h.entryBelow hostPath rest ≠ some .directory →
    seen s' (path ++ (rest ++ [k])) = seen s (path ++ (rest ++ [k]))

structure EntrySynced (name : Bytes) : Prop where
  settled : Settled s s'
  others : ∀ names, (∀ rest, names ≠ path ++ name :: rest) → seen s' names = seen s names
  present : ∀ rest e, h.entryBelow hostPath (name :: rest) = some e →
    Mirrored (seen s' (path ++ name :: rest)) e
  absent : ∀ rest k, h.entryBelow hostPath (name :: (rest ++ [k])) = none →
    h.entryBelow hostPath (name :: rest) = some .directory →
    seen s' (path ++ name :: (rest ++ [k])) =
      directoryOnly (seen s (path ++ name :: (rest ++ [k])))
  beyond : ∀ rest k, h.entryBelow hostPath (name :: rest) ≠ some .directory →
    seen s' (path ++ name :: (rest ++ [k])) = seen s (path ++ name :: (rest ++ [k]))

-- The loop over the listing, when it has been through the names `done`.
structure Listed (done : List Bytes) : Prop where
  settled : Settled s s'
  outside : ∀ names, (∀ name rest, names ≠ path ++ name :: rest) → seen s' names = seen s names
  todo : ∀ name, name ∉ done → ∀ rest, seen s' (path ++ name :: rest) = seen s (path ++ name :: rest)
  present : ∀ name ∈ done, ∀ rest e, h.entryBelow hostPath (name :: rest) = some e →
    Mirrored (seen s' (path ++ name :: rest)) e
  absent : ∀ name ∈ done, ∀ rest k, h.entryBelow hostPath (name :: (rest ++ [k])) = none →
    h.entryBelow hostPath (name :: rest) = some .directory →
    seen s' (path ++ name :: (rest ++ [k])) =
      directoryOnly (seen s (path ++ name :: (rest ++ [k])))
  beyond : ∀ name ∈ done, ∀ rest k, h.entryBelow hostPath (name :: rest) ≠ some .directory →
    seen s' (path ++ name :: (rest ++ [k])) = seen s (path ++ name :: (rest ++ [k]))

end Specification

variable {h : Host} {writeTime : Location → BitVec 64} {hostPath name : Bytes}
  {path names : List Bytes} {s s' t t' : VfsState} {n c : Nat} {x : Sight} {e : HostEntry}
  {content : Bytes} {done : List Bytes}

theorem path_ne {rest rest' : List Bytes} {name' : Bytes} (hne : name ≠ name') :
    path ++ name :: rest ≠ path ++ name' :: rest' := by
  intro heq
  exact hne (List.cons.inj (List.append_cancel_left heq)).1

theorem Listed.start (ho : Orderly s) : Listed h hostPath path s s [] :=
  ⟨ho.settled, fun _ _ => rfl, fun _ _ _ => rfl, fun _ hin => absurd hin List.not_mem_nil,
    fun _ hin => absurd hin List.not_mem_nil, fun _ hin => absurd hin List.not_mem_nil⟩

theorem Listed.step (hdone : Listed h hostPath path s t done) (hnew : name ∉ done)
    (hone : EntrySynced h hostPath path t t' name) :
    Listed h hostPath path s t' (done ++ [name]) := by
  have hold : ∀ k ∈ done, ∀ rest, seen t' (path ++ k :: rest) = seen t (path ++ k :: rest) := by
    intro k hk rest
    refine hone.others _ fun rest' => path_ne ?_
    rintro rfl
    exact hnew hk
  refine ⟨hdone.settled.trans hone.settled, fun names hout => ?_, fun k hk rest => ?_,
    fun k hk rest e he => ?_, fun k hk rest last hnone hdir => ?_, fun k hk rest last hdir => ?_⟩
  · rw [hone.others names fun rest => hout name rest, hdone.outside names hout]
  · have hne : k ≠ name := by
      rintro rfl
      exact hk (List.mem_append_right _ List.mem_cons_self)
    rw [hone.others _ fun rest' => path_ne hne]
    exact hdone.todo k (fun hin => hk (List.mem_append_left _ hin)) rest
  · rcases List.mem_append.mp hk with hk | hk
    · rw [hold k hk]
      exact hdone.present k hk rest e he
    · obtain rfl := List.mem_singleton.mp hk
      exact hone.present rest e he
  · rcases List.mem_append.mp hk with hk | hk
    · rw [hold k hk]
      exact hdone.absent k hk rest last hnone hdir
    · obtain rfl := List.mem_singleton.mp hk
      rw [hone.absent rest last hnone hdir, hdone.todo k hnew]
  · rcases List.mem_append.mp hk with hk | hk
    · rw [hold k hk]
      exact hdone.beyond k hk rest last hdir
    · obtain rfl := List.mem_singleton.mp hk
      rw [hone.beyond rest last hdir, hdone.todo k hnew]

theorem deep_ne {rest : List Bytes} {k k' : Bytes} :
    path ++ name :: (rest ++ [k]) ≠ path ++ [k'] := by
  intro heq
  have hlen := congrArg List.length heq
  simp only [List.length_append, List.length_cons, List.length_nil] at hlen
  omega

section Entries

def FollowsHost (h : Host) (hostPath : Bytes)
    (syncDirectory : VfsState → Nat → Bytes → Outcome (Int × VfsState)) : Prop :=
  ∀ path s n, Orderly s → s.host = h → 0 < s.clock → seen s path = some (n, .directory) →
    KindsAgree h hostPath path s →
    ∃ s', syncDirectory s n hostPath = .ok (1, s') ∧ Synced h hostPath path s s'

theorem Overwrites.file_entry {time : Nat} (ht : HostTree h writeTime hostPath)
    (he : h.entryBelow hostPath [name] = some (.file content)) (htime : 0 < time)
    (hover : Overwrites s (path ++ [name])
      (some (c, .file (loadedBytes content).length (loadedBytes content) time)) s') :
    EntrySynced h hostPath path s s' name := by
  have hnot : h.entryBelow hostPath [name] ≠ some .directory := by
    rw [he]
    exact fun heq => by cases heq
  refine ⟨hover.settled, fun names hout => hover.elsewhere names (hout []), fun rest e hrest => ?_,
    fun rest k _ hdir => ?_, fun rest k _ => hover.elsewhere _ deep_ne⟩
  · cases rest with
    | nil =>
      obtain rfl := Option.some.inj (he.symm.trans hrest)
      exact ⟨c, time, htime, hover.here⟩
    | cons k rest =>
      rw [ht.nothing_below hnot (List.cons_ne_nil k rest)] at hrest
      cases hrest
  · cases rest with
    | nil => exact absurd hdir hnot
    | cons k' rest =>
      rw [ht.nothing_below hnot (List.cons_ne_nil k' rest)] at hdir
      cases hdir

theorem Synced.entry (ht : HostTree h writeTime hostPath)
    (he : h.entryBelow hostPath [name] = some .directory)
    (hhere : seen t (path ++ [name]) = some (c, .directory)) (hset : Settled s t)
    (hsame : ∀ names, names ≠ path ++ [name] → seen t names = seen s names)
    (hsub : Synced h (entryPath hostPath name) (path ++ [name]) t s') :
    EntrySynced h hostPath path s s' name := by
  have hbelow := ht.entryBelow_child he
  have hjoin : ∀ rest, (path ++ [name]) ++ rest = path ++ name :: rest :=
    fun rest => List.append_assoc path [name] rest
  refine ⟨hset.trans hsub.settled, fun names hout => ?_, fun rest e hrest => ?_,
    fun rest k hnone hdir => ?_, fun rest k hnot => ?_⟩
  · have hdeep : ∀ name' rest, names ≠ (path ++ [name]) ++ name' :: rest :=
      fun name' rest heq => hout (name' :: rest) (heq.trans (hjoin _))
    rw [hsub.outside names hdeep, hsame names (hout [])]
  · cases rest with
    | nil =>
      obtain rfl := Option.some.inj (he.symm.trans hrest)
      refine ⟨c, (hsub.outside (path ++ [name]) fun name' rest heq => ?_).trans hhere⟩
      exact List.cons_ne_nil name' rest (List.append_right_eq_self.mp heq.symm)
    | cons k rest =>
      rw [← hjoin]
      exact hsub.present k rest e (hbelow _ ▸ hrest)
  · have hchild : rest = [] ∨ h.entryBelow (entryPath hostPath name) rest = some .directory :=
      .inr (hbelow rest ▸ hdir)
    have habsent := hsub.absent rest k (hbelow _ ▸ hnone) hchild
    rw [hjoin, hsame _ deep_ne] at habsent
    exact habsent
  · have hne : rest ≠ [] := by
      rintro rfl
      exact hnot he
    have hbeyond := hsub.beyond rest k hne (hbelow rest ▸ hnot)
    rw [hjoin, hsame _ deep_ne] at hbeyond
    exact hbeyond

theorem childNamed_of_seen (hn : seen s path = some (n, .directory))
    (hc : seen s (path ++ [name]) = some (c, x)) :
    Forest.childNamed Attr.name s.nodes n name = some c := by
  rw [← seen_child (seen_eq_some.mp hn).1]
  exact (seen_eq_some.mp hc).1

theorem Orderly.childNamed_eq_none (ho : Orderly s) (hn : seen s path = some (n, .directory))
    (hc : seen s (path ++ [name]) = none) : Forest.childNamed Attr.name s.nodes n name = none := by
  rw [← seen_child (seen_eq_some.mp hn).1]
  exact ho.seen_eq_none.mp hc

variable {syncDirectory : VfsState → Nat → Bytes → Outcome (Int × VfsState)}

theorem syncEntry_directory (ht : HostTree h writeTime hostPath)
    (he : h.entryBelow hostPath [name] = some .directory)
    (hsub : FollowsHost h (entryPath hostPath name) syncDirectory) (ho : Orderly s)
    (hhost : s.host = h) (hclock : 0 < s.clock) (hn : seen s path = some (n, .directory))
    (hkinds : ∀ rest e c x, h.entryBelow hostPath (name :: rest) = some e →
      seen s (path ++ name :: rest) = some (c, x) → (e = .directory ↔ x = .directory)) :
    ∃ s', syncEntry writeTime syncDirectory n hostPath s (name, .directory) = .ok s' ∧
      EntrySynced h hostPath path s s' name := by
  have hkindsBelow : ∀ t, (∀ names, names ≠ path ++ [name] → seen t names = seen s names) →
      KindsAgree h (entryPath hostPath name) (path ++ [name]) t := by
    intro t hsame rest e c x hne hrest hseen
    have hother : path ++ [name] ++ rest ≠ path ++ [name] := by
      intro heq
      exact hne (List.append_right_eq_self.mp heq)
    rw [hsame _ hother, List.append_assoc] at hseen
    exact hkinds rest e c x (ht.entryBelow_child he rest ▸ hrest) hseen
  cases hc : seen s (path ++ [name]) with
  | none =>
    have hnode : (vfsCreateDirectoryNode s name).name = name := clip_name (ht.plain_single he)
    have hadd : Overwrites s (path ++ [name]) (some (s.nodes.size, .directory))
        (vfsAddChild s n (vfsCreateDirectoryNode s name)) := by
      have hadded := overwrites_addChild (v := vfsCreateDirectoryNode s name) ho hn
        (hnode.symm ▸ hc) rfl
      rwa [hnode] at hadded
    obtain ⟨s', hrun, hsynced⟩ := hsub (path ++ [name]) _ s.nodes.size hadd.settled.orderly
      (hadd.settled.host.trans hhost) (hadd.settled.clock ▸ hclock) hadd.here
      (hkindsBelow _ hadd.elsewhere)
    refine ⟨s', ?_, hsynced.entry ht he hadd.here hadd.settled hadd.elsewhere⟩
    dsimp only [syncEntry]
    rw [ho.childNamed_eq_none hn hc, hrun]
    rfl
  | some y =>
    obtain ⟨c, x⟩ := y
    obtain rfl : x = .directory := (hkinds [] _ c x he hc).mp rfl
    obtain ⟨s', hrun, hsynced⟩ := hsub (path ++ [name]) s c ho hhost hclock hc
      (hkindsBelow s fun _ _ => rfl)
    refine ⟨s', ?_, hsynced.entry ht he hc ho.settled fun _ _ => rfl⟩
    dsimp only [syncEntry]
    rw [childNamed_of_seen hn hc]
    dsimp only
    rw [hrun]
    rfl

theorem syncEntry_file (ht : HostTree h writeTime hostPath)
    (he : h.entryBelow hostPath [name] = some (.file content)) (ho : Orderly s)
    (hhost : s.host = h) (hclock : 0 < s.clock) (hn : seen s path = some (n, .directory))
    (hkinds : ∀ c x, seen s (path ++ [name]) = some (c, x) → x ≠ .directory)
    (hmarked : ∀ c size old time, seen s (path ++ [name]) = some (c, .file size old time) →
      time = 0) :
    ∃ s', syncEntry writeTime syncDirectory n hostPath s (name, .file content) = .ok s' ∧
      EntrySynced h hostPath path s s' name := by
  have hopen : s.host.openRead (entryPath hostPath name) = some content := hhost ▸ ht.openRead he
  cases hc : seen s (path ++ [name]) with
  | none =>
    have hnew := overwrites_newFile ho hn (clip_name (ht.plain_single he)) hc hopen
    refine ⟨_, ?_, hnew.file_entry ht he hclock⟩
    dsimp only [syncEntry]
    rw [ho.childNamed_eq_none hn hc]
  | some y =>
    obtain ⟨c, x⟩ := y
    cases x with
    | directory => exact absurd rfl (hkinds c _ hc)
    | file size old time =>
      obtain rfl := hmarked c size old time hc
      obtain ⟨s', hrun, hover⟩ := overwrites_existingFile ho hc hopen (ht.newer he)
      refine ⟨s', ?_, hover.file_entry ht he (ht.newer he)⟩
      dsimp only [syncEntry]
      rw [childNamed_of_seen hn hc]
      exact hrun

end Entries

section Directories

theorem filter_marked (x : Option (Nat × Sight)) :
    (x.map (Prod.map id Sight.marked)).filter (fun y => !y.2.isMissing) = directoryOnly x := by
  cases x with
  | none => rfl
  | some y =>
    obtain ⟨c, _ | ⟨size, old, time⟩⟩ := y
    · rfl
    · rfl

theorem Mirrored.not_missing {y : Option (Nat × Sight)} (hy : Mirrored y e) :
    y.filter (fun z => !z.2.isMissing) = y := by
  cases e with
  | directory =>
    obtain ⟨c, rfl⟩ := hy
    rfl
  | file content =>
    obtain ⟨c, time, htime, rfl⟩ := hy
    have hfound : (Sight.file (loadedBytes content).length (loadedBytes content) time).isMissing =
        false := beq_eq_false_iff_ne.mpr (Nat.ne_of_gt htime)
    rw [Option.filter_some, hfound]
    rfl

theorem Listed.synced (ht : HostTree h writeTime hostPath)
    (hmark : ChildrenRewritten s path (Option.map (Prod.map id Sight.marked)) t)
    (hlisted : Listed h hostPath path t t' done)
    (hdone : ∀ name, name ∈ done ↔ h.entryBelow hostPath [name] ≠ none)
    (hsweep : ChildrenRewritten t' path (Option.filter fun y => !y.2.isMissing) s') :
    Synced h hostPath path s s' := by
  have hmem : ∀ {name rest e}, h.entryBelow hostPath (name :: rest) = some e → name ∈ done := by
    intro name rest e he
    refine (hdone name).mpr fun hnone => ?_
    cases rest with
    | nil => exact Option.some_ne_none e (he.symm.trans hnone)
    | cons k rest =>
      rw [ht.nothing_below (by rw [hnone]; exact fun heq => by cases heq)
        (List.cons_ne_nil k rest)] at he
      cases he
  have hdeep : ∀ name rest k, seen s' (path ++ name :: (rest ++ [k])) =
      seen t' (path ++ name :: (rest ++ [k])) := fun _ _ _ => hsweep.other _ fun _ => deep_ne
  have hdeep' : ∀ name rest k, seen t (path ++ name :: (rest ++ [k])) =
      seen s (path ++ name :: (rest ++ [k])) := fun _ _ _ => hmark.other _ fun _ => deep_ne
  refine ⟨(hmark.settled.trans hlisted.settled).trans hsweep.settled, fun names hout => ?_,
    fun name rest e he => ?_, fun rest k hnone hdir => ?_, fun rest k hne hnot => ?_⟩
  · have hplain : ∀ name, names ≠ path ++ [name] := fun name => hout name []
    rw [hsweep.other names hplain, hlisted.outside names hout, hmark.other names hplain]
  · have hpresent := hlisted.present name (hmem he) rest e he
    cases rest using List.reverseRecOn with
    | nil =>
      rw [hsweep.child, hpresent.not_missing]
      exact hpresent
    | append_singleton rest k _ =>
      rw [hdeep]
      exact hpresent
  · cases rest with
    | nil =>
      have hnew : k ∉ done := fun hin => (hdone k).mp hin hnone
      rw [List.nil_append, hsweep.child, hlisted.todo k hnew, hmark.child, filter_marked]
    | cons name rest =>
      have hdir' := hdir.resolve_left (List.cons_ne_nil name rest)
      rw [List.cons_append, hdeep, hlisted.absent name (hmem hdir') rest k hnone hdir', hdeep']
  · cases rest with
    | nil => exact absurd rfl hne
    | cons name rest =>
      rw [List.cons_append, hdeep]
      rcases Classical.em (name ∈ done) with hin | hnew
      · rw [hlisted.beyond name hin rest k hnot, hdeep']
      · rw [hlisted.todo name hnew, hdeep']

theorem marked_eq_some {y : Option (Nat × Sight)}
    (hy : y.map (Prod.map id Sight.marked) = some (c, x)) :
    (∃ x', y = some (c, x') ∧ (x = .directory ↔ x' = .directory)) ∧
      ∀ size old time, x = .file size old time → time = 0 := by
  obtain ⟨⟨c', x'⟩, rfl, heq⟩ := Option.map_eq_some_iff.mp hy
  obtain ⟨rfl, rfl⟩ := Prod.mk.inj heq
  cases x' with
  | directory => exact ⟨⟨_, rfl, Iff.rfl⟩, fun _ _ _ hfile => by cases hfile⟩
  | file size old time =>
    refine ⟨⟨_, rfl, ⟨fun hdir => ?_, fun hdir => ?_⟩⟩, fun _ _ _ hfile => ?_⟩
    · cases hdir
    · cases hdir
    · cases hfile
      rfl

theorem KindsAgree.marked (hkinds : KindsAgree h hostPath path s)
    (hmark : ChildrenRewritten s path (Option.map (Prod.map id Sight.marked)) t) :
    KindsAgree h hostPath path t := by
  intro rest e c x hne he hseen
  cases rest using List.reverseRecOn with
  | nil => exact absurd rfl hne
  | append_singleton rest k _ =>
    cases rest with
    | nil =>
      rw [List.nil_append, hmark.child] at hseen
      obtain ⟨⟨x', hx', hiff⟩, _⟩ := marked_eq_some hseen
      exact (hkinds [k] e c x' hne he hx').trans hiff.symm
    | cons name rest =>
      rw [List.cons_append, hmark.other _ fun _ => deep_ne] at hseen
      exact hkinds _ e c x hne he hseen

structure MarkedDirectory (h : Host) (hostPath : Bytes) (path : List Bytes) (n : Nat)
    (s : VfsState) : Prop where
  orderly : Orderly s
  host : s.host = h
  clock : 0 < s.clock
  here : seen s path = some (n, .directory)
  kinds : KindsAgree h hostPath path s
  unfound : ∀ name c size old time, seen s (path ++ [name]) = some (c, .file size old time) →
    time = 0

theorem path_ne_below (name : Bytes) (rest : List Bytes) : path ≠ path ++ name :: rest :=
  fun heq => List.cons_ne_nil name rest (List.append_right_eq_self.mp heq.symm)

theorem markedDirectory (hhost : s.host = h) (hclock : 0 < s.clock)
    (hn : seen s path = some (n, .directory)) (hkinds : KindsAgree h hostPath path s)
    (hmark : ChildrenRewritten s path (Option.map (Prod.map id Sight.marked)) t) :
    MarkedDirectory h hostPath path n t := by
  refine ⟨hmark.settled.orderly, hmark.settled.host.trans hhost, ?_, ?_, hkinds.marked hmark,
    fun name c size old time hc => ?_⟩
  · rw [hmark.settled.clock]
    exact hclock
  · rw [hmark.other path fun name => path_ne_below name []]
    exact hn
  · rw [hmark.child] at hc
    exact (marked_eq_some hc).2 size old time rfl

variable {syncDirectory : VfsState → Nat → Bytes → Outcome (Int × VfsState)}

theorem MarkedDirectory.next (hm : MarkedDirectory h hostPath path n s)
    (ht : HostTree h writeTime hostPath) (he : h.entryBelow hostPath [name] = some e)
    (hsub : e = .directory → FollowsHost h (entryPath hostPath name) syncDirectory)
    (hdone : Listed h hostPath path s t done) (hnew : name ∉ done) :
    ∃ t', syncEntry writeTime syncDirectory n hostPath t (name, e) = .ok t' ∧
      Listed h hostPath path s t' (done ++ [name]) := by
  have horderly := hdone.settled.orderly
  have hhost : t.host = h := hdone.settled.host.trans hm.host
  have hclock : 0 < t.clock := hdone.settled.clock ▸ hm.clock
  have hn : seen t path = some (n, .directory) := (hdone.outside path path_ne_below).trans hm.here
  have htodo := hdone.todo name hnew
  have hkinds : ∀ rest e c x, h.entryBelow hostPath (name :: rest) = some e →
      seen t (path ++ name :: rest) = some (c, x) → (e = .directory ↔ x = .directory) := by
    intro rest e c x hrest hseen
    exact hm.kinds _ e c x (List.cons_ne_nil name rest) hrest (htodo rest ▸ hseen)
  cases e with
  | directory =>
    obtain ⟨t', hrun, hone⟩ := syncEntry_directory ht he (hsub rfl) horderly hhost hclock hn hkinds
    exact ⟨t', hrun, hdone.step hnew hone⟩
  | file content =>
    have hfile : ∀ c x, seen t (path ++ [name]) = some (c, x) → x ≠ .directory := by
      intro c x hc hx
      cases (hkinds [] _ c x he hc).mpr hx
    obtain ⟨t', hrun, hone⟩ := syncEntry_file ht he horderly hhost hclock hn hfile
      fun c size old time hc => hm.unfound name c size old time (htodo [] ▸ hc)
    exact ⟨t', hrun, hdone.step hnew hone⟩

theorem MarkedDirectory.loop (hm : MarkedDirectory h hostPath path n s)
    (ht : HostTree h writeTime hostPath)
    (hsub : ∀ name, h.entryBelow hostPath [name] = some .directory →
      FollowsHost h (entryPath hostPath name) syncDirectory) :
    ∃ t, (searchAll h hostPath).foldlM (syncEntry writeTime syncDirectory n hostPath) s = .ok t ∧
      Listed h hostPath path s t ((searchAll h hostPath).map Prod.fst) := by
  refine Outcome.foldlM_total (P := fun done t => Listed h hostPath path s t (done.map Prod.fst))
    (Listed.start hm.orderly) ?_
  rintro done ⟨name, e⟩ rest t hes hdone
  have he : h.entryBelow hostPath [name] = some e := by
    refine ht.mem_searchAll.mp ?_
    rw [hes]
    exact List.mem_append_right _ List.mem_cons_self
  have hnew : name ∉ done.map Prod.fst := by
    intro hin
    have hnodup := ht.nodup_searchAll
    rw [hes, List.map_append, List.map_cons] at hnodup
    exact (List.nodup_append.mp hnodup).2.2 name hin name List.mem_cons_self rfl
  rw [List.map_append]
  exact hm.next ht he (fun hdir => hsub name (hdir ▸ he)) hdone hnew

theorem vfsSyncDirectoryFromHost_follows (fuel : Nat) :
    ∀ hostPath, HostTree h writeTime hostPath → maxPath ≤ hostPath.length + fuel →
      FollowsHost h hostPath (vfsSyncDirectoryFromHost writeTime fuel) := by
  induction fuel with
  | zero =>
    intro hostPath ht hfuel
    have hroom := ht.room
    omega
  | succ fuel ih =>
    intro hostPath ht hfuel path s n ho hhost hclock hn hkinds
    have hsub : ∀ name, h.entryBelow hostPath [name] = some .directory →
        FollowsHost h (entryPath hostPath name) (vfsSyncDirectoryFromHost writeTime fuel) := by
      intro name he
      refine ih _ (ht.child he) ?_
      rw [ht.entryPath_eq he, List.length_append, List.length_cons]
      omega
    have hmark := rewritten_markChildren ho (seen_eq_some.mp hn).1
    have hm := markedDirectory hhost hclock hn hkinds hmark
    obtain ⟨t, hloop, hlisted⟩ := hm.loop ht hsub
    have hn' : seen t path = some (n, .directory) :=
      (hlisted.outside path path_ne_below).trans hm.here
    obtain ⟨s', hsweep, hswept⟩ := rewritten_sweepChildren hlisted.settled.orderly
      (seen_eq_some.mp hn').1
    refine ⟨s', ?_, hlisted.synced ht hmark (fun name => ?_) hswept⟩
    · rw [vfsSyncDirectoryFromHost, hhost, if_pos ht.searchable]
      exact Outcome.bind_eq_ok.mpr ⟨t, hloop, Outcome.bind_eq_ok.mpr ⟨s', hsweep, rfl⟩⟩
    · rw [Option.ne_none_iff_exists', List.mem_map]
      constructor
      · rintro ⟨⟨name', e⟩, hmem, rfl⟩
        exact ⟨e, ht.mem_searchAll.mp hmem⟩
      · rintro ⟨e, he⟩
        exact ⟨(name, e), ht.mem_searchAll.mpr he, rfl⟩

end Directories

section Results

-- The files below the root are those of the host, each with its size and its content.
structure Mirrors (h : Host) (hostPath : Bytes) (s : VfsState) : Prop where
  samePaths : ∀ names, names ≠ [] →
    ((∃ n size content time, seen s names = some (n, .file size content time)) ↔
      ∃ content, h.entryBelow hostPath names = some (.file content))
  sameContent : ∀ names n size loaded time content, names ≠ [] →
    seen s names = some (n, .file size loaded time) →
    h.entryBelow hostPath names = some (.file content) → size = content.length ∧ loaded = content

def Measurable (h : Host) (hostPath : Bytes) : Prop :=
  ∀ names content, names ≠ [] → h.entryBelow hostPath names = some (.file content) →
    content.length < 2 ^ 31

def InHostDirectories (h : Host) (hostPath : Bytes) (s : VfsState) : Prop :=
  ∀ dir name n size content time, seen s (dir ++ [name]) = some (n, .file size content time) →
    dir = [] ∨ h.entryBelow hostPath dir = some .directory

theorem loadedBytes_eq_iff : loadedBytes content = content ↔ content.length < 2 ^ 31 := by
  unfold loadedBytes ftellSize
  constructor
  · intro heq
    by_contra hlong
    rw [if_neg hlong, if_neg (by omega)] at heq
    rw [← heq] at hlong
    exact hlong (by decide)
  · intro hshort
    rw [if_pos hshort]
    split
    · rfl
    · next hempty =>
      cases content with
      | nil => rfl
      | cons c content => exact absurd (by rw [List.length_cons]; omega) hempty

theorem Mirrored.of_file {y : Option (Nat × Sight)} {size time : Nat} (hy : Mirrored y e)
    (hfile : y = some (n, .file size content time)) :
    ∃ fresh, e = .file fresh ∧ size = (loadedBytes fresh).length ∧ content = loadedBytes fresh := by
  cases e with
  | directory =>
    obtain ⟨c, hdir⟩ := hy
    cases hfile.symm.trans hdir
  | file fresh =>
    obtain ⟨c, stamp, _, hloaded⟩ := hy
    cases hfile.symm.trans hloaded
    exact ⟨fresh, rfl, rfl, rfl⟩

theorem Synced.file_on_host (hsync : Synced h hostPath [] s s')
    (hin : InHostDirectories h hostPath s) {dir : List Bytes} {size time : Nat}
    (hfile : seen s' (dir ++ [name]) = some (n, .file size content time)) :
    ∃ fresh, h.entryBelow hostPath (dir ++ [name]) = some (.file fresh) := by
  cases hentry : h.entryBelow hostPath (dir ++ [name]) with
  | some e =>
    obtain ⟨k, rest, heq⟩ := List.exists_cons_of_ne_nil (List.append_ne_nil_of_right_ne_nil dir
      (List.cons_ne_nil name []))
    have hmirrored : Mirrored (seen s' (dir ++ [name])) e := by
      rw [heq] at hentry ⊢
      exact hsync.present k rest e hentry
    obtain ⟨fresh, rfl, _, _⟩ := hmirrored.of_file hfile
    exact ⟨fresh, rfl⟩
  | none =>
    rcases Classical.em (dir = [] ∨ h.entryBelow hostPath dir = some .directory) with hdir | hdir
    · have habsent := hsync.absent dir name hentry hdir
      rw [List.nil_append, hfile, directoryOnly, Eq.comm, Option.filter_eq_some_iff] at habsent
      cases habsent.2
    · obtain ⟨hne, hnot⟩ := not_or.mp hdir
      have hkept := hsync.beyond dir name hne hnot
      rw [List.nil_append, hfile] at hkept
      exact absurd (hin dir name n size content time hkept.symm) hdir

theorem Synced.mirrors_iff (ht : HostTree h writeTime hostPath)
    (hsync : Synced h hostPath [] s s') :
    Mirrors h hostPath s' ↔ Measurable h hostPath ∧ InHostDirectories h hostPath s := by
  have hpresent : ∀ names, names ≠ [] → ∀ e, h.entryBelow hostPath names = some e →
      Mirrored (seen s' names) e := by
    intro names hne e he
    obtain ⟨k, rest, rfl⟩ := List.exists_cons_of_ne_nil hne
    exact hsync.present k rest e he
  constructor
  · refine fun hmirrors => ⟨fun names content hne hfile => ?_,
      fun dir name n size content time hfile => ?_⟩
    · obtain ⟨c, time, _, hloaded⟩ := hpresent names hne _ hfile
      have hsame := hmirrors.sameContent names c _ _ time content hne hloaded hfile
      exact loadedBytes_eq_iff.mp hsame.2
    · by_contra hdir
      obtain ⟨hne, hnot⟩ := not_or.mp hdir
      have hkept := (hsync.beyond dir name hne hnot).trans hfile
      have hne' : dir ++ [name] ≠ [] := List.append_ne_nil_of_left_ne_nil hne _
      obtain ⟨fresh, hentry⟩ := (hmirrors.samePaths _ hne').mp ⟨n, size, content, time, hkept⟩
      exact hdir (ht.parents dir name _ hentry)
  · rintro ⟨hmeasurable, hin⟩
    refine ⟨fun names hne => ⟨?_, ?_⟩, fun names n size loaded time content hne hseen hfile => ?_⟩
    · rintro ⟨n, size, content, time, hfile⟩
      cases names using List.reverseRecOn with
      | nil => exact absurd rfl hne
      | append_singleton dir name _ => exact hsync.file_on_host hin hfile
    · rintro ⟨content, hfile⟩
      obtain ⟨c, time, _, hloaded⟩ := hpresent names hne _ hfile
      exact ⟨c, _, _, time, hloaded⟩
    · obtain ⟨fresh, hsame, hsize, hcontent⟩ := (hpresent names hne _ hfile).of_file hseen
      cases hsame
      have hloaded := loadedBytes_eq_iff.mpr (hmeasurable names content hne hfile)
      rw [hloaded] at hsize hcontent
      exact ⟨hsize, hcontent⟩

theorem vfsSyncFromHost_synced (ho : Orderly s)
    (ht : HostTree s.host writeTime s.hostRootDirectory)
    (hkinds : KindsAgree s.host s.hostRootDirectory [] s) (hclock : 0 < s.clock) :
    ∃ s', vfsSyncFromHost writeTime s = .ok (1, s') ∧
      Synced s.host s.hostRootDirectory [] s s' := by
  obtain ⟨a, ha⟩ := Forest.live_iff_valAt.mp ho.sound.tree.root_live
  have hroot : seen s [] = some (s.root, .directory) := by
    refine seen_eq_some.mpr ⟨rfl, a, ha, ?_⟩
    rw [sightOf, if_pos (ho.sound.root_directory ha)]
  have hfollows := vfsSyncDirectoryFromHost_follows maxPath s.hostRootDirectory ht
    (Nat.le_add_left _ _)
  obtain ⟨s', hrun, hsynced⟩ := hfollows [] s s.root ho rfl hclock hroot hkinds
  refine ⟨s', ?_, hsynced⟩
  rw [vfsSyncFromHost, if_neg ht.named, if_pos ho.sound.tree.root_live]
  exact hrun

theorem sync_mirrors_iff (writeTime : Location → BitVec 64) (s : VfsState) (ho : Orderly s)
    (ht : HostTree s.host writeTime s.hostRootDirectory)
    (hkinds : KindsAgree s.host s.hostRootDirectory [] s) (hclock : 0 < s.clock) :
    ∃ s', vfsSyncFromHost writeTime s = .ok (1, s') ∧
      (Mirrors s.host s.hostRootDirectory s' ↔
        Measurable s.host s.hostRootDirectory ∧
          InHostDirectories s.host s.hostRootDirectory s) := by
  obtain ⟨s', hrun, hsynced⟩ := vfsSyncFromHost_synced ho ht hkinds hclock
  exact ⟨s', hrun, hsynced.mirrors_iff ht⟩

def hostWithFile : Host :=
  openHost [(⟨false, [str "r"]⟩, .directory), (⟨false, [str "f", str "r"]⟩, .file (str "hi"))]

def year1970 : Location → BitVec 64 := fun _ => 116444736010000000

theorem hostWithFile_below {rest : List Bytes}
    (he : hostWithFile.entryBelow (str "r") rest = some e) :
    (rest = [] ∧ e = .directory) ∨ (rest = [str "f"] ∧ e = .file (str "hi")) := by
  have hroot : Location.resolve (str "r") = ⟨false, [str "r"]⟩ := by decide
  have hmem := (entry_iff_mem (h := hostWithFile) (by decide)).mp he
  rw [below, hroot] at hmem
  rcases List.mem_cons.mp hmem with heq | hmem
  · obtain ⟨hl, rfl⟩ := Prod.mk.inj heq
    have hparts : rest.reverse ++ [str "r"] = [] ++ [str "r"] := (Location.mk.inj hl).2
    have hnil := List.append_cancel_right hparts
    exact .inl ⟨List.reverse_eq_nil_iff.mp hnil, rfl⟩
  · obtain ⟨hl, rfl⟩ := Prod.mk.inj (List.mem_singleton.mp hmem)
    have hparts : rest.reverse ++ [str "r"] = [str "f"] ++ [str "r"] := (Location.mk.inj hl).2
    have hone := List.append_cancel_right hparts
    exact .inr ⟨List.reverse_injective hone, rfl⟩

theorem hostTree_hostWithFile : HostTree hostWithFile year1970 (str "r") := by
  refine ⟨by decide, by decide, .inr (by decide), by decide, fun rest e he => ?_,
    fun rest name e he => ?_, fun rest he => ?_, fun rest content he => ?_⟩
  · rcases hostWithFile_below he with ⟨rfl, rfl⟩ | ⟨rfl, rfl⟩
    · exact fun name hin => absurd hin List.not_mem_nil
    · intro name hin
      obtain rfl := List.mem_singleton.mp hin
      exact ⟨by decide, by decide, by decide, by decide +kernel⟩
  · rcases hostWithFile_below he with ⟨heq, _⟩ | ⟨heq, _⟩
    · exact absurd heq (List.append_ne_nil_of_right_ne_nil _ (List.cons_ne_nil _ _))
    · have hlen := congrArg List.length heq
      simp only [List.length_append, List.length_cons, List.length_nil] at hlen
      exact .inl (List.eq_nil_of_length_eq_zero (by omega))
  · rcases hostWithFile_below he with ⟨rfl, _⟩ | ⟨_, heq⟩
    · decide
    · cases heq
  · rcases hostWithFile_below he with ⟨_, heq⟩ | ⟨rfl, _⟩
    · cases heq
    · exact ⟨by decide, rfl, by decide⟩

theorem measurable_hostWithFile : Measurable hostWithFile (str "r") := by
  intro names content _ hfile
  rcases hostWithFile_below hfile with ⟨_, heq⟩ | ⟨_, heq⟩
  · cases heq
  · cases heq
    decide

def emptyTree : VfsState :=
  { blankVfs junkNode hostWithFile 1 with hostRootDirectory := str "r" }

theorem seen_emptyTree (k : Bytes) (names : List Bytes) : seen emptyTree (k :: names) = none := by
  rw [seen, Forest.walk]
  rfl

theorem orderly_emptyTree : Orderly emptyTree := by
  refine ⟨sound_blank junkNode hostWithFile 1, fun n => ?_⟩
  rw [show Forest.childrenOf emptyTree.nodes n = [] from Forest.childrenOf_single _ n]
  exact List.nodup_nil

def treeWithDirectory : VfsState :=
  vfsAddChild emptyTree 0 (vfsCreateDirectoryNode emptyTree (str "x"))

theorem overwrites_treeWithDirectory :
    Overwrites emptyTree [str "x"] (some (1, .directory)) treeWithDirectory :=
  have hroot : seen emptyTree [] = some (0, .directory) := by decide
  overwrites_addChild (v := vfsCreateDirectoryNode emptyTree (str "x")) orderly_emptyTree hroot
    (seen_emptyTree _ _) rfl

def treeWithOldFile : VfsState :=
  vfsAddChild treeWithDirectory 0 (vfsCreateFileNode treeWithDirectory (str "y"))

theorem sync_mirrors_iff_old_file :
    ∃ s', vfsSyncFromHost year1970 treeWithOldFile = .ok (1, s') ∧ Mirrors hostWithFile (str "r") s' := by
  have hx := overwrites_treeWithDirectory
  have hroot : seen treeWithDirectory [] = some (0, .directory) := by decide
  have hfree : seen treeWithDirectory [str "y"] = none :=
    (hx.elsewhere _ (by decide)).trans (seen_emptyTree _ _)
  have hy : Overwrites treeWithDirectory [str "y"] (some (2, .file 0 [] 1)) treeWithOldFile :=
    overwrites_addChild (v := vfsCreateFileNode treeWithDirectory (str "y"))
      hx.settled.orderly hroot hfree rfl
  have hkinds : KindsAgree hostWithFile (str "r") [] treeWithOldFile := by
    intro rest e n x hne he hseen
    rcases hostWithFile_below he with ⟨rfl, _⟩ | ⟨rfl, _⟩
    · exact absurd rfl hne
    · have hnone : seen treeWithOldFile [str "f"] = none :=
        (hy.elsewhere _ (by decide)).trans ((hx.elsewhere _ (by decide)).trans (seen_emptyTree _ _))
      cases hnone.symm.trans hseen
  obtain ⟨s', hrun, hiff⟩ := sync_mirrors_iff year1970 treeWithOldFile hy.settled.orderly
    hostTree_hostWithFile hkinds (by decide)
  refine ⟨s', hrun, hiff.mpr ⟨measurable_hostWithFile, fun dir name n _ _ _ hseen => .inl ?_⟩⟩
  by_cases hlost : dir ++ [name] = [str "y"]
  · exact (List.append_eq_singleton_iff.mp hlost).elim And.left fun h => absurd h.2 (List.cons_ne_nil _ _)
  · rw [hy.elsewhere _ hlost] at hseen
    by_cases hdir : dir ++ [name] = [str "x"]
    · rw [hdir, hx.here] at hseen
      cases hseen
    · obtain ⟨k, names, heq⟩ := List.exists_cons_of_ne_nil
        (List.append_ne_nil_of_right_ne_nil dir (List.cons_ne_nil name []))
      rw [hx.elsewhere _ hdir, heq] at hseen
      cases (seen_emptyTree k names).symm.trans hseen

def treeWithLostFile : VfsState :=
  vfsAddChild treeWithDirectory 1 (vfsCreateFileNode treeWithDirectory (str "y"))

theorem lost_directory_keeps_files :
    ¬ ∀ (writeTime : Location → BitVec 64) (s s' : VfsState) (r : Int), Orderly s →
      HostTree s.host writeTime s.hostRootDirectory →
      KindsAgree s.host s.hostRootDirectory [] s → 0 < s.clock →
      Measurable s.host s.hostRootDirectory → vfsSyncFromHost writeTime s = .ok (r, s') →
      Mirrors s.host s.hostRootDirectory s' := by
  intro hall
  have hx := overwrites_treeWithDirectory
  have hfree : seen treeWithDirectory [str "x", str "y"] = none :=
    (hx.elsewhere _ (by decide)).trans (seen_emptyTree _ _)
  have hy : Overwrites treeWithDirectory [str "x", str "y"] (some (2, .file 0 [] 1))
      treeWithLostFile :=
    overwrites_addChild (v := vfsCreateFileNode treeWithDirectory (str "y")) hx.settled.orderly
      hx.here hfree rfl
  have hkinds : KindsAgree hostWithFile (str "r") [] treeWithLostFile := by
    intro rest e n x hne he hseen
    rcases hostWithFile_below he with ⟨rfl, _⟩ | ⟨rfl, _⟩
    · exact absurd rfl hne
    · have hnone : seen treeWithLostFile [str "f"] = none :=
        (hy.elsewhere _ (by decide)).trans ((hx.elsewhere _ (by decide)).trans (seen_emptyTree _ _))
      cases hnone.symm.trans hseen
  have horderly := hy.settled.orderly
  obtain ⟨s', hrun, hsynced⟩ := vfsSyncFromHost_synced horderly hostTree_hostWithFile hkinds
    (by decide)
  have hmirrors := hall year1970 treeWithLostFile s' 1 horderly hostTree_hostWithFile hkinds
    (by decide) measurable_hostWithFile hrun
  have hin := ((hsynced.mirrors_iff hostTree_hostWithFile).mp hmirrors).2
  rcases hin [str "x"] (str "y") _ _ _ _ hy.here with hnil | hdir
  · cases hnil
  · exact absurd hdir (by decide)

end Results

end ZoraVM.Vfs

import ZoraVM.Foundation.LexicalPath
import ZoraVM.Shell.TreeListing
import ZoraVM.Vfs.PathResolution
import ZoraVM.Vfs.Paths

namespace ZoraVM.Shell

open Foundation Vfs

section Definitions

variable (s : VfsState) (prints : Attr → Bool) (d : Bytes) (n : Nat)

def IsPathOf : Prop := Forest.Denotes Attr.name s.nodes s.root (tokens slash d) n

def pathTo (names : List Bytes) : Bytes := d ++ names.flatMap (slash :: ·)

structure Wanted (names : List Bytes) (c : Nat) (a : Attr) : Prop where
  below : names ≠ []
  denotes : Forest.Denotes Attr.name s.nodes n names c
  value : Forest.valAt s.nodes c = some a
  printed : prints a = true

def EachOnce (run : Nat → Outcome (Option (List Entry))) (line : Entry → Bytes)
    (lineOf : List Bytes → Attr → Bytes) : Prop :=
  ∃ fuel es, run fuel = .ok (some es) ∧ (es.map Entry.node).Nodup ∧
    ∀ c l, (∃ e ∈ es, e.node = c ∧ line e = l) ↔
      ∃ names a, Wanted s prints n names c a ∧ l = lineOf names a

def FindsEach (pattern : Bytes) : Prop :=
  EachOnce s (matching pattern) n (fun fuel => findFilesRecursive s pattern fuel d)
    (fun e => findLine e.dirPath e.attr) (fun names _ => pathTo d names ++ str "\n")

def PrintsEach : Prop :=
  EachOnce s everything n (fun fuel => printTreeRecursive s fuel d 0)
    (fun e => treeLine e.depth e.attr) (fun names a => treeLine (names.length - 1) a)

structure Called (names : List Bytes) (m : Nat) : Prop where
  denotes : Forest.Denotes Attr.name s.nodes n names m
  directory : IsDirectory s.nodes m
  fits : ∀ {front name}, names = front ++ [name] → (pathTo d front).length < 256

def Harmless : Prop :=
  ∀ names m, Called s d n names m → 256 ≤ (pathTo d names).length →
    (∀ x c, vfsFindNode s (pathTo d names) = .ok (some x) → c ∈ Forest.childrenOf s.nodes x →
      ¬ IsDirectory s.nodes c ∧
        ∀ a, Forest.valAt s.nodes c = some a → prints a = true → x = m) ∧
    ∀ below c a, Wanted s prints m below c a → vfsFindNode s (pathTo d names) = .ok (some m)

end Definitions

section Paths

variable {d : Bytes} {names front : List Bytes} {name : Bytes}

theorem pathTo_nil (d : Bytes) : pathTo d [] = d := List.append_nil d

theorem pathTo_concat (d : Bytes) (front : List Bytes) (name : Bytes) :
    pathTo d (front ++ [name]) = pathTo d front ++ slash :: name := by
  rw [pathTo, flatMap_concat, ← List.append_assoc, pathTo]

theorem length_pathTo_le (d : Bytes) (names rest : List Bytes) :
    (pathTo d names).length ≤ (pathTo d (names ++ rest)).length := by
  simp only [pathTo, List.flatMap_append, List.length_append]
  omega

theorem tokens_pathTo (d : Bytes) (h : ∀ k ∈ names, k ≠ [] ∧ slash ∉ k) :
    tokens slash (pathTo d names) = tokens slash d ++ names := by
  induction names using List.reverseRecOn with
  | nil => rw [pathTo_nil, List.append_nil]
  | append_singleton front name ih =>
    obtain ⟨hne, hslash⟩ := h name (by simp)
    rw [pathTo_concat, tokens_append_cons, ih fun k hk => h k (by simp [hk]),
      tokens_of_not_mem hslash hne, List.append_assoc]

theorem pathComponents_childPath {p : Bytes} (hlong : 256 ≤ p.length) (name : Bytes) :
    pathComponents (childPath p name) = pathComponents p := by
  simp only [pathComponents, childPath, clip, List.take_take]
  rw [List.take_append_of_le_length (by omega)]
  rfl

theorem length_childPath {p : Bytes} (hlong : 256 ≤ p.length) (name : Bytes) :
    256 ≤ (childPath p name).length := by
  simp only [childPath, clip, List.length_take, List.length_append]
  omega

theorem childPath_pathTo (hfit : (pathTo d names).length < 256) (hname : name.length < 256) :
    childPath (pathTo d names) name = pathTo d (names ++ [name]) := by
  rw [pathTo_concat, childPath]
  refine clip_of_length_lt ?_
  rw [List.length_append, List.length_cons]
  omega

end Paths

section Names

variable {s : VfsState} {d : Bytes} {n m x c : Nat} {a : Attr} {names names' : List Bytes}
variable {name : Bytes}

theorem ne_root (hs : Searchable s) (hc : c ∈ Forest.childrenOf s.nodes m) : c ≠ s.root := by
  obtain ⟨hlive, hparent⟩ := hs.shape.tree.child_parent hc
  intro hroot
  rw [(hs.shape.tree.rooted hlive).mpr hroot] at hparent
  cases hparent

theorem names_plain (hs : Searchable s) (h : Forest.Denotes Attr.name s.nodes n names m) :
    ∀ k ∈ names, k ≠ [] ∧ slash ∉ k ∧ k.length < 256 := by
  induction h with
  | here => simp
  | child hc hk _ ih =>
    obtain ⟨a, ha, rfl⟩ := Forest.keyAt_eq_some_iff.mp hk
    exact List.forall_mem_cons.mpr ⟨hs.named ha (ne_root hs hc), ih⟩

theorem denotes_child (h : Forest.Denotes Attr.name s.nodes n names m)
    (hc : c ∈ Forest.childrenOf s.nodes m) (ha : Forest.valAt s.nodes c = some a) :
    Forest.Denotes Attr.name s.nodes n (names ++ [a.name]) c :=
  Forest.denotes_concat.mpr ⟨m, h, hc, Forest.keyAt_eq_some_iff.mpr ⟨a, ha, rfl⟩⟩

theorem directory_of_child (hs : Searchable s) (hc : c ∈ Forest.childrenOf s.nodes m) :
    IsDirectory s.nodes m := by
  obtain ⟨a, ha⟩ := Forest.live_iff_valAt.mp (Forest.live_of_child hc)
  refine ⟨a, ha, ?_⟩
  by_contra hfile
  rw [hs.shape.leaves ha (Bool.eq_false_iff.mpr hfile)] at hc
  cases hc

theorem directory_towards (hs : Searchable s) (hm : IsDirectory s.nodes m)
    (h : Forest.Denotes Attr.name s.nodes x (name :: names) m) :
    ∃ c ∈ Forest.childrenOf s.nodes x, IsDirectory s.nodes c := by
  cases h with
  | child hc hk hrest =>
    refine ⟨_, hc, ?_⟩
    cases hrest with
    | here => exact hm
    | child hc' _ _ => exact directory_of_child hs hc'

theorem tokens_path (hs : Searchable s) (h : Forest.Denotes Attr.name s.nodes n names m) (d : Bytes) :
    tokens slash (pathTo d names) = tokens slash d ++ names := by
  refine tokens_pathTo d fun k hk => ?_
  obtain ⟨hne, hslash, _⟩ := names_plain hs h k hk
  exact ⟨hne, hslash⟩

theorem pathTo_inj (hs : Searchable s) (h : Forest.Denotes Attr.name s.nodes n names m)
    (h' : Forest.Denotes Attr.name s.nodes n names' x) (heq : pathTo d names = pathTo d names') :
    names = names' := by
  have htokens := congrArg (tokens slash) heq
  rw [tokens_path hs h, tokens_path hs h'] at htokens
  exact List.append_cancel_left htokens

theorem names_unique (hs : Searchable s) (hd : IsPathOf s d n)
    (h : Forest.Denotes Attr.name s.nodes n names m)
    (h' : Forest.Denotes Attr.name s.nodes n names' m) : names = names' :=
  List.append_cancel_left (hs.shape.tree.path_unique (Forest.denotes_append.mpr ⟨n, hd, h⟩)
    (Forest.denotes_append.mpr ⟨n, hd, h'⟩))

theorem walk_pathTo (hs : Searchable s) (hd : IsPathOf s d n)
    (h : Forest.Denotes Attr.name s.nodes n names m) (hfit : (pathTo d names).length < 256) :
    Forest.walk Attr.name s.nodes s.root (pathComponents (pathTo d names)) = some m := by
  rw [pathComponents_of_short hfit, tokens_path hs h, hs.distinct.walk_iff]
  exact Forest.denotes_append.mpr ⟨n, hd, h⟩

end Names

section Calls

variable {s : VfsState} {prints : Attr → Bool} {d : Bytes} {n m c fuel : Nat} {a : Attr}
variable {names front : List Bytes} {name : Bytes} {j : Bytes × Nat} {es : List Entry}

def callFor (d : Bytes) (names : List Bytes) : Bytes × Nat := (pathTo d names, names.length)

def Quiet (s : VfsState) (d : Bytes) (n : Nat) : Prop :=
  ∀ names m x c, Called s d n names m → 256 ≤ (pathTo d names).length →
    Forest.walk Attr.name s.nodes s.root (pathComponents (pathTo d names)) = some x →
    c ∈ Forest.childrenOf s.nodes x → ¬ IsDirectory s.nodes c

theorem Called.child (h : Called s d n names m) (hfit : (pathTo d names).length < 256)
    (hc : c ∈ Forest.childrenOf s.nodes m) (ha : Forest.valAt s.nodes c = some a)
    (hdir : a.isDirectory = true) : Called s d n (names ++ [a.name]) c := by
  refine ⟨denotes_child h.denotes hc ha, ⟨a, ha, hdir⟩, fun heq => ?_⟩
  obtain ⟨rfl, _⟩ := List.append_inj' heq rfl
  exact hfit

theorem Called.parent (hs : Searchable s) (h : Called s d n (front ++ [name]) m) :
    ∃ q, Called s d n front q ∧ m ∈ Forest.childrenOf s.nodes q ∧
      Forest.keyAt Attr.name s.nodes m = some name := by
  obtain ⟨q, hq, hm, hk⟩ := Forest.denotes_concat.mp h.denotes
  refine ⟨q, ⟨hq, directory_of_child hs hm, ?_⟩, hm, hk⟩
  rintro above k rfl
  exact Nat.lt_of_le_of_lt (length_pathTo_le d above [k]) (h.fits rfl)

theorem calls_child (hs : Searchable s) (hd : IsPathOf s d n) (h : Called s d n names m)
    (hfit : (pathTo d names).length < 256) (hc : c ∈ Forest.childrenOf s.nodes m)
    (ha : Forest.valAt s.nodes c = some a) (hdir : a.isDirectory = true) :
    (search s prints).Calls (callFor d names) (callFor d (names ++ [a.name])) := by
  have hname := (hs.named ha (ne_root hs hc)).2.2
  refine ⟨c, mem_items.mpr ⟨m, walk_pathTo hs hd h.denotes hfit, hc⟩,
    next_eq_some.mpr ⟨a, ha, hdir, ?_⟩⟩
  rw [childPath_pathTo hfit hname, callFor, List.length_append]
  rfl

theorem reaches_called (hs : Searchable s) (hd : IsPathOf s d n) (h : Called s d n names m) :
    (search s prints).Reaches (callFor d []) (callFor d names) := by
  induction names using List.reverseRecOn generalizing m with
  | nil => exact .refl
  | append_singleton front name ih =>
    obtain ⟨q, hq, hm, hk⟩ := h.parent hs
    obtain ⟨a, ha, rfl⟩ := Forest.keyAt_eq_some_iff.mp hk
    obtain ⟨b, hb, hdir⟩ := h.directory
    obtain rfl := Option.some.inj (ha.symm.trans hb)
    exact (ih hq).tail (calls_child hs hd hq (h.fits rfl) hm ha hdir)

theorem call_of_item (hs : Searchable s) (hd : IsPathOf s d n) (hquiet : Quiet s d n)
    (h : Called s d n names m) (hitem : c ∈ (search s prints).items (callFor d names))
    (hnext : (search s prints).next (callFor d names) c = some j) :
    ∃ a, c ∈ Forest.childrenOf s.nodes m ∧ Forest.valAt s.nodes c = some a ∧
      Called s d n (names ++ [a.name]) c ∧ j = callFor d (names ++ [a.name]) := by
  obtain ⟨x, hwalk, hc⟩ := mem_items.mp hitem
  obtain ⟨a, ha, hdir, rfl⟩ := next_eq_some.mp hnext
  have hfit : (pathTo d names).length < 256 := by
    by_contra hlong
    exact hquiet names m x c h (Nat.not_lt.mp hlong) hwalk hc ⟨a, ha, hdir⟩
  obtain rfl := Option.some.inj ((walk_pathTo hs hd h.denotes hfit).symm.trans hwalk)
  refine ⟨a, hc, ha, h.child hfit hc ha hdir, ?_⟩
  rw [childPath_pathTo hfit (hs.named ha (ne_root hs hc)).2.2, callFor, List.length_append]
  rfl

theorem reaches_cases (hs : Searchable s) (hd : IsPathOf s d n) (hquiet : Quiet s d n)
    (h : Called s d n names m) (hreach : (search s prints).Reaches (callFor d names) j) :
    ∃ rest m', Called s d n (names ++ rest) m' ∧ j = callFor d (names ++ rest) := by
  induction hreach with
  | refl => exact ⟨[], m, by rwa [List.append_nil], by rw [List.append_nil]⟩
  | tail _ hcall ih =>
    obtain ⟨rest, m', hm', rfl⟩ := ih
    obtain ⟨c, hitem, hnext⟩ := hcall
    obtain ⟨a, _, _, hc, rfl⟩ := call_of_item hs hd hquiet hm' hitem hnext
    rw [List.append_assoc] at hc ⊢
    exact ⟨rest ++ [a.name], c, hc, rfl⟩

theorem quiet_of_returns (hs : Searchable s) (hd : IsPathOf s d n)
    (h : (search s prints).visit fuel (callFor d []) = some es) : Quiet s d n := by
  intro names m x c hm hlong hwalk hc hdir
  obtain ⟨a, ha, hdir⟩ := hdir
  obtain ⟨fuel', es', hreturn⟩ := Traversal.returns_of_reaches h (reaches_called hs hd hm)
  have hnever : (search s prints).visit fuel' (callFor d names) = none := by
    refine Traversal.never_returns (P := fun i => 256 ≤ i.1.length ∧
      pathComponents i.1 = pathComponents (pathTo d names)) ?_ ⟨hlong, rfl⟩
    rintro ⟨p, k⟩ ⟨hp, hsame⟩
    refine ⟨(childPath p a.name, k + 1), ⟨c, ?_, next_eq_some.mpr ⟨a, ha, hdir, rfl⟩⟩, ?_, ?_⟩
    · exact mem_items.mpr ⟨x, by rwa [hsame], hc⟩
    · exact length_childPath hp a.name
    · rw [pathComponents_childPath hp, hsame]
  rw [hreturn] at hnever
  cases hnever

theorem returns_of_quiet (hs : Searchable s) (hd : IsPathOf s d n) (hquiet : Quiet s d n)
    (h : Called s d n names m) : ∃ fuel es, (search s prints).visit fuel (callFor d names) = some es := by
  refine ⟨s.nodes.size - m + 1, Traversal.returns_of_rank (k := s.nodes.size - m)
    (P := fun k i => ∃ names m, Called s d n names m ∧ i = callFor d names ∧ k = s.nodes.size - m)
    ?_ ⟨names, m, h, rfl, rfl⟩ (Nat.lt_succ_self _)⟩
  rintro k i ⟨names, m, hm, rfl, rfl⟩ j ⟨c, hitem, hnext⟩
  obtain ⟨a, hc, _, hcalled, rfl⟩ := call_of_item hs hd hquiet hm hitem hnext
  obtain ⟨hlive, hparent⟩ := hs.shape.tree.child_parent hc
  have holder := hs.shape.tree.older hparent
  have hsize := Forest.live_lt_size hlive
  exact ⟨s.nodes.size - c, by omega, names ++ [a.name], c, hcalled, rfl, rfl⟩

end Calls

section Entries

variable {s : VfsState} {prints : Attr → Bool} {d p : Bytes} {n m x c fuel : Nat} {a : Attr}
variable {names front : List Bytes} {name : Bytes} {e : Entry} {es : List Entry}

theorem find_iff_walk (hs : Searchable s) : vfsFindNode s p = .ok (some x) ↔
    Forest.walk Attr.name s.nodes s.root (pathComponents p) = some x := by
  rw [vfsFindNode_of_live hs.shape.tree.root_live, Except.ok.injEq]

theorem emits_iff : (search s prints).Emits (callFor d names) e ↔
    ∃ x c a, Forest.walk Attr.name s.nodes s.root (pathComponents (pathTo d names)) = some x ∧
      c ∈ Forest.childrenOf s.nodes x ∧ Forest.valAt s.nodes c = some a ∧ prints a = true ∧
      e = ⟨pathTo d names, names.length, c, a⟩ := by
  constructor
  · rintro ⟨c, hitem, hemit⟩
    obtain ⟨x, hwalk, hc⟩ := mem_items.mp hitem
    obtain ⟨a, ha, hprints, rfl⟩ := mem_emit.mp hemit
    exact ⟨x, c, a, hwalk, hc, ha, hprints, rfl⟩
  · rintro ⟨x, c, a, hwalk, hc, ha, hprints, rfl⟩
    exact ⟨c, mem_items.mpr ⟨x, hwalk, hc⟩, mem_emit.mpr ⟨a, ha, hprints, rfl⟩⟩

theorem called_start (hn : IsDirectory s.nodes n) : Called s d n [] n :=
  ⟨.here n, hn, fun heq => by simp at heq⟩

theorem called_or_long (hs : Searchable s) (hn : IsDirectory s.nodes n)
    (h : Forest.Denotes Attr.name s.nodes n names m) (hm : IsDirectory s.nodes m) :
    Called s d n names m ∨ ∃ front x name rest, Called s d n front x ∧
      256 ≤ (pathTo d front).length ∧ Forest.Denotes Attr.name s.nodes x (name :: rest) m := by
  induction names using List.reverseRecOn generalizing m with
  | nil =>
    obtain rfl := Forest.denotes_nil.mp h
    exact .inl (called_start hn)
  | append_singleton above last ih =>
    obtain ⟨q, hq, hchild, hk⟩ := Forest.denotes_concat.mp h
    rcases ih hq (directory_of_child hs hchild) with hcalled | ⟨front, x, name, rest, hx, hlong, hrest⟩
    · by_cases hfit : (pathTo d above).length < 256
      · refine .inl ⟨h, hm, fun heq => ?_⟩
        obtain ⟨rfl, _⟩ := List.append_inj' heq rfl
        exact hfit
      · exact .inr ⟨above, q, last, [], hcalled, Nat.not_lt.mp hfit, .child hchild hk (.here m)⟩
    · exact .inr ⟨front, x, name, rest ++ [last], hx, hlong,
        Forest.denotes_concat.mpr ⟨q, hrest, hchild, hk⟩⟩

theorem Harmless.quiet (hs : Searchable s) (h : Harmless s prints d n) : Quiet s d n :=
  fun names m x c hm hlong hwalk hc => ((h names m hm hlong).1 x c ((find_iff_walk hs).mpr hwalk) hc).1

theorem Harmless.walk_called (hs : Searchable s) (hd : IsPathOf s d n) (h : Harmless s prints d n)
    (hm : Called s d n names m) (hc : c ∈ Forest.childrenOf s.nodes m)
    (ha : Forest.valAt s.nodes c = some a) (hprints : prints a = true) :
    Forest.walk Attr.name s.nodes s.root (pathComponents (pathTo d names)) = some m := by
  by_cases hfit : (pathTo d names).length < 256
  · exact walk_pathTo hs hd hm.denotes hfit
  · have hbelow := denotes_child (.here m) hc ha
    exact (find_iff_walk hs).mp ((h names m hm (Nat.not_lt.mp hfit)).2 [a.name] c a
      ⟨List.cons_ne_nil _ _, hbelow, ha, hprints⟩)

theorem Harmless.called (hs : Searchable s) (hn : IsDirectory s.nodes n) (h : Harmless s prints d n)
    (hm : Forest.Denotes Attr.name s.nodes n names m) (hc : c ∈ Forest.childrenOf s.nodes m)
    (ha : Forest.valAt s.nodes c = some a) (hprints : prints a = true) : Called s d n names m := by
  have hdir := directory_of_child hs hc
  rcases called_or_long (d := d) hs hn hm hdir with hcalled | ⟨front, x, name, rest, hx, hlong, hway⟩
  · exact hcalled
  · have hwanted : Wanted s prints x (name :: rest ++ [a.name]) c a :=
      ⟨by simp, denotes_child hway hc ha, ha, hprints⟩
    have hfind := (h front x hx hlong).2 _ c a hwanted
    obtain ⟨b, hb, hbdir⟩ := directory_towards hs hdir hway
    exact absurd hbdir ((h front x hx hlong).1 x b hfind hb).1

theorem mem_entries (hs : Searchable s) (hd : IsPathOf s d n) (hn : IsDirectory s.nodes n)
    (h : Harmless s prints d n) (hvisit : (search s prints).visit fuel (callFor d []) = some es) :
    e ∈ es ↔ ∃ names m c a, Forest.Denotes Attr.name s.nodes n names m ∧
      c ∈ Forest.childrenOf s.nodes m ∧ Forest.valAt s.nodes c = some a ∧ prints a = true ∧
      e = ⟨pathTo d names, names.length, c, a⟩ := by
  rw [Traversal.mem_visit hvisit]
  constructor
  · rintro ⟨j, hreach, hemit⟩
    obtain ⟨names, m, hm, rfl⟩ := reaches_cases hs hd (h.quiet hs) (called_start hn) hreach
    obtain ⟨x, c, a, hwalk, hc, ha, hprints, rfl⟩ := emits_iff.mp hemit
    refine ⟨_, m, c, a, hm.denotes, ?_, ha, hprints, rfl⟩
    by_cases hfit : (pathTo d ([] ++ names)).length < 256
    · obtain rfl := Option.some.inj ((walk_pathTo hs hd hm.denotes hfit).symm.trans hwalk)
      exact hc
    · have hsame := ((h _ m hm (Nat.not_lt.mp hfit)).1 x c
        ((find_iff_walk hs).mpr hwalk) hc).2 a ha hprints
      exact hsame ▸ hc
  · rintro ⟨names, m, c, a, hm, hc, ha, hprints, rfl⟩
    have hcalled := h.called hs hn hm hc ha hprints
    exact ⟨callFor d names, reaches_called hs hd hcalled,
      emits_iff.mpr ⟨m, c, a, h.walk_called hs hd hcalled hc ha hprints, hc, ha, hprints, rfl⟩⟩

end Entries

section Once

variable {s : VfsState} {prints : Attr → Bool} {d : Bytes} {n m c fuel : Nat} {a : Attr}
variable {names : List Bytes} {e : Entry} {es : List Entry} {j k : Bytes × Nat}

theorem dirPath_below (hs : Searchable s) (hd : IsPathOf s d n) (hquiet : Quiet s d n)
    (hm : Called s d n names m) (hitem : c ∈ (search s prints).items (callFor d names))
    (hnext : (search s prints).next (callFor d names) c = some j)
    (hreach : (search s prints).Reaches j k) (hemit : (search s prints).Emits k e) :
    ∃ a rest x, c ∈ Forest.childrenOf s.nodes m ∧ Forest.valAt s.nodes c = some a ∧
      Forest.Denotes Attr.name s.nodes n (names ++ a.name :: rest) x ∧
      e.dirPath = pathTo d (names ++ a.name :: rest) := by
  obtain ⟨a, hc, ha, hcalled, rfl⟩ := call_of_item hs hd hquiet hm hitem hnext
  obtain ⟨rest, x, hx, rfl⟩ := reaches_cases hs hd hquiet hcalled hreach
  obtain ⟨_, _, _, _, _, _, _, rfl⟩ := emits_iff.mp hemit
  rw [List.append_assoc, List.singleton_append] at hx ⊢
  exact ⟨a, rest, x, hc, ha, hx.denotes, rfl⟩

theorem dirPath_not_below (hs : Searchable s) (hd : IsPathOf s d n) (hquiet : Quiet s d n)
    (hm : Called s d n names m) (hitem : c ∈ (search s prints).items (callFor d names))
    (hnext : (search s prints).next (callFor d names) c = some j)
    (hreach : (search s prints).Reaches j k) (hemit : (search s prints).Emits k e) :
    e.dirPath ≠ pathTo d names := by
  obtain ⟨a, rest, x, _, _, hx, hpath⟩ := dirPath_below hs hd hquiet hm hitem hnext hreach hemit
  intro heq
  have hsame := pathTo_inj hs hx hm.denotes (hpath.symm.trans heq)
  simp at hsame

theorem yields_apart (hs : Searchable s) (hd : IsPathOf s d n) (hquiet : Quiet s d n)
    (hm : Called s d n names m) {b c : Nat} (hb : b ∈ (search s prints).items (callFor d names))
    (hc : c ∈ (search s prints).items (callFor d names))
    (hyb : (search s prints).Yields (callFor d names) b e)
    (hyc : (search s prints).Yields (callFor d names) c e) : b = c := by
  rcases hyb with hyb | ⟨jb, kb, hjb, hkb, hyb⟩
  · obtain ⟨_, _, _, rfl⟩ := mem_emit.mp hyb
    rcases hyc with hyc | ⟨jc, kc, hjc, hkc, hyc⟩
    · obtain ⟨_, _, _, heq⟩ := mem_emit.mp hyc
      exact (Entry.mk.inj heq).2.2.1
    · exact absurd rfl (dirPath_not_below hs hd hquiet hm hc hjc hkc hyc)
  · rcases hyc with hyc | ⟨jc, kc, hjc, hkc, hyc⟩
    · obtain ⟨_, _, _, rfl⟩ := mem_emit.mp hyc
      exact absurd rfl (dirPath_not_below hs hd hquiet hm hb hjb hkb hyb)
    · obtain ⟨a, rest, x, hbm, ha, hx, hpath⟩ := dirPath_below hs hd hquiet hm hb hjb hkb hyb
      obtain ⟨a', rest', x', hcm, ha', hx', hpath'⟩ := dirPath_below hs hd hquiet hm hc hjc hkc hyc
      have hnames := List.append_cancel_left (pathTo_inj hs hx hx' (hpath.symm.trans hpath'))
      have hname : a.name = a'.name := (List.cons.inj hnames).1
      refine hs.distinct.eq_of_key hbm hcm ?_
      rw [Forest.keyAt_eq_some_iff.mpr ⟨a, ha, rfl⟩, Forest.keyAt_eq_some_iff.mpr ⟨a', ha', rfl⟩, hname]

theorem nodup_entries (hs : Searchable s) (hd : IsPathOf s d n) (hn : IsDirectory s.nodes n)
    (hquiet : Quiet s d n) (hvisit : (search s prints).visit fuel (callFor d []) = some es) :
    es.Nodup := by
  have hcases : ∀ k, (search s prints).Reaches (callFor d []) k →
      ∃ names m, Called s d n names m ∧ k = callFor d names := by
    intro k hk
    obtain ⟨names, m, hm, rfl⟩ := reaches_cases hs hd hquiet (called_start hn) hk
    exact ⟨_, m, hm, rfl⟩
  refine Traversal.visit_nodup ?_ ?_ ?_ ?_ hvisit
  · intro k _
    cases hwalk : Forest.walk Attr.name s.nodes s.root (pathComponents k.1) with
    | none => simp [search, hwalk]
    | some x => simpa [search, hwalk] using hs.shape.tree.nodup x
  · intro k c _ _
    cases hval : (Forest.valAt s.nodes c).filter prints <;> simp [search, hval]
  · intro k b c e hk hb hc hyb hyc
    obtain ⟨names, m, hm, rfl⟩ := hcases k hk
    exact yields_apart hs hd hquiet hm hb hc hyb hyc
  · rintro k b j e hk hb hnext hemit ⟨l, hl, hbelow⟩
    obtain ⟨names, m, hm, rfl⟩ := hcases k hk
    obtain ⟨_, _, _, rfl⟩ := mem_emit.mp hemit
    exact dirPath_not_below hs hd hquiet hm hb hnext hl hbelow rfl

end Once

section Enough

variable {s : VfsState} {prints : Attr → Bool} {d : Bytes} {n : Nat}
variable {line : Entry → Bytes} {lineOf : List Bytes → Attr → Bytes}

theorem visitDirectory_start (hs : Searchable s) (d : Bytes) (fuel : Nat) :
    visitDirectory s prints fuel d 0 = .ok ((search s prints).visit fuel (callFor d [])) := by
  rw [visitDirectory_eq hs, callFor, pathTo_nil]
  rfl

theorem eachOnce_of_harmless (hs : Searchable s) (hd : IsPathOf s d n) (hn : IsDirectory s.nodes n)
    (hline : ∀ names c a, line ⟨pathTo d names, names.length, c, a⟩ = lineOf (names ++ [a.name]) a)
    (h : Harmless s prints d n) :
    EachOnce s prints n (fun fuel => visitDirectory s prints fuel d 0) line lineOf := by
  obtain ⟨fuel, es, hvisit⟩ : ∃ fuel es, (search s prints).visit fuel (callFor d []) = some es :=
    returns_of_quiet hs hd (h.quiet hs) (called_start hn)
  have hmem := fun e => mem_entries (e := e) hs hd hn h hvisit
  refine ⟨fuel, es, (visitDirectory_start hs d fuel).trans (congrArg Except.ok hvisit), ?_, ?_⟩
  · refine (nodup_entries hs hd hn (h.quiet hs) hvisit).map_on fun e he e' he' hnode => ?_
    obtain ⟨names, m, c, a, hm, hc, ha, _, rfl⟩ := (hmem e).mp he
    obtain ⟨names', m', c', a', hm', hc', ha', _, rfl⟩ := (hmem e').mp he'
    obtain rfl : c = c' := hnode
    obtain rfl := Option.some.inj (ha.symm.trans ha')
    have hnames := names_unique hs hd (denotes_child hm hc ha) (denotes_child hm' hc' ha)
    rw [(List.append_inj' hnames rfl).1]
  · intro c l
    constructor
    · rintro ⟨e, he, rfl, rfl⟩
      obtain ⟨names, m, c, a, hm, hc, ha, hprints, rfl⟩ := (hmem e).mp he
      exact ⟨names ++ [a.name], a, ⟨by simp, denotes_child hm hc ha, ha, hprints⟩, hline names c a⟩
    · rintro ⟨names, a, ⟨hne, hdenotes, ha, hprints⟩, rfl⟩
      obtain ⟨front, name, rfl⟩ := (List.eq_nil_or_concat' names).resolve_left hne
      obtain ⟨m, hm, hc, hk⟩ := Forest.denotes_concat.mp hdenotes
      obtain ⟨b, hb, rfl⟩ := Forest.keyAt_eq_some_iff.mp hk
      obtain rfl := Option.some.inj (ha.symm.trans hb)
      exact ⟨_, (hmem _).mpr ⟨front, m, c, a, hm, hc, ha, hprints, rfl⟩, rfl, hline front c a⟩

end Enough

section Needed

variable {s : VfsState} {prints : Attr → Bool} {d : Bytes} {n m x c fuel : Nat} {a : Attr}
variable {names front below : List Bytes} {name shown : Bytes} {es : List Entry}

structure Covers (s : VfsState) (prints : Attr → Bool) (n : Nat) (es : List Entry) : Prop where
  once : (es.map Entry.node).Nodup
  wanted : ∀ {e}, e ∈ es → ∃ names a, Wanted s prints n names e.node a
  printed : ∀ {names c a}, Wanted s prints n names c a → ∃ e ∈ es, e.node = c

theorem entry_mem (hs : Searchable s) (hd : IsPathOf s d n)
    (hvisit : (search s prints).visit fuel (callFor d []) = some es) (hm : Called s d n names m)
    (hwalk : Forest.walk Attr.name s.nodes s.root (pathComponents (pathTo d names)) = some x)
    (hc : c ∈ Forest.childrenOf s.nodes x) (ha : Forest.valAt s.nodes c = some a)
    (hprints : prints a = true) : (⟨pathTo d names, names.length, c, a⟩ : Entry) ∈ es :=
  (Traversal.mem_visit hvisit).mpr ⟨callFor d names, reaches_called hs hd hm,
    emits_iff.mpr ⟨x, c, a, hwalk, hc, ha, hprints, rfl⟩⟩

theorem start_meant (hs : Searchable s) (hd : IsPathOf s d n) (hn : IsDirectory s.nodes n)
    (hquiet : ∀ c ∈ Forest.childrenOf s.nodes x, ¬ IsDirectory s.nodes c)
    (hwalk : Forest.walk Attr.name s.nodes s.root (pathComponents d) = some x)
    (hc : c ∈ Forest.childrenOf s.nodes x)
    (hbelow : Forest.Denotes Attr.name s.nodes n below c) : x = n := by
  have hx := hs.distinct.walk_iff.mp hwalk
  rcases tokens_take_cases (c := slash) d 255 with
    ⟨rest, hrest⟩ | ⟨front, shown, name, rest, hne, hshown, hwhole⟩
  · cases rest with
    | nil =>
      rw [List.append_nil] at hrest
      rw [IsPathOf, hrest] at hd
      exact hs.distinct.denotes_unique hx hd
    | cons k rest =>
      rw [IsPathOf, hrest] at hd
      obtain ⟨y, hy, hway⟩ := Forest.denotes_append.mp hd
      obtain rfl := hs.distinct.denotes_unique hx hy
      obtain ⟨b, hb, hdir⟩ := directory_towards hs hn hway
      exact absurd hdir (hquiet b hb)
  · obtain ⟨b, hb⟩ := Forest.live_iff_valAt.mp (hs.shape.tree.child_parent hc).1
    have hthere := denotes_child hx hc hb
    rw [pathComponents, clip, hshown] at hthere
    have hhere := Forest.denotes_append.mpr ⟨n, hd, hbelow⟩
    rw [hwhole] at hhere
    have hsame := hs.shape.tree.path_unique hthere hhere
    simp only [List.append_assoc, List.cons_append] at hsame
    exact absurd (List.cons.inj (List.append_cancel_left hsame)).1 hne

theorem child_meant (hs : Searchable s) (hd : IsPathOf s d n) (hquiet : Quiet s d n)
    (hcovers : Covers s prints n es)
    (hvisit : (search s prints).visit fuel (callFor d []) = some es)
    (hm : Called s d n (front ++ [name]) m) (hlong : 256 ≤ (pathTo d (front ++ [name])).length)
    (hwalk : Forest.walk Attr.name s.nodes s.root
      (pathComponents (pathTo d (front ++ [name]))) = some x)
    (hc : c ∈ Forest.childrenOf s.nodes x) (ha : Forest.valAt s.nodes c = some a) :
    ¬ prints a = true := by
  intro hprints
  have hthere := entry_mem hs hd hvisit hm hwalk hc ha hprints
  obtain ⟨q, hq, hmq, hk⟩ := hm.parent hs
  have hfit : (pathTo d front).length < 256 := hm.fits rfl
  have hplain := names_plain hs hm.denotes name (by simp)
  have hparent := walk_pathTo hs hd hq.denotes hfit
  rw [pathComponents_of_short hfit] at hparent
  have hcut := hwalk
  rw [pathTo_concat] at hcut hlong
  rcases pathComponents_last hplain.2.1 hfit with ⟨shown, _, hlast, hshown, hshort⟩ | hlast
  · rw [hlast, Forest.walk_concat, hparent, Option.bind_some] at hcut
    obtain ⟨hxq, hkx⟩ := Forest.childNamed_eq_some hcut
    obtain ⟨b, hb, rfl⟩ := Forest.keyAt_eq_some_iff.mp hkx
    obtain ⟨b', hb', hdir⟩ := directory_of_child hs hc
    obtain rfl := Option.some.inj (hb.symm.trans hb')
    have hx := hq.child hfit hxq hb hdir
    have hhere := entry_mem hs hd hvisit hx
      (walk_pathTo hs hd hx.denotes (by rwa [pathTo_concat])) hc ha hprints
    have hentries := List.inj_on_of_nodup_map hcovers.once hthere hhere rfl
    have hnames := pathTo_inj hs hm.denotes hx.denotes (Entry.mk.inj hentries).1
    have hname := hshown.mp (List.cons.inj (List.append_cancel_left hnames)).1.symm
    omega
  · rw [hlast, hparent] at hcut
    obtain rfl := Option.some.inj hcut
    exact hquiet _ m q m hm (by rwa [pathTo_concat]) hwalk hmq hm.directory

theorem found_meant (hs : Searchable s) (hd : IsPathOf s d n) (hn : IsDirectory s.nodes n)
    (hcovers : Covers s prints n es)
    (hvisit : (search s prints).visit fuel (callFor d []) = some es)
    (hm : Called s d n names m) (hlong : 256 ≤ (pathTo d names).length)
    (hwalk : Forest.walk Attr.name s.nodes s.root (pathComponents (pathTo d names)) = some x)
    (hc : c ∈ Forest.childrenOf s.nodes x) (ha : Forest.valAt s.nodes c = some a)
    (hprints : prints a = true) : x = m := by
  have hquiet := quiet_of_returns hs hd hvisit
  induction names using List.reverseRecOn with
  | nil =>
    obtain rfl := Forest.denotes_nil.mp hm.denotes
    have hentry := entry_mem hs hd hvisit hm hwalk hc ha hprints
    obtain ⟨below, _, hbelow⟩ := hcovers.wanted hentry
    have hnone := fun b hb => hquiet [] m x b hm hlong hwalk hb
    rw [pathTo_nil] at hwalk
    exact start_meant hs hd hn hnone hwalk hc hbelow.denotes
  | append_singleton front name _ =>
    exact absurd hprints (child_meant hs hd hquiet hcovers hvisit hm hlong hwalk hc ha)

theorem wanted_found (hs : Searchable s) (hd : IsPathOf s d n) (hn : IsDirectory s.nodes n)
    (hcovers : Covers s prints n es)
    (hvisit : (search s prints).visit fuel (callFor d []) = some es)
    (hm : Called s d n names m) (hlong : 256 ≤ (pathTo d names).length)
    (hwanted : Wanted s prints m below c a) :
    Forest.walk Attr.name s.nodes s.root (pathComponents (pathTo d names)) = some m := by
  have hway := Forest.denotes_append.mpr ⟨m, hm.denotes, hwanted.denotes⟩
  obtain ⟨e, he, hnode⟩ := hcovers.printed
    ⟨by simp [hwanted.below], hway, hwanted.value, hwanted.printed⟩
  obtain ⟨j, hreach, hemit⟩ := (Traversal.mem_visit hvisit).mp he
  have hquiet := quiet_of_returns hs hd hvisit
  obtain ⟨names', m', hm', rfl⟩ := reaches_cases hs hd hquiet (called_start hn) hreach
  rw [List.nil_append] at hm' hemit
  obtain ⟨x, c', b, hwalk, hc, hb, hprints, rfl⟩ := emits_iff.mp hemit
  obtain rfl : c' = c := hnode
  obtain rfl : x = m' := by
    by_cases hfit : (pathTo d names').length < 256
    · exact Option.some.inj (hwalk.symm.trans (walk_pathTo hs hd hm'.denotes hfit))
    · exact found_meant hs hd hn hcovers hvisit hm' (Nat.not_lt.mp hfit) hwalk hc hb hprints
  have hnames := names_unique hs hd hway (denotes_child hm'.denotes hc hb)
  -- The call that prints it is this one: of a longer path a shorter part would not fit.
  obtain ⟨rest, last, rfl⟩ := (List.eq_nil_or_concat' below).resolve_left hwanted.below
  rw [← List.append_assoc] at hnames
  obtain ⟨hfront, _⟩ := List.append_inj' hnames rfl
  rcases List.eq_nil_or_concat' rest with rfl | ⟨rest', k, rfl⟩
  · rw [List.append_nil] at hfront
    subst hfront
    obtain rfl := hs.distinct.denotes_unique hm.denotes hm'.denotes
    exact hwalk
  · rw [← List.append_assoc] at hfront
    have hshort := hm'.fits hfront.symm
    have hle := length_pathTo_le d names rest'
    omega

theorem harmless_of_covers (hs : Searchable s) (hd : IsPathOf s d n) (hn : IsDirectory s.nodes n)
    (hcovers : Covers s prints n es)
    (hvisit : (search s prints).visit fuel (callFor d []) = some es) : Harmless s prints d n := by
  intro names m hm hlong
  constructor
  · intro x c hfind hc
    rw [find_iff_walk hs] at hfind
    exact ⟨quiet_of_returns hs hd hvisit names m x c hm hlong hfind hc,
      fun a ha hprints => found_meant hs hd hn hcovers hvisit hm hlong hfind hc ha hprints⟩
  · intro below c a hwanted
    exact (find_iff_walk hs).mpr (wanted_found hs hd hn hcovers hvisit hm hlong hwanted)

end Needed

section Exactly

variable {s : VfsState} {prints : Attr → Bool} {d : Bytes} {n : Nat}
variable {line : Entry → Bytes} {lineOf : List Bytes → Attr → Bytes}

theorem eachOnce_iff (hs : Searchable s) (hd : IsPathOf s d n) (hn : IsDirectory s.nodes n)
    (hline : ∀ names c a, line ⟨pathTo d names, names.length, c, a⟩ = lineOf (names ++ [a.name]) a) :
    EachOnce s prints n (fun fuel => visitDirectory s prints fuel d 0) line lineOf ↔
      Harmless s prints d n := by
  constructor
  · rintro ⟨fuel, es, hrun, honce, hlines⟩
    have hvisit := Except.ok.inj ((visitDirectory_start hs d fuel).symm.trans hrun)
    refine harmless_of_covers hs hd hn ⟨honce, ?_, ?_⟩ hvisit
    · intro e he
      obtain ⟨names, a, hwanted, _⟩ := (hlines e.node (line e)).mp ⟨e, he, rfl, rfl⟩
      exact ⟨names, a, hwanted⟩
    · intro names c a hwanted
      obtain ⟨e, he, hnode, _⟩ := (hlines c (lineOf names a)).mpr ⟨names, a, hwanted, rfl⟩
      exact ⟨e, he, hnode⟩
  · exact eachOnce_of_harmless hs hd hn hline

theorem harmless_of_short (h : ∀ names m, Forest.Denotes Attr.name s.nodes n names m →
    IsDirectory s.nodes m → (pathTo d names).length < 256) : Harmless s prints d n :=
  fun names m hm hlong => absurd (h names m hm.denotes hm.directory) (Nat.not_lt.mpr hlong)

theorem tree_searched_iff (hs : Searchable s) (hd : IsPathOf s d n) (hn : IsDirectory s.nodes n)
    (pattern : Bytes) : (FindsEach s d n pattern ↔ Harmless s (matching pattern) d n) ∧
      (PrintsEach s d n ↔ Harmless s everything d n) := by
  refine ⟨eachOnce_iff hs hd hn fun names c a => ?_, eachOnce_iff hs hd hn fun names c a => ?_⟩
  · rw [pathTo_concat]
    simp [findLine]
  · simp

end Exactly

section Concrete

variable {s : VfsState} {n m : Nat} {names : List Bytes}

def namesFit (s : VfsState) : Bool :=
  (List.range s.nodes.size).all fun c => c == s.root || (Forest.valAt s.nodes c).all fun a =>
    !a.name.isEmpty && decide (slash ∉ a.name) && decide (a.name.length < 256)

theorem searchable_of_naming {calls : List VfsCall}
    (hreach : ReachableBy (fun s c => (namingCall c && addsNoNamesake s c) = true) calls s)
    (hlive : s.nodes.live s.root = true) (hnames : namesFit s = true) : Searchable s := by
  obtain ⟨hsound, hd⟩ := sound_of_naming hreach hlive
  refine ⟨hsound.toShape, hd, fun {c a} ha hne => ?_⟩
  have hsize := Forest.live_lt_size (Forest.live_iff_valAt.mpr ⟨a, ha⟩)
  have hc := List.all_eq_true.mp hnames c (List.mem_range.mpr hsize)
  simpa [hne, ha, and_assoc] using hc

theorem directory_of_any (h : (Forest.valAt s.nodes n).any Attr.isDirectory = true) :
    IsDirectory s.nodes n := by
  cases hval : Forest.valAt s.nodes n with
  | none => simp [hval] at h
  | some a => exact ⟨a, hval, by simpa [hval] using h⟩

theorem bootedTree_searchable : Searchable bootedTree :=
  searchable_of_naming (reachableBy_ran (fun s c => namingCall c && addsNoNamesake s c) (openHost [])
    bootCalls (by decide +kernel) (by decide +kernel)) (by decide +kernel) (by decide +kernel)

theorem names_below_bin (h : Forest.Denotes Attr.name bootedTree.nodes 1 names m) :
    names = [] ∨ names = [str "d"] := by
  have hbin : Forest.childrenOf bootedTree.nodes 1 = [7] := by decide +kernel
  have hnone : Forest.childrenOf bootedTree.nodes 7 = [] := by decide +kernel
  have hkey : Forest.keyAt Attr.name bootedTree.nodes 7 = some (str "d") := by decide +kernel
  rcases h with _ | ⟨hc, hk, hrest⟩
  · exact .inl rfl
  · rw [hbin] at hc
    obtain rfl := List.mem_singleton.mp hc
    obtain rfl := Option.some.inj (hkey.symm.trans hk)
    rcases hrest with _ | ⟨hc', _, _⟩
    · exact .inr rfl
    · rw [hnone] at hc'
      cases hc'

theorem tree_searched_iff_bin : FindsEach bootedTree (str "/bin") 1 (str "d") ∧
    PrintsEach bootedTree (str "/bin") 1 := by
  have hpath : IsPathOf bootedTree (str "/bin") 1 :=
    bootedTree_searchable.distinct.walk_iff.mp (by decide +kernel)
  have hboth := tree_searched_iff bootedTree_searchable hpath (directory_of_any (by decide +kernel))
    (str "d")
  have hshort : ∀ names m, Forest.Denotes Attr.name bootedTree.nodes 1 names m →
      IsDirectory bootedTree.nodes m → (pathTo (str "/bin") names).length < 256 := by
    intro names m h _
    rcases names_below_bin h with rfl | rfl <;> decide
  exact ⟨hboth.1.mpr (harmless_of_short hshort), hboth.2.mpr (harmless_of_short hshort)⟩

def deepName : Bytes := List.replicate 252 97

def deepCalls : List VfsCall :=
  [.mkdir (slash :: deepName), .mkdir (slash :: (deepName ++ str "/b"))]

def deepTree : VfsState :=
  ran (fun s c => namingCall c && addsNoNamesake s c) (openHost []) deepCalls

theorem deepTree_searchable : Searchable deepTree :=
  searchable_of_naming (reachableBy_ran (fun s c => namingCall c && addsNoNamesake s c) (openHost [])
    deepCalls (by decide +kernel) (by decide +kernel)) (by decide +kernel) (by decide +kernel)

theorem deep_search_endless :
    ¬ ∀ (s : VfsState) (d : Bytes) (n : Nat) (pattern : Bytes), Searchable s → IsPathOf s d n →
      IsDirectory s.nodes n → FindsEach s d n pattern ∧ PrintsEach s d n := by
  intro hall
  have hs := deepTree_searchable
  have hpath : IsPathOf deepTree [slash] 0 := hs.distinct.walk_iff.mp (by decide +kernel)
  have hroot : IsDirectory deepTree.nodes 0 := directory_of_any (by decide +kernel)
  obtain ⟨fuel, es, hrun, _⟩ := (hall deepTree [slash] 0 [] hs hpath hroot).2
  have hvisit := Except.ok.inj ((visitDirectory_start hs [slash] fuel).symm.trans hrun)
  have hdir : IsDirectory deepTree.nodes 8 := directory_of_any (by decide +kernel)
  have hcalled : Called deepTree [slash] 0 [deepName, str "b"] 8 := by
    refine ⟨hs.distinct.walk_iff.mp (by decide +kernel), hdir, fun {front name} heq => ?_⟩
    have hsplit : [deepName] ++ [str "b"] = front ++ [name] := heq
    rw [← (List.append_inj' hsplit rfl).1]
    decide +kernel
  exact quiet_of_returns hs hpath hvisit _ 8 7 8 hcalled (by decide +kernel) (by decide +kernel)
    (by decide +kernel) hdir

end Concrete

end ZoraVM.Shell

import ZoraVM.Vfs.Sync

namespace ZoraVM.Vfs

open Foundation Location

def below (l : Location) (rest : List Bytes) : Location := ⟨l.rooted, rest.reverse ++ l.parts⟩

def Host.entryBelow (h : Host) (hostPath : Bytes) (rest : List Bytes) : Option HostEntry :=
  h.entry (below (resolve hostPath) rest)

structure PlainName (name : Bytes) : Prop where
  short : name.length < 256
  nonempty : name ≠ []
  notDot : isDotName name = false
  whole : ∀ c ∈ name, isSeparator c = false

-- A tree at a host path whose entries can be named, listed and read, and were written after 1970.
structure HostTree (h : Host) (writeTime : Location → BitVec 64) (hostPath : Bytes) : Prop where
  named : hostPath ≠ []
  keys : (h.entries.map Prod.fst).Nodup
  root : (resolve hostPath).parts = [] ∨ h.entry (resolve hostPath) = some .directory
  room : hostPath.length + 2 < maxPath
  plain : ∀ rest e, h.entryBelow hostPath rest = some e → ∀ name ∈ rest, PlainName name
  parents : ∀ rest name e, h.entryBelow hostPath (rest ++ [name]) = some e →
    rest = [] ∨ h.entryBelow hostPath rest = some .directory
  directories : ∀ rest, h.entryBelow hostPath rest = some .directory →
    hostPath.length + extent rest + 2 < maxPath
  files : ∀ rest content, h.entryBelow hostPath rest = some (.file content) →
    hostPath.length + extent rest < maxPath ∧
      h.mayRead (below (resolve hostPath) rest) = true ∧
      116444736010000000 ≤ (writeTime (below (resolve hostPath) rest)).toNat

section Names

variable {name hostPath : Bytes}

theorem pieces_plain (h : PlainName name) : pieces name = [name] := by
  have hsame : unify name = name := by
    unfold unify
    conv_rhs => rw [← List.map_id name]
    refine List.map_congr_left fun c hc => ?_
    have hsep := h.whole c hc
    have hne : c ≠ slash := by
      rintro rfl
      cases hsep
    rw [if_neg hne]
    rfl
  have hnone : backslash ∉ name := by
    intro hin
    have hsep := h.whole backslash hin
    cases hsep
  rw [pieces, hsame, List.splitOn_eq_singleton hnone]

theorem resolve_entry (h : PlainName name) (hne : hostPath ≠ []) :
    resolve (hostPath ++ backslash :: name) = (resolve hostPath).child name := by
  have hdots : name ≠ dot ∧ name ≠ dotDot := by
    have hdot := h.notDot
    simp only [isDotName, Bool.or_eq_false_iff, beq_eq_false_iff_ne] at hdot
    exact hdot
  have hskip : ¬ (name = [] ∨ name = dot) := by
    rintro (hnil | hdot)
    · exact h.nonempty hnil
    · exact hdots.1 hdot
  rw [resolve_append _ _ hne, pieces_plain h, List.foldl_cons, List.foldl_nil, enter, if_neg hskip,
    if_neg hdots.2]
  rfl

theorem plain_star : PlainName [42] := ⟨by decide, by decide, by decide, by decide +kernel⟩

theorem below_child (l : Location) (name : Bytes) (rest : List Bytes) :
    below (l.child name) rest = below l (name :: rest) := by
  simp [below, child]

theorem clip_name (h : PlainName name) : clip 256 name = name := clip_of_length_lt h.short

theorem pos_timeOfFileTime {t : BitVec 64} (h : 116444736010000000 ≤ t.toNat) :
    0 < timeOfFileTime t := by
  have hlt := t.isLt
  have hepoch : (116444736000000000 : BitVec 64).toNat = 116444736000000000 := rfl
  have htick : (10000000 : BitVec 64).toNat = 10000000 := rfl
  rw [timeOfFileTime, BitVec.toNat_udiv, BitVec.toNat_sub, hepoch, htick]
  omega

end Names

section Listing

variable {h : Host} {writeTime : Location → BitVec 64} {hostPath name : Bytes} {l : Location}
  {e : HostEntry} {content : Bytes}

theorem entry_iff_mem (hkeys : (h.entries.map Prod.fst).Nodup) :
    h.entry l = some e ↔ (l, e) ∈ h.entries := by
  rw [Host.entry, List.lookup_eq_some_iff]
  constructor
  · rintro ⟨before, after, heq, _⟩
    rw [heq]
    exact List.mem_append_right _ List.mem_cons_self
  · intro hmem
    obtain ⟨before, after, heq⟩ := List.append_of_mem hmem
    refine ⟨before, after, heq, fun x hx => ?_⟩
    rw [heq, List.map_append, List.map_cons] at hkeys
    have hne := (List.nodup_append.mp hkeys).2.2 x.1 (List.mem_map_of_mem hx) l List.mem_cons_self
    exact bne_iff_ne.mpr hne.symm

def listedAt (l : Location) (x : Location × HostEntry) : Option (Bytes × HostEntry) :=
  match x.1.parts with
  | [] => none
  | name :: parts => if x.1.rooted = l.rooted ∧ parts = l.parts then some (name, x.2) else none

theorem listing_eq (h : Host) (l : Location) : h.listing l = h.entries.filterMap (listedAt l) := rfl

theorem listedAt_eq_some {x : Location × HostEntry} {y : Bytes × HostEntry} :
    listedAt l x = some y ↔ x = (l.child y.1, y.2) := by
  obtain ⟨⟨rooted, parts⟩, e⟩ := x
  constructor
  · intro hx
    cases parts with
    | nil => cases hx
    | cons name' parts =>
      dsimp only [listedAt] at hx
      split at hx
      · next hsame =>
        obtain rfl := Option.some.inj hx
        obtain ⟨rfl, rfl⟩ := hsame
        rfl
      · cases hx
  · intro hx
    obtain ⟨hl, rfl⟩ := Prod.mk.inj hx
    rw [hl]
    exact if_pos ⟨rfl, rfl⟩

theorem mem_listing (hkeys : (h.entries.map Prod.fst).Nodup) :
    (name, e) ∈ h.listing l ↔ h.entry (l.child name) = some e := by
  rw [entry_iff_mem hkeys, listing_eq, List.mem_filterMap]
  constructor
  · rintro ⟨x, hmem, hx⟩
    rw [← listedAt_eq_some.mp hx]
    exact hmem
  · intro hmem
    exact ⟨_, hmem, listedAt_eq_some.mpr rfl⟩

theorem nodup_listing (hkeys : (h.entries.map Prod.fst).Nodup) (l : Location) :
    ((h.listing l).map Prod.fst).Nodup := by
  rw [listing_eq]
  generalize h.entries = entries at hkeys
  induction entries with
  | nil => exact List.nodup_nil
  | cons x entries ih =>
    obtain ⟨hnotin, hrest⟩ := List.nodup_cons.mp hkeys
    rw [List.filterMap_cons]
    split
    · exact ih hrest
    · next y hy =>
      refine List.nodup_cons.mpr ⟨fun hin => hnotin ?_, ih hrest⟩
      obtain ⟨z, hz, hname⟩ := List.mem_map.mp hin
      obtain ⟨w, hw, hwz⟩ := List.mem_filterMap.mp hz
      have hsame : w.1 = x.1 := by
        rw [listedAt_eq_some.mp hy, listedAt_eq_some.mp hwz, hname]
      rw [← hsame]
      exact List.mem_map_of_mem hw

end Listing

namespace HostTree

variable {h : Host} {writeTime : Location → BitVec 64} {hostPath name : Bytes} {rest : List Bytes}
  {e : HostEntry} {content : Bytes}

theorem plain_single (ht : HostTree h writeTime hostPath)
    (he : h.entryBelow hostPath [name] = some e) : PlainName name :=
  ht.plain [name] e he name List.mem_cons_self

theorem entryPath_eq (ht : HostTree h writeTime hostPath)
    (he : h.entryBelow hostPath [name] = some e) :
    entryPath hostPath name = hostPath ++ backslash :: name := by
  refine clip_of_length_lt ?_
  rw [List.length_append, List.length_cons]
  cases e with
  | directory =>
    have hfits := ht.directories [name] he
    simp only [extent_cons, extent_nil] at hfits
    omega
  | file content =>
    have hfits := (ht.files [name] content he).1
    simp only [extent_cons, extent_nil] at hfits
    omega

theorem resolve_entryPath (ht : HostTree h writeTime hostPath)
    (he : h.entryBelow hostPath [name] = some e) :
    resolve (entryPath hostPath name) = (resolve hostPath).child name := by
  rw [ht.entryPath_eq he, resolve_entry (ht.plain_single he) ht.named]

theorem entryBelow_child (ht : HostTree h writeTime hostPath)
    (he : h.entryBelow hostPath [name] = some e) (rest : List Bytes) :
    h.entryBelow (entryPath hostPath name) rest = h.entryBelow hostPath (name :: rest) := by
  rw [Host.entryBelow, ht.resolve_entryPath he, below_child]
  rfl

theorem child (ht : HostTree h writeTime hostPath)
    (he : h.entryBelow hostPath [name] = some .directory) :
    HostTree h writeTime (entryPath hostPath name) := by
  have hresolve := ht.resolve_entryPath he
  have hbelow := ht.entryBelow_child he
  have hlength : (entryPath hostPath name).length = hostPath.length + (name.length + 1) := by
    rw [ht.entryPath_eq he, List.length_append, List.length_cons]
  have hroom := ht.directories [name] he
  simp only [extent_cons, extent_nil] at hroom
  refine ⟨?_, ht.keys, .inr ?_, by omega, fun rest e hin => ?_, fun rest k e hin => ?_,
    fun rest hin => ?_, fun rest content hin => ?_⟩
  · intro hnil
    rw [hnil, List.length_nil] at hlength
    omega
  · rw [hresolve]
    exact he
  · rw [hbelow] at hin
    exact fun k hk => ht.plain _ e hin k (List.mem_cons_of_mem name hk)
  · rw [hbelow] at hin ⊢
    exact .inr ((ht.parents (name :: rest) k e hin).resolve_left (List.cons_ne_nil _ _))
  · rw [hbelow] at hin
    have hfits := ht.directories _ hin
    rw [extent_cons] at hfits
    omega
  · rw [hbelow] at hin
    obtain ⟨hfits, hread, htime⟩ := ht.files _ content hin
    rw [extent_cons] at hfits
    rw [hresolve, below_child]
    exact ⟨by omega, hread, htime⟩

theorem clip_search (ht : HostTree h writeTime hostPath) :
    resolve (clip maxPath (hostPath ++ [backslash, 42])) = (resolve hostPath).child [42] := by
  rw [clip_of_length_lt, resolve_entry plain_star ht.named]
  rw [List.length_append]
  exact ht.room

theorem searchable (ht : HostTree h writeTime hostPath) :
    h.searchable (clip maxPath (hostPath ++ [backslash, 42])) = true := by
  rw [Host.searchable, ht.clip_search]
  have hroot := ht.root
  simpa [Location.child] using hroot

theorem find_search (ht : HostTree h writeTime hostPath) :
    h.find (clip maxPath (hostPath ++ [backslash, 42])) = h.listing (resolve hostPath) := by
  rw [Host.find, ht.clip_search]
  rfl

theorem mem_searchAll (ht : HostTree h writeTime hostPath) :
    (name, e) ∈ searchAll h hostPath ↔ h.entryBelow hostPath [name] = some e := by
  rw [searchAll, ht.find_search, List.mem_filter, mem_listing ht.keys]
  refine and_iff_left_of_imp fun he => ?_
  rw [(ht.plain_single he).notDot]
  rfl

theorem nodup_searchAll (ht : HostTree h writeTime hostPath) :
    ((searchAll h hostPath).map Prod.fst).Nodup := by
  rw [searchAll, ht.find_search]
  exact (nodup_listing ht.keys _).sublist (List.filter_sublist.map _)

theorem openRead (ht : HostTree h writeTime hostPath)
    (he : h.entryBelow hostPath [name] = some (.file content)) :
    h.openRead (entryPath hostPath name) = some content := by
  obtain ⟨_, hread, _⟩ := ht.files [name] content he
  have hfile : h.entry ((resolve hostPath).child name) = some (.file content) := he
  have hmay : h.mayRead ((resolve hostPath).child name) = true := hread
  rw [Host.openRead, ht.resolve_entryPath he, hmay, if_pos rfl, Host.fileAt, hfile]

theorem newer (ht : HostTree h writeTime hostPath)
    (he : h.entryBelow hostPath [name] = some (.file content)) :
    0 < timeOfFileTime (writeTime (resolve (entryPath hostPath name))) := by
  obtain ⟨_, _, htime⟩ := ht.files [name] content he
  rw [ht.resolve_entryPath he]
  exact pos_timeOfFileTime htime

theorem nothing_below (ht : HostTree h writeTime hostPath)
    (hnot : h.entryBelow hostPath [name] ≠ some .directory) (hne : rest ≠ []) :
    h.entryBelow hostPath (name :: rest) = none := by
  induction rest using List.reverseRecOn with
  | nil => exact absurd rfl hne
  | append_singleton rest k ih =>
    by_contra hsome
    obtain ⟨e, he⟩ := Option.ne_none_iff_exists'.mp hsome
    rcases ht.parents (name :: rest) k e he with hnil | hparent
    · cases hnil
    · cases rest with
      | nil => exact hnot hparent
      | cons k' rest =>
        rw [ih (List.cons_ne_nil _ _)] at hparent
        cases hparent

end HostTree

end ZoraVM.Vfs

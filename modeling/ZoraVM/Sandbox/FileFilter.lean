import ZoraVM.Foundation.Location
import ZoraVM.Foundation.Strtok

namespace ZoraVM.Sandbox

open Foundation

section Model

-- strstr(path, prefix) == path holds of the paths that begin with it.
def isPathAllowed (path : Bytes) : Bool :=
  (str "..\\ZoraPerl\\").isPrefixOf path || (str "../ZoraPerl/").isPrefixOf path ||
    occurs (str "\\persistent\\") path || occurs (str "/persistent/") path ||
    occurs (str "zora_vm") path

inductive FileAccess where
  | blocked (operation path : Bytes)
  | fopen (filename mode : Bytes)
  deriving DecidableEq, Repr

def safeFopen (filename mode : Bytes) : FileAccess :=
  if isPathAllowed filename then .fopen filename mode else .blocked (str "fopen") filename

end Model

section Policy

-- ../ZoraPerl itself, and any directory called persistent or zora_vm.
def isHome (l : Location) : Bool :=
  (!l.rooted && l.parts == [str "ZoraPerl", dotDot]) ||
    l.parts.head?.any fun name => name == str "persistent" || name == str "zora_vm"

def Confined (l : Location) : Prop := ∃ outer ∈ l.parts.tail.tails, isHome ⟨l.rooted, outer⟩ = true

instance (l : Location) : Decidable (Confined l) := List.decidableBEx _ _

structure Refused (path : Bytes) : Prop where
  zoraPerl : ∀ rest, path ≠ str "..\\ZoraPerl\\" ++ rest ∧ path ≠ str "../ZoraPerl/" ++ rest
  persistent : ∀ front rest, path ≠ front ++ (str "\\persistent\\" ++ rest) ∧
    path ≠ front ++ (str "/persistent/" ++ rest)
  zoraVm : ∀ front rest, path ≠ front ++ (str "zora_vm" ++ rest)

inductive FoundHome (path : Bytes) : Prop
  | zoraPerl (rest : Bytes) (c : UInt8) (separates : Location.isSeparator c = true)
      (found : path = dotDot ++ c :: (str "ZoraPerl" ++ c :: rest))
      (below : Location.StaysBelow (Location.pieces rest))
  | persistent (front rest : Bytes) (c : UInt8) (separates : Location.isSeparator c = true)
      (found : path = front ++ c :: (str "persistent" ++ c :: rest))
      (below : Location.StaysBelow (Location.pieces rest))
  | zoraVm (front rest : Bytes) (c : UInt8) (separates : Location.isSeparator c = true)
      (found : path = front ++ (str "zora_vm" ++ c :: rest))
      (whole : ∀ b ∈ front.getLast?, Location.isSeparator b = true)
      (below : Location.StaysBelow (Location.pieces rest))

inductive MissedHome (path : Bytes) : Prop
  | zoraPerlMixed (rest : Bytes) (c d : UInt8) (mixed : c ≠ d)
      (separates : Location.isSeparator c = true ∧ Location.isSeparator d = true)
      (found : path = dotDot ++ c :: (str "ZoraPerl" ++ d :: rest))
      (below : Location.StaysBelow (Location.pieces rest))
  | zoraPerlLater (before after : List Bytes) (later : before ≠ [dotDot])
      (found : Location.pieces path = before ++ str "ZoraPerl" :: after)
      (leads : (Location.resolve path).rooted = false ∧
        before.foldl (Location.enter false) [] = [dotDot])
      (below : Location.StaysBelow after)
  | persistentMixed (front rest : Bytes) (c d : UInt8) (mixed : c ≠ d)
      (separates : Location.isSeparator c = true ∧ Location.isSeparator d = true)
      (found : path = front ++ c :: (str "persistent" ++ d :: rest))
      (below : Location.StaysBelow (Location.pieces rest))
  | persistentFirst (rest : Bytes) (c : UInt8) (separates : Location.isSeparator c = true)
      (found : path = str "persistent" ++ c :: rest)
      (below : Location.StaysBelow (Location.pieces rest))

end Policy

section Filter

variable {path mode : Bytes} {l : Location} {outer : List Bytes}

def HomeAt (rooted : Bool) (before : List Bytes) (name : Bytes) : Prop :=
  name = str "persistent" ∨ name = str "zora_vm" ∨
    name = str "ZoraPerl" ∧ rooted = false ∧ before.foldl (Location.enter false) [] = [dotDot]

theorem isHome_iff (rooted : Bool) (parts : List Bytes) : isHome ⟨rooted, parts⟩ = true ↔
    ∃ name outer, parts = name :: outer ∧ (name = str "persistent" ∨ name = str "zora_vm" ∨
      name = str "ZoraPerl" ∧ rooted = false ∧ outer = [dotDot]) := by
  cases parts with
  | nil => simp [isHome]
  | cons name outer =>
    simp only [isHome, List.head?_cons, Option.any_some, Bool.or_eq_true, Bool.and_eq_true,
      beq_iff_eq, Bool.not_eq_true', List.cons.injEq]
    constructor
    · rintro (⟨hrooted, rfl, rfl⟩ | hname | hname)
      · exact ⟨_, _, ⟨rfl, rfl⟩, .inr (.inr ⟨rfl, hrooted, rfl⟩)⟩
      · exact ⟨_, _, ⟨rfl, rfl⟩, .inl hname⟩
      · exact ⟨_, _, ⟨rfl, rfl⟩, .inr (.inl hname)⟩
    · rintro ⟨_, _, ⟨rfl, rfl⟩, hname | hname | ⟨hname, hrooted, houter⟩⟩
      · exact .inr (.inl hname)
      · exact .inr (.inr hname)
      · exact .inl ⟨hrooted, hname, houter⟩

theorem confined_iff : Confined l ↔
    ∃ inner outer, inner ≠ [] ∧ l.parts = inner ++ outer ∧ isHome ⟨l.rooted, outer⟩ = true := by
  constructor
  · rintro ⟨outer, hmem, hhome⟩
    obtain ⟨inner, htail⟩ := (List.mem_tails outer l.parts.tail).mp hmem
    obtain ⟨top, rest, rfl, -⟩ := (isHome_iff _ _).mp hhome
    cases hparts : l.parts with
    | nil => simp [hparts] at htail
    | cons first parts =>
      refine ⟨first :: inner, _, List.cons_ne_nil first inner, ?_, hhome⟩
      rw [List.cons_append, htail, hparts, List.tail_cons]
  · rintro ⟨inner, outer, hinner, hparts, hhome⟩
    refine ⟨outer, (List.mem_tails outer l.parts.tail).mpr ⟨inner.tail, ?_⟩, hhome⟩
    rw [hparts, List.tail_append_of_ne_nil hinner]

theorem resolve_parts (path : Bytes) : (Location.resolve path).parts =
    (Location.pieces path).foldl (Location.enter (Location.resolve path).rooted) [] := rfl

theorem HomeAt.plain {rooted : Bool} {before : List Bytes} {name : Bytes}
    (h : HomeAt rooted before name) : (name ≠ [] ∧ name ≠ dot) ∧ name ≠ dotDot ∧
      Location.isDrive name = false := by
  rcases h with rfl | rfl | ⟨rfl, -⟩ <;> decide +kernel

theorem confined_resolve_iff : Confined (Location.resolve path) ↔
    ∃ before name after, Location.pieces path = before ++ name :: after ∧
      HomeAt (Location.resolve path).rooted before name ∧ Location.StaysBelow after := by
  rw [confined_iff]
  constructor
  · rintro ⟨inner, outer, hinner, hparts, hhome⟩
    obtain ⟨name, outer, rfl, hname⟩ := (isHome_iff _ _).mp hhome
    have hplain : name ≠ dotDot ∧ Location.isDrive name = false := by
      rcases hname with rfl | rfl | ⟨rfl, -⟩ <;> decide +kernel
    have hstart : Location.Settled [] := trivial
    obtain ⟨before, after, hpieces, hbefore, hafter⟩ :=
      Location.entered_of_foldl hstart hplain.1 hplain.2 (Nat.zero_le _)
        ((resolve_parts path).symm.trans hparts)
    refine ⟨before, name, after, hpieces, ?_, inner.length - 1, ?_⟩
    · rcases hname with hname | hname | ⟨hname, hrooted, houter⟩
      · exact .inl hname
      · exact .inr (.inl hname)
      · rw [hrooted, houter] at hbefore
        exact .inr (.inr ⟨hname, hrooted, hbefore⟩)
    · rw [hafter, Nat.sub_add_cancel (List.length_pos_iff.mpr hinner)]
  · rintro ⟨before, name, after, hpieces, hhome, d, hdepth⟩
    obtain ⟨hcounts, hup, -⟩ := hhome.plain
    generalize hrooted : (Location.resolve path).rooted = rooted at hhome
    generalize houter : before.foldl (Location.enter rooted) [] = outer
    have hbelow : ∃ inner, after.foldl (Location.enter rooted) (name :: outer) =
        inner ++ name :: outer ∧ inner.length = d + 1 :=
      Location.foldl_of_depth (List.cons_ne_nil name outer) List.not_mem_nil hdepth
    obtain ⟨inner, hinner, hlength⟩ := hbelow
    have hpush : Location.enter rooted outer name = name :: outer := by
      rw [Location.enter, if_neg (by simpa using hcounts), if_neg hup]
    refine ⟨inner, name :: outer, List.length_pos_iff.mp (by omega), ?_, ?_⟩
    · rw [resolve_parts, hpieces, hrooted, List.foldl_append, List.foldl_cons, houter, hpush, hinner]
    · rw [isHome_iff]
      refine ⟨name, outer, rfl, ?_⟩
      rcases hhome with hname | hname | ⟨hname, hnot, hleads⟩
      · exact .inl hname
      · exact .inr (.inl hname)
      · rw [hnot, hleads] at houter
        exact .inr (.inr ⟨hname, hnot, houter.symm⟩)

end Filter

section Finding

variable {path mode front rest name : Bytes} {c d : UInt8} {before after : List Bytes}

theorem pieces_whole (hname : Location.pieces name = [name]) (hd : Location.isSeparator d = true)
    (rest : Bytes) : Location.pieces (name ++ d :: rest) = name :: Location.pieces rest := by
  rw [Location.pieces_separated hd, hname, List.singleton_append]

theorem pieces_between (hname : Location.pieces name = [name]) (hc : Location.isSeparator c = true)
    (hd : Location.isSeparator d = true) (front rest : Bytes) :
    Location.pieces (front ++ c :: (name ++ d :: rest)) =
      Location.pieces front ++ name :: Location.pieces rest := by
  rw [Location.pieces_separated hc, pieces_whole hname hd]

theorem ne_nil_of_below (h : Location.StaysBelow after) : after ≠ [] := by
  rintro rfl
  obtain ⟨d, hd⟩ := h
  cases hd

theorem found_of_pieces (hafter : after ≠ []) (h : Location.pieces path = before ++ name :: after) :
    ∃ d rest, Location.isSeparator d = true ∧ Location.pieces rest = after ∧
      ((before = [] ∧ path = name ++ d :: rest) ∨ ∃ front c, Location.isSeparator c = true ∧
        Location.pieces front = before ∧ path = front ++ c :: (name ++ d :: rest)) := by
  rw [List.append_cons] at h
  obtain ⟨lead, d, rest, rfl, hd, hlead, hrest⟩ :=
    Location.split_of_pieces (List.append_ne_nil_of_right_ne_nil before (List.cons_ne_nil name [])) hafter h
  refine ⟨d, rest, hd, hrest, ?_⟩
  by_cases hbefore : before = []
  · rw [hbefore, List.nil_append] at hlead
    exact .inl ⟨hbefore, by rw [Location.eq_of_pieces hlead]⟩
  · obtain ⟨front, c, last, rfl, hc, hfront, hlast⟩ :=
      Location.split_of_pieces hbefore (List.cons_ne_nil name []) hlead
    refine .inr ⟨front, c, hc, hfront, ?_⟩
    rw [Location.eq_of_pieces hlast, List.append_assoc, List.cons_append]

theorem names_whole : Location.pieces (str "persistent") = [str "persistent"] ∧
    Location.pieces (str "zora_vm") = [str "zora_vm"] ∧
    Location.pieces (str "ZoraPerl") = [str "ZoraPerl"] ∧ Location.pieces dotDot = [dotDot] := by
  decide +kernel

end Finding

section Decision

variable {path mode : Bytes}

theorem refused_iff : isPathAllowed path = false ↔ Refused path := by
  have hprefix : ∀ needle : Bytes, needle.isPrefixOf path = false ↔ ∀ rest, path ≠ needle ++ rest := by
    intro needle
    rw [← Bool.not_eq_true, List.isPrefixOf_iff_prefix]
    exact ⟨fun h rest hrest => h ⟨rest, hrest.symm⟩, fun h ⟨rest, hrest⟩ => h rest hrest.symm⟩
  have hsub : ∀ needle : Bytes, occurs needle path = false ↔
      ∀ front rest, path ≠ front ++ (needle ++ rest) := by
    intro needle
    rw [← Bool.not_eq_true, occurs_iff]
    constructor
    · exact fun h front rest hrest => h ⟨front, rest, by rw [hrest, List.append_assoc]⟩
    · exact fun h ⟨front, rest, hrest⟩ => h front rest (by rw [← hrest, List.append_assoc])
  simp only [isPathAllowed, Bool.or_eq_false_iff, hprefix, hsub]
  constructor
  · rintro ⟨⟨⟨⟨hback, hslash⟩, hback'⟩, hslash'⟩, hname⟩
    exact ⟨fun rest => ⟨hback rest, hslash rest⟩,
      fun front rest => ⟨hback' front rest, hslash' front rest⟩, hname⟩
  · rintro ⟨hperl, hpersistent, hname⟩
    exact ⟨⟨⟨⟨fun rest => (hperl rest).1, fun rest => (hperl rest).2⟩,
      fun front rest => (hpersistent front rest).1⟩, fun front rest => (hpersistent front rest).2⟩, hname⟩

theorem FoundHome.confined (h : FoundHome path) : Confined (Location.resolve path) := by
  obtain ⟨hpersistent, hvm, hperl, hup⟩ := names_whole
  rw [confined_resolve_iff]
  cases h with
  | zoraPerl rest c hc hfound hbelow =>
    refine ⟨[dotDot], _, _, ?_, .inr (.inr ⟨rfl, ?_, rfl⟩), hbelow⟩
    · rw [hfound, pieces_between hperl hc hc, hup]
    · rw [hfound]
      rfl
  | persistent front rest c hc hfound hbelow =>
    exact ⟨_, _, _, by rw [hfound, pieces_between hpersistent hc hc], .inl rfl, hbelow⟩
  | zoraVm front rest c hc hfound hwhole hbelow =>
    rcases List.eq_nil_or_concat' front with rfl | ⟨front, b, rfl⟩
    · exact ⟨[], _, _, by rw [hfound, List.nil_append, pieces_whole hvm hc]; rfl, .inr (.inl rfl), hbelow⟩
    · have hb : Location.isSeparator b = true := hwhole b (by simp)
      refine ⟨Location.pieces front, _, _, ?_, .inr (.inl rfl), hbelow⟩
      rw [hfound, List.append_assoc, List.singleton_append, pieces_between hvm hb hc]

theorem MissedHome.confined (h : MissedHome path) : Confined (Location.resolve path) := by
  obtain ⟨hpersistent, -, hperl, hup⟩ := names_whole
  rw [confined_resolve_iff]
  cases h with
  | zoraPerlMixed rest c d _ hsep hfound hbelow =>
    refine ⟨[dotDot], _, _, ?_, .inr (.inr ⟨rfl, ?_, rfl⟩), hbelow⟩
    · rw [hfound, pieces_between hperl hsep.1 hsep.2, hup]
    · rw [hfound]
      rfl
  | zoraPerlLater before after _ hfound hleads hbelow =>
    exact ⟨before, _, after, hfound, .inr (.inr ⟨rfl, hleads⟩), hbelow⟩
  | persistentMixed front rest c d _ hsep hfound hbelow =>
    exact ⟨_, _, _, by rw [hfound, pieces_between hpersistent hsep.1 hsep.2], .inl rfl, hbelow⟩
  | persistentFirst rest c hc hfound hbelow =>
    exact ⟨[], _, _, by rw [hfound, pieces_whole hpersistent hc]; rfl, .inl rfl, hbelow⟩

theorem found_or_missed (h : Confined (Location.resolve path)) : FoundHome path ∨ MissedHome path := by
  obtain ⟨before, name, after, hpieces, hhome, hbelow⟩ := confined_resolve_iff.mp h
  obtain ⟨d, rest, hd, rfl, hplace⟩ := found_of_pieces (ne_nil_of_below hbelow) hpieces
  rcases hhome with rfl | rfl | ⟨rfl, hrooted, hleads⟩
  · rcases hplace with ⟨-, hpath⟩ | ⟨front, c, hc, -, hpath⟩
    · exact .inr (.persistentFirst rest d hd hpath hbelow)
    · by_cases hsame : c = d
      · exact .inl (.persistent front rest c hc (hsame ▸ hpath) hbelow)
      · exact .inr (.persistentMixed front rest c d hsame ⟨hc, hd⟩ hpath hbelow)
  · rcases hplace with ⟨-, hpath⟩ | ⟨front, c, hc, -, hpath⟩
    · exact .inl (.zoraVm [] rest d hd hpath (by simp) hbelow)
    · refine .inl (.zoraVm (front ++ [c]) rest d hd ?_ (by simpa using hc) hbelow)
      rw [hpath, List.append_assoc, List.singleton_append]
  · by_cases hfirst : before = [dotDot]
    · rcases hplace with ⟨hnone, -⟩ | ⟨front, c, hc, hfront, hpath⟩
      · rw [hfirst] at hnone
        cases hnone
      · obtain rfl : front = dotDot := Location.eq_of_pieces (hfront.trans hfirst)
        by_cases hsame : c = d
        · exact .inl (.zoraPerl rest c hc (hsame ▸ hpath) hbelow)
        · exact .inr (.zoraPerlMixed rest c d hsame ⟨hc, hd⟩ hpath hbelow)
    · exact .inr (.zoraPerlLater before _ hfirst hpieces ⟨hrooted, hleads⟩ hbelow)

theorem safe_fopen_confined_iff :
    (safeFopen path mode = .fopen path mode → Confined (Location.resolve path)) ↔
      Refused path ∨ FoundHome path ∨ MissedHome path := by
  rw [← refused_iff, safeFopen]
  cases hallowed : isPathAllowed path with
  | false => simp
  | true =>
    simp only [if_true, forall_const, Bool.true_eq_false, false_or]
    exact ⟨found_or_missed, fun h => h.elim FoundHome.confined MissedHome.confined⟩

theorem climbs_out_of_home :
    ¬ ∀ path mode : Bytes,
      safeFopen path mode = .fopen path mode → Confined (Location.resolve path) := by
  intro hall
  exact absurd (hall (str "../ZoraPerl/../secret.txt") (str "r") (by decide)) (by decide)

end Decision

end ZoraVM.Sandbox

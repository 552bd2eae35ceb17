import ZoraVM.Foundation.CString

namespace ZoraVM.Foundation

def slash : UInt8 := 47
def backslash : UInt8 := 92
def dot : Bytes := [46]
def dotDot : Bytes := [46, 46]

-- Where a path string of a host with drives and two separators leads, read lexically;
-- `parts` has the innermost component first.
structure Location where
  rooted : Bool
  parts : List Bytes
  deriving DecidableEq, Repr

namespace Location

def isSeparator (c : UInt8) : Bool := c == slash || c == backslash

def unify (path : Bytes) : Bytes := path.map fun c => if c = slash then backslash else c

def isDrive (name : Bytes) : Bool := name.getLast? == some 58

def ascend (rooted : Bool) : List Bytes → List Bytes
  | [] => if rooted then [] else [dotDot]
  | top :: rest =>
    if top = dotDot then dotDot :: top :: rest
    else if rest.isEmpty && isDrive top then [top]
    else rest

def enter (rooted : Bool) (parts : List Bytes) (name : Bytes) : List Bytes :=
  if name = [] ∨ name = dot then parts
  else if name = dotDot then ascend rooted parts
  else name :: parts

def resolve (path : Bytes) : Location :=
  let rooted := (path.head?.map isSeparator).getD false
  ⟨rooted, ((unify path).splitOn backslash).foldl (enter rooted) []⟩

def child (l : Location) (name : Bytes) : Location := ⟨l.rooted, name :: l.parts⟩

def StrictlyInside (root l : Location) : Prop :=
  l.rooted = root.rooted ∧
    ∃ inner, inner ≠ [] ∧ dotDot ∉ inner ∧ l.parts = inner ++ root.parts

def pieces (path : Bytes) : List Bytes := (unify path).splitOn backslash

def counts (part : Bytes) : Bool := part != [] && part != dot

def NeverAscends (name : Bytes) : Prop := dotDot ∉ pieces name

def Descends (name : Bytes) : Prop := NeverAscends name ∧ (pieces name).filter counts ≠ []

instance (name : Bytes) : Decidable (NeverAscends name) := inferInstanceAs (Decidable (_ ∉ _))

instance (name : Bytes) : Decidable (Descends name) := inferInstanceAs (Decidable (_ ∧ _))

def joined : List Bytes → Bytes
  | [] => []
  | [name] => name
  | name :: names => name ++ backslash :: joined names

variable {root name part : Bytes} {names : List Bytes}

theorem pieces_cons (c : UInt8) (path : Bytes) :
    pieces (c :: path) =
      if isSeparator c then [] :: pieces path else (pieces path).modifyHead (c :: ·) := by
  rw [pieces, pieces, unify, unify, List.map_cons, List.splitOn_cons_eq_if_modifyHead]
  by_cases hslash : c = slash
  · simp [hslash, isSeparator]
  · by_cases hback : c = backslash <;> simp [hslash, hback, isSeparator]

theorem pieces_ne_nil (path : Bytes) : pieces path ≠ [] := List.splitOn_ne_nil _ _

theorem pieces_separated {c : UInt8} (hc : isSeparator c = true) (a b : Bytes) :
    pieces (a ++ c :: b) = pieces a ++ pieces b := by
  induction a with
  | nil => rw [List.nil_append, pieces_cons, if_pos hc]; rfl
  | cons first a ih =>
    obtain ⟨top, rest, htop⟩ := List.exists_cons_of_ne_nil (pieces_ne_nil a)
    rw [List.cons_append, pieces_cons, pieces_cons, ih, htop]
    split <;> rfl

theorem pieces_append (a b : Bytes) : pieces (a ++ backslash :: b) = pieces a ++ pieces b :=
  pieces_separated rfl a b

theorem eq_of_pieces (h : pieces name = [part]) : name = part := by
  induction name generalizing part with
  | nil => exact List.singleton_inj.mp h
  | cons c name ih =>
    rw [pieces_cons] at h
    split at h
    · exact absurd (List.cons.inj h).2 (pieces_ne_nil name)
    · obtain ⟨top, rest, htop⟩ := List.exists_cons_of_ne_nil (pieces_ne_nil name)
      rw [htop, List.modifyHead_cons] at h
      obtain ⟨rfl, rfl⟩ := List.cons.inj h
      rw [ih htop]

theorem split_of_pieces {path : Bytes} {before after : List Bytes} (hbefore : before ≠ [])
    (hafter : after ≠ []) (h : pieces path = before ++ after) :
    ∃ a c b, path = a ++ c :: b ∧ isSeparator c = true ∧ pieces a = before ∧ pieces b = after := by
  obtain ⟨top, before, rfl⟩ := List.exists_cons_of_ne_nil hbefore
  induction path generalizing top before with
  | nil =>
    have hnone := List.append_eq_nil_iff.mp (List.cons.inj h).2.symm
    exact absurd hnone.2 hafter
  | cons c path ih =>
    rw [pieces_cons] at h
    split at h
    · next hc =>
      obtain ⟨rfl, hrest⟩ := List.cons.inj h
      cases before with
      | nil => exact ⟨[], c, path, rfl, hc, rfl, hrest⟩
      | cons next before =>
        obtain ⟨a, d, b, rfl, hd, ha, hb⟩ := ih next before (List.cons_ne_nil next before) hrest
        exact ⟨c :: a, d, b, rfl, hd, by rw [pieces_cons, if_pos hc, ha], hb⟩
    · next hc =>
      obtain ⟨first, rest, hfirst⟩ := List.exists_cons_of_ne_nil (pieces_ne_nil path)
      rw [hfirst, List.modifyHead_cons] at h
      obtain ⟨rfl, rfl⟩ := List.cons.inj h
      obtain ⟨a, d, b, rfl, hd, ha, hb⟩ := ih first before (List.cons_ne_nil first before) hfirst
      exact ⟨c :: a, d, b, rfl, hd, by rw [pieces_cons, if_neg hc, ha]; rfl, hb⟩

theorem pieces_joined (hne : names ≠ []) : pieces (joined names) = names.flatMap pieces := by
  induction names with
  | nil => exact absurd rfl hne
  | cons name names ih =>
    cases names with
    | nil => simp [joined]
    | cons next names =>
      have hrest := ih (by simp)
      rw [joined, pieces_append, hrest]
      · rfl
      · simp

theorem foldl_enter (rooted : Bool) (stack : List Bytes) {ps : List Bytes} (h : dotDot ∉ ps) :
    ps.foldl (enter rooted) stack = (ps.filter counts).reverse ++ stack := by
  induction ps generalizing stack with
  | nil => rfl
  | cons p ps ih =>
    obtain ⟨hp, hps⟩ : dotDot ≠ p ∧ dotDot ∉ ps := by simpa using h
    rw [List.foldl_cons, ih _ hps]
    by_cases hskip : p = [] ∨ p = dot
    · have hcount : counts p = false := by
        rcases hskip with rfl | rfl <;> rfl
      simp [enter, hskip, hcount]
    · have hcount : counts p = true := by
        obtain ⟨hne, hdot⟩ := not_or.mp hskip
        simp [counts, hne, hdot]
      simp [enter, hskip, hp.symm, hcount]

theorem resolve_append (a b : Bytes) (ha : a ≠ []) :
    resolve (a ++ backslash :: b) =
      ⟨(resolve a).rooted, (pieces b).foldl (enter (resolve a).rooted) (resolve a).parts⟩ := by
  cases a with
  | nil => exact absurd rfl ha
  | cons c a =>
    have hsplit := pieces_append (c :: a) b
    simp only [pieces, List.cons_append] at hsplit
    simp only [resolve, List.cons_append, List.head?_cons, hsplit, List.foldl_append, pieces]

theorem strictlyInside_under (hroot : root ≠ []) (hname : Descends name)
    (hnames : ∀ n ∈ names, NeverAscends n) :
    StrictlyInside (resolve root) (resolve (root ++ backslash :: joined (name :: names))) := by
  have hup : dotDot ∉ (name :: names).flatMap pieces := by
    intro hin
    obtain ⟨n, hn, hdd⟩ := List.mem_flatMap.mp hin
    rcases List.mem_cons.mp hn with rfl | hn
    · exact hname.1 hdd
    · exact hnames n hn hdd
  rw [resolve_append _ _ hroot, pieces_joined (List.cons_ne_nil name names), foldl_enter _ _ hup]
  refine ⟨rfl, _, ?_, ?_, rfl⟩
  · intro hnil
    simp only [List.reverse_eq_nil_iff, List.flatMap_cons, List.filter_append,
      List.append_eq_nil_iff] at hnil
    exact hname.2 hnil.1
  · intro hin
    exact hup (List.mem_filter.mp (List.mem_reverse.mp hin)).1

section Depth

def descend (d : Nat) (p : Bytes) : Option Nat :=
  if p = [] ∨ p = dot then some d
  else if p = dotDot then if d = 0 then none else some (d - 1)
  else some (d + 1)

-- How far below its start a walk over the components ends; `none` where it climbs above it.
def depth (d : Nat) (ps : List Bytes) : Option Nat := ps.foldlM descend d

def StaysBelow (ps : List Bytes) : Prop := ∃ d, depth 0 ps = some (d + 1)

def Settled : List Bytes → Prop
  | [] => True
  | top :: rest => (top = dotDot → ∀ u ∈ rest, u = dotDot) ∧ Settled rest

variable {rooted : Bool} {ps inner outer stack : List Bytes} {name : Bytes} {d k : Nat}

theorem depth_concat (d : Nat) (ps : List Bytes) (p : Bytes) :
    depth d (ps ++ [p]) = (depth d ps).bind fun d => descend d p := by
  simp [depth, List.foldlM_append]

theorem settled_enter (h : Settled stack) (name : Bytes) : Settled (enter rooted stack name) := by
  unfold enter
  split
  · exact h
  · split
    · cases stack with
      | nil => cases rooted <;> simp [ascend, Settled]
      | cons top rest =>
        rw [ascend]
        split
        · next htop =>
          refine ⟨fun _ u hu => ?_, h⟩
          rcases List.mem_cons.mp hu with rfl | hu
          · exact htop
          · exact h.1 htop u hu
        · split
          · next htop _ => exact ⟨fun hdd => absurd hdd htop, trivial⟩
          · exact h.2
    · next hname => exact ⟨fun hdd => absurd hdd hname, h⟩

theorem settled_foldl (h : Settled stack) (ps : List Bytes) :
    Settled (ps.foldl (enter rooted) stack) := by
  induction ps generalizing stack with
  | nil => exact h
  | cons p ps ih => exact ih (settled_enter h p)

theorem foldl_of_depth (houter : outer ≠ []) (hinner : dotDot ∉ inner)
    (h : depth inner.length ps = some k) :
    ∃ inner', ps.foldl (enter rooted) (inner ++ outer) = inner' ++ outer ∧ inner'.length = k := by
  induction ps generalizing inner with
  | nil => exact ⟨inner, rfl, Option.some.inj h⟩
  | cons p ps ih =>
    obtain ⟨d, hd, hrest⟩ := Option.bind_eq_some_iff.mp h
    unfold descend at hd
    rw [List.foldl_cons, enter]
    split at hd
    · next hskip =>
      obtain rfl := Option.some.inj hd
      rw [if_pos hskip]
      exact ih hinner hrest
    · next hskip =>
      rw [if_neg hskip]
      split at hd
      · next hup =>
        rw [if_pos hup]
        cases inner with
        | nil => cases hd
        | cons top inner =>
          obtain rfl : inner.length = d := by simpa using hd
          obtain ⟨htop, hinner⟩ : dotDot ≠ top ∧ dotDot ∉ inner := by simpa using hinner
          have hempty : (inner ++ outer).isEmpty = false := by simp [houter]
          rw [List.cons_append, ascend, if_neg htop.symm, hempty, Bool.false_and,
            if_neg Bool.false_ne_true]
          exact ih hinner hrest
      · next hup =>
        obtain rfl := Option.some.inj hd
        rw [if_neg hup]
        have hcons : dotDot ∉ p :: inner := by simpa using ⟨Ne.symm hup, hinner⟩
        exact ih hcons hrest

theorem ascend_eq (hstack : Settled stack) (hname : name ≠ dotDot) (hdrive : isDrive name = false)
    (h : ascend rooted stack = inner ++ name :: outer) :
    ∃ first, stack = (first :: inner) ++ name :: outer := by
  have hin : name ∈ ascend rooted stack := h ▸ List.mem_append_right inner List.mem_cons_self
  cases stack with
  | nil =>
    cases rooted with
    | true => exact absurd hin List.not_mem_nil
    | false => exact absurd (List.mem_singleton.mp hin) hname
  | cons first rest =>
    rw [ascend] at h hin
    split at h
    · next hfirst =>
      rw [if_pos hfirst] at hin
      have hall : ∀ u ∈ dotDot :: first :: rest, u = dotDot := by
        intro u hu
        rcases List.mem_cons.mp hu with rfl | hu
        · rfl
        · rcases List.mem_cons.mp hu with rfl | hu
          · exact hfirst
          · exact hstack.1 hfirst u hu
      exact absurd (hall name hin) hname
    · next hfirst =>
      rw [if_neg hfirst] at hin
      split at h
      · next htop =>
        rw [if_pos htop] at hin
        rw [Bool.and_eq_true, ← List.mem_singleton.mp hin, hdrive] at htop
        exact absurd htop.2 Bool.false_ne_true
      · exact ⟨first, by rw [h, List.cons_append]⟩

theorem entered_of_foldl (hsettled : Settled stack) (hname : name ≠ dotDot)
    (hdrive : isDrive name = false) (hstack : stack.length ≤ outer.length)
    (h : ps.foldl (enter rooted) stack = inner ++ name :: outer) :
    ∃ before after, ps = before ++ name :: after ∧ before.foldl (enter rooted) stack = outer ∧
      depth 0 after = some inner.length := by
  induction ps using List.reverseRecOn generalizing inner with
  | nil =>
    have hlength := congrArg List.length h
    rw [List.foldl_nil, List.length_append, List.length_cons] at hlength
    omega
  | append_singleton ps p ih =>
    rw [List.foldl_append, List.foldl_cons, List.foldl_nil] at h
    have hold : Settled (ps.foldl (enter rooted) stack) := settled_foldl hsettled ps
    generalize hmid : ps.foldl (enter rooted) stack = mid at h hold
    have hgoes : ∀ {inner' : List Bytes}, mid = inner' ++ name :: outer →
        descend inner'.length p = some inner.length →
        ∃ before after, ps ++ [p] = before ++ name :: after ∧
          before.foldl (enter rooted) stack = outer ∧ depth 0 after = some inner.length := by
      intro inner' heq hlast
      obtain ⟨before, after, hps, hbefore, hafter⟩ := ih (hmid.trans heq)
      refine ⟨before, after ++ [p], by rw [hps, List.append_assoc, List.cons_append], hbefore, ?_⟩
      rw [depth_concat, hafter, Option.bind_some, hlast]
    unfold enter at h
    split at h
    · next hskip => exact hgoes h (by rw [descend, if_pos hskip])
    · next hskip =>
      split at h
      · next hup =>
        obtain ⟨first, hfirst⟩ := ascend_eq hold hname hdrive h
        refine hgoes hfirst ?_
        rw [descend, if_neg hskip, if_pos hup]
        rfl
      · next hup =>
        cases inner with
        | nil =>
          obtain ⟨rfl, rfl⟩ := List.cons.inj h
          exact ⟨ps, [], rfl, hmid, rfl⟩
        | cons last inner =>
          obtain ⟨rfl, hmid'⟩ := List.cons_eq_cons.mp h
          refine hgoes hmid' ?_
          rw [descend, if_neg hskip, if_neg hup]
          rfl

end Depth

theorem joined_concat (names : List Bytes) (a b : Bytes) :
    joined (names ++ [a ++ backslash :: b]) = joined (names ++ [a, b]) := by
  induction names with
  | nil => rfl
  | cons name names ih =>
    cases names with
    | nil => simp [joined]
    | cons next names => simpa [joined] using ih

def extent (names : List Bytes) : Nat := (names.map fun name => name.length + 1).sum

@[simp] theorem extent_nil : extent [] = 0 := rfl

@[simp] theorem extent_cons (name : Bytes) (names : List Bytes) :
    extent (name :: names) = name.length + 1 + extent names := by simp [extent]

@[simp] theorem extent_append (names names' : List Bytes) :
    extent (names ++ names') = extent names + extent names' := by simp [extent]

theorem length_joined (h : names ≠ []) : (joined names).length + 1 = extent names := by
  induction names with
  | nil => exact absurd rfl h
  | cons name names ih =>
    cases names with
    | nil => simp [joined]
    | cons next names =>
      have hrest := ih (by simp)
      simp only [joined, List.length_append, List.length_cons, extent_cons] at hrest ⊢
      omega

theorem joined_ne_nil (hne : ∀ n ∈ names, n ≠ []) (h : names ≠ []) : joined names ≠ [] := by
  cases names with
  | nil => exact absurd rfl h
  | cons name names =>
    cases names with
    | nil => simpa [joined] using hne
    | cons next names => simp [joined]

end Location

end ZoraVM.Foundation

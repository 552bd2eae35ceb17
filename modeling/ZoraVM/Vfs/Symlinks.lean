import ZoraVM.Vfs.PathResolution

namespace ZoraVM.Vfs

open Foundation

section Model

variable (s : VfsState)

-- The body of the loop, `levels` more times at most.
def followLink : Nat → Option Nat → Outcome (Option Nat)
  | 0, node => .ok node
  | _ + 1, none => .ok none
  | levels + 1, some n => do
    let a ← nodeAt s n
    if a.isSymlink then
      match a.symlinkTarget with
      | none => .ok (some n)
      | some target =>
        let next ← vfsFindNode s target
        followLink levels next
    else .ok (some n)

def vfsResolveSymlink (node : Option Nat) : Outcome (Option Nat) := followLink s 10 node

end Model

section Definitions

variable (s : VfsState)

def IsSymlink (n : Nat) : Prop := ∃ a, Forest.valAt s.nodes n = some a ∧ a.isSymlink = true

def LinksTo (n m : Nat) : Prop :=
  ∃ a target, Forest.valAt s.nodes n = some a ∧ a.isSymlink = true ∧
    a.symlinkTarget = some target ∧ vfsFindNode s target = .ok (some m)

inductive Chain : Nat → Nat → Nat → Prop
  | here (n : Nat) : Chain n 0 n
  | link {n m k e : Nat} : LinksTo s n m → Chain m k e → Chain n (k + 1) e

def ResolvesToEnd (n : Nat) : Prop :=
  ∃ found, vfsResolveSymlink s (some n) = .ok found ∧
    ∀ m, found = some m ↔ ∃ k, k ≤ 10 ∧ Chain s n k m ∧ ¬ IsSymlink s m

def EndsInTime (n : Nat) : Prop :=
  ∀ k m a, Chain s n k m → Forest.valAt s.nodes m = some a → a.isSymlink = true →
    k < 10 ∧ a.symlinkTarget ≠ none

def Stops (n : Nat) : Prop :=
  ∃ a, Forest.valAt s.nodes n = some a ∧ (a.isSymlink = true → a.symlinkTarget = none)

end Definitions

variable {s : VfsState} {n m x k levels : Nat}

theorem LinksTo.not_stops (h : LinksTo s n m) : ¬ Stops s n := by
  obtain ⟨a, target, ha, hlink, htarget, _⟩ := h
  rintro ⟨b, hb, hstop⟩
  obtain rfl := Option.some.inj (ha.symm.trans hb)
  rw [htarget] at hstop
  exact Option.some_ne_none target (hstop hlink)

theorem LinksTo.unique (h : LinksTo s n m) (h' : LinksTo s n x) : m = x := by
  obtain ⟨a, target, ha, _, htarget, hfind⟩ := h
  obtain ⟨b, target', hb, _, htarget', hfind'⟩ := h'
  obtain rfl := Option.some.inj (ha.symm.trans hb)
  obtain rfl := Option.some.inj (htarget.symm.trans htarget')
  exact Option.some.inj (Except.ok.inj (hfind.symm.trans hfind'))

theorem LinksTo.isSymlink (h : LinksTo s n m) : IsSymlink s n := by
  obtain ⟨a, _, ha, hlink, _⟩ := h
  exact ⟨a, ha, hlink⟩

theorem chain_of_stops (hstop : Stops s n) : Chain s n k m ↔ k = 0 ∧ m = n := by
  constructor
  · rintro (_ | ⟨hlink, _⟩)
    · exact ⟨rfl, rfl⟩
    · exact absurd hstop hlink.not_stops
  · rintro ⟨rfl, rfl⟩
    exact .here m

theorem chain_succ_of_links (hlink : LinksTo s n x) : Chain s n (k + 1) m ↔ Chain s x k m := by
  constructor
  · rintro (_ | ⟨hlink', hrest⟩)
    rwa [hlink.unique hlink']
  · exact .link hlink

theorem Chain.live (htree : Forest.WellFormed s.nodes s.root) (hn : s.nodes.live n = true)
    (h : Chain s n k m) : s.nodes.live m = true := by
  induction h with
  | here => exact hn
  | link hlink _ ih =>
    obtain ⟨_, _, _, _, _, hfind⟩ := hlink
    exact ih (htree.live_walk htree.root_live (vfsFindNode_ok hfind).2)

theorem Chain.symlink_before {j : Nat} (h : Chain s n k m) (hm : IsSymlink s m) (hj : j ≤ k) :
    ∃ e, Chain s n j e ∧ IsSymlink s e := by
  induction h generalizing j with
  | here n =>
    obtain rfl := Nat.le_zero.mp hj
    exact ⟨n, .here n, hm⟩
  | @link n x k m hlink _ ih =>
    cases j with
    | zero => exact ⟨n, .here n, hlink.isSymlink⟩
    | succ j =>
      obtain ⟨e, he, hsym⟩ := ih hm (Nat.le_of_succ_le_succ hj)
      exact ⟨e, .link hlink he, hsym⟩

section Loop

variable (htree : Forest.WellFormed s.nodes s.root)

include htree

theorem link_cases (hn : s.nodes.live n = true) (levels : Nat) :
    (Stops s n ∧ followLink s (levels + 1) (some n) = .ok (some n)) ∨
      (¬ Stops s n ∧ (∀ x, ¬ LinksTo s n x) ∧ followLink s (levels + 1) (some n) = .ok none) ∨
      ∃ x, LinksTo s n x ∧ s.nodes.live x = true ∧
        followLink s (levels + 1) (some n) = followLink s levels (some x) := by
  obtain ⟨a, ha⟩ := Forest.live_iff_valAt.mp hn
  have hnode := nodeAt_of_valAt ha
  by_cases hlink : a.isSymlink = true
  · cases htarget : a.symlinkTarget with
    | none =>
      refine .inl ⟨⟨a, ha, fun _ => htarget⟩, ?_⟩
      simp [followLink, hnode, hlink, htarget, bind, Except.bind]
    | some target =>
      have hfind : vfsFindNode s target =
          .ok (Forest.walk Attr.name s.nodes s.root (pathComponents target)) :=
        vfsFindNode_of_live htree.root_live
      cases hwalk : Forest.walk Attr.name s.nodes s.root (pathComponents target) with
      | none =>
        rw [hwalk] at hfind
        refine .inr (.inl ⟨?_, ?_, ?_⟩)
        · rintro ⟨b, hb, hstop⟩
          obtain rfl := Option.some.inj (ha.symm.trans hb)
          exact absurd (htarget.symm.trans (hstop hlink)) (Option.some_ne_none target)
        · rintro x ⟨b, target', hb, _, htarget', hfind'⟩
          obtain rfl := Option.some.inj (ha.symm.trans hb)
          obtain rfl := Option.some.inj (htarget.symm.trans htarget')
          cases hfind.symm.trans hfind'
        · cases levels <;> simp [followLink, hnode, hlink, htarget, hfind, bind, Except.bind]
      | some x =>
        rw [hwalk] at hfind
        refine .inr (.inr ⟨x, ⟨a, target, ha, hlink, htarget, hfind⟩, ?_, ?_⟩)
        · exact htree.live_walk htree.root_live hwalk
        · simp [followLink, hnode, hlink, htarget, hfind, bind, Except.bind]
  · refine .inl ⟨⟨a, ha, fun hyes => absurd hyes hlink⟩, ?_⟩
    simp [followLink, hnode, hlink, bind, Except.bind]

theorem followLink_spec (levels : Nat) (hn : s.nodes.live n = true) :
    ∃ found, followLink s levels (some n) = .ok found ∧
      ∀ m, found = some m ↔ ∃ k, k ≤ levels ∧ Chain s n k m ∧ (k < levels → Stops s m) := by
  induction levels generalizing n with
  | zero =>
    refine ⟨some n, rfl, fun m => ?_⟩
    constructor
    · rintro ⟨⟩
      exact ⟨0, Nat.le_refl 0, .here n, fun hlt => absurd hlt (Nat.lt_irrefl 0)⟩
    · rintro ⟨k, hk, hchain, _⟩
      obtain rfl := Nat.le_zero.mp hk
      cases hchain
      rfl
  | succ levels ih =>
    rcases link_cases htree hn levels with ⟨hstop, hturn⟩ | ⟨hgo, hnone, hturn⟩ | ⟨x, hlink, hx, hturn⟩
    · refine ⟨some n, hturn, fun m => ?_⟩
      simp only [chain_of_stops hstop]
      constructor
      · rintro ⟨⟩
        exact ⟨0, Nat.zero_le _, ⟨rfl, rfl⟩, fun _ => hstop⟩
      · rintro ⟨_, _, ⟨_, rfl⟩, _⟩
        rfl
    · refine ⟨none, hturn, fun m => ?_⟩
      constructor
      · rintro ⟨⟩
      · rintro ⟨_, _, _ | ⟨hlink, _⟩, hstop⟩
        · exact absurd (hstop (Nat.succ_pos levels)) hgo
        · exact absurd hlink (hnone _)
    · obtain ⟨found, hfound, hspec⟩ := ih hx
      refine ⟨found, hturn.trans hfound, fun m => (hspec m).trans ?_⟩
      constructor
      · rintro ⟨k, hk, hchain, hstop⟩
        exact ⟨k + 1, Nat.succ_le_succ hk, .link hlink hchain,
          fun hlt => hstop (Nat.lt_of_succ_lt_succ hlt)⟩
      · rintro ⟨k, hk, hchain, hstop⟩
        cases k with
        | zero =>
          cases hchain
          exact absurd (hstop (Nat.succ_pos levels)) hlink.not_stops
        | succ k =>
          exact ⟨k, Nat.le_of_succ_le_succ hk, (chain_succ_of_links hlink).mp hchain,
            fun hlt => hstop (Nat.succ_lt_succ hlt)⟩

theorem stops_iff_of_ends (hn : s.nodes.live n = true) (hends : EndsInTime s n)
    (hchain : Chain s n k m) : (k < 10 → Stops s m) ↔ ¬ IsSymlink s m := by
  obtain ⟨a, ha⟩ := Forest.live_iff_valAt.mp (hchain.live htree hn)
  constructor
  · rintro hstop ⟨b, hb, hlink⟩
    obtain rfl := Option.some.inj (ha.symm.trans hb)
    obtain ⟨hlt, htarget⟩ := hends k m a hchain ha hlink
    obtain ⟨b, hb, hnone⟩ := hstop hlt
    obtain rfl := Option.some.inj (ha.symm.trans hb)
    exact htarget (hnone hlink)
  · exact fun hno _ => ⟨a, ha, fun hlink => absurd ⟨a, ha, hlink⟩ hno⟩

theorem resolve_symlink_iff (hn : s.nodes.live n = true) :
    ResolvesToEnd s n ↔ EndsInTime s n := by
  obtain ⟨found, hfound, hspec⟩ := followLink_spec htree 10 hn
  constructor
  · rintro ⟨found', hfound', hends⟩ k m a hchain ha hlink
    obtain rfl := Except.ok.inj (hfound.symm.trans hfound')
    have hnever : ∀ j e, j ≤ 10 → Chain s n j e → (j < 10 → Stops s e) → ¬ IsSymlink s e := by
      intro j e hj hc hstop
      obtain ⟨_, _, _, hno⟩ := (hends e).mp ((hspec e).mpr ⟨j, hj, hc, hstop⟩)
      exact hno
    have hlt : k < 10 := by
      by_contra hlong
      obtain ⟨e, he, hsym⟩ := hchain.symlink_before ⟨a, ha, hlink⟩ (Nat.le_of_not_lt hlong)
      exact hnever 10 e (Nat.le_refl 10) he (fun h => absurd h (Nat.lt_irrefl 10)) hsym
    refine ⟨hlt, fun hnone => ?_⟩
    exact hnever k m (Nat.le_of_lt hlt) hchain (fun _ => ⟨a, ha, fun _ => hnone⟩) ⟨a, ha, hlink⟩
  · intro hends
    refine ⟨found, hfound, fun m => (hspec m).trans ?_⟩
    exact exists_congr fun k => and_congr_right fun _ => and_congr_right fun hchain =>
      stops_iff_of_ends htree hn hends hchain

end Loop

section Concrete

def linkCalls : List VfsCall :=
  [.createSymlink (str "/to") (str "/bin"), .createSymlink (str "/loop") (str "/loop")]

def linkedTree : VfsState := ran (fun s c => namingCall c && addsNoNamesake s c) (openHost []) linkCalls

theorem linkedTree_sound :
    Sound linkedTree.nodes linkedTree.blocks linkedTree.root ∧ Distinct linkedTree :=
  sound_of_naming (reachableBy_ran (fun s c => namingCall c && addsNoNamesake s c) (openHost [])
    linkCalls (by decide +kernel) (by decide +kernel)) (by decide +kernel)

def symlinkNode (name target : Bytes) : Attr :=
  ⟨name, false, true, some target, target.length, none, none, 0o777, str "guest", str "users", 0, 0⟩

theorem valAt_to : Forest.valAt linkedTree.nodes 7 = some (symlinkNode (str "to") (str "/bin")) := by
  decide +kernel

theorem valAt_loop :
    Forest.valAt linkedTree.nodes 8 = some (symlinkNode (str "loop") (str "/loop")) := by
  decide +kernel

theorem plain_bin : ∃ a, Forest.valAt linkedTree.nodes 1 = some a ∧ a.isSymlink = false := by
  have hplain : (Forest.valAt linkedTree.nodes 1).any (!·.isSymlink) = true := by decide +kernel
  simpa [Option.any_eq_true] using hplain

theorem links_to_bin : LinksTo linkedTree 7 1 := by
  refine ⟨_, str "/bin", valAt_to, rfl, rfl, ?_⟩
  rw [vfsFindNode_of_live linkedTree_sound.1.tree.root_live]
  exact congrArg Except.ok (by decide +kernel)

theorem resolve_symlink_iff_to : ResolvesToEnd linkedTree 7 := by
  refine (resolve_symlink_iff linkedTree_sound.1.tree (by decide +kernel)).mpr ?_
  rintro (_ | k) m a hchain ha hlink
  · cases hchain
    obtain rfl := Option.some.inj (valAt_to.symm.trans ha)
    exact ⟨by decide, Option.some_ne_none _⟩
  · obtain ⟨b, hb, hplain⟩ := plain_bin
    have hstop : Stops linkedTree 1 :=
      ⟨b, hb, fun hyes => absurd (hplain.symm.trans hyes) Bool.false_ne_true⟩
    obtain ⟨rfl, rfl⟩ := (chain_of_stops hstop).mp ((chain_succ_of_links links_to_bin).mp hchain)
    obtain rfl := Option.some.inj (ha.symm.trans hb)
    exact absurd (hplain.symm.trans hlink) Bool.false_ne_true

theorem self_link_resolves_to_link :
    ¬ ∀ (s : VfsState) (n : Nat), Forest.WellFormed s.nodes s.root → IsSymlink s n →
      ResolvesToEnd s n := by
  intro hall
  have hlink : IsSymlink linkedTree 8 := ⟨_, valAt_loop, rfl⟩
  have hself : vfsResolveSymlink linkedTree (some 8) = .ok (some 8) := by decide +kernel
  obtain ⟨found, hfound, hends⟩ := hall linkedTree 8 linkedTree_sound.1.tree hlink
  obtain rfl := Except.ok.inj (hself.symm.trans hfound)
  obtain ⟨_, _, _, hno⟩ := (hends 8).mp rfl
  exact hno hlink

end Concrete

end ZoraVM.Vfs

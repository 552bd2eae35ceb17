import Mathlib.Tactic

namespace ZoraVM.Foundation

-- Values at paths. What is below a path is there only where an inner value is at the path itself.
@[ext] structure PathMap (κ β : Type) (inner : β → Prop) where
  get : List κ → Option β
  root : ∃ b, get [] = some b ∧ inner b
  closed : ∀ {ks k b}, get (ks ++ [k]) = some b → ∃ c, get ks = some c ∧ inner c

namespace PathMap

variable {κ β : Type} {inner : β → Prop} [DecidableEq κ]

def Inner (m : PathMap κ β inner) (ks : List κ) : Prop := ∃ b, m.get ks = some b ∧ inner b

def Leaf (m : PathMap κ β inner) (ks : List κ) : Prop := ∀ k, m.get (ks ++ [k]) = none

def single (b : β) (hb : inner b) : PathMap κ β inner where
  get
    | [] => some b
    | _ :: _ => none
  root := ⟨b, rfl, hb⟩
  closed {ks k c} h := by
    cases ks with
    | nil => cases h
    | cons _ _ => cases h

def add (m : PathMap κ β inner) (ks : List κ) (k : κ) (b : β) (hks : m.Inner ks)
    (hfree : m.get (ks ++ [k]) = none) : PathMap κ β inner where
  get ls := if ls = ks ++ [k] then some b else m.get ls
  root := by
    rw [if_neg (by simp)]
    exact m.root
  closed {ls l c} h := by
    have habove : ls ≠ ks ++ [k] → ∃ d, (if ls = ks ++ [k] then some b else m.get ls) = some d ∧ inner d := by
      intro hls
      rw [if_neg hls]
      split at h
      · next heq =>
        rw [(List.append_inj' heq rfl).1]
        exact hks
      · exact m.closed h
    by_cases hls : ls = ks ++ [k]
    · subst hls
      rw [if_neg (fun heq => by simpa using congrArg List.length heq)] at h
      obtain ⟨d, hd, _⟩ := m.closed h
      cases hfree.symm.trans hd
    · exact habove hls

def remove (m : PathMap κ β inner) (ks : List κ) (hks : ks ≠ []) (hleaf : m.Leaf ks) :
    PathMap κ β inner where
  get ls := if ls = ks then none else m.get ls
  root := by
    rw [if_neg hks.symm]
    exact m.root
  closed {ls l c} h := by
    split at h
    · cases h
    · by_cases hls : ls = ks
      · subst hls
        cases (hleaf l).symm.trans h
      · rw [if_neg hls]
        exact m.closed h

def modify (m : PathMap κ β inner) (ks : List κ) (f : β → β)
    (hf : ∀ b, inner b → inner (f b)) : PathMap κ β inner where
  get ls := if ls = ks then (m.get ks).map f else m.get ls
  root := by
    obtain ⟨b, hb, hin⟩ := m.root
    by_cases hks : [] = ks
    · subst hks
      exact ⟨f b, by rw [if_pos rfl, hb]; rfl, hf b hin⟩
    · exact ⟨b, by rw [if_neg hks, hb], hin⟩
  closed {ls l c} h := by
    obtain ⟨d, hd⟩ : ∃ d, m.get (ls ++ [l]) = some d := by
      split at h
      · next heq =>
        obtain ⟨d, hd, _⟩ := Option.map_eq_some_iff.mp h
        exact ⟨d, heq ▸ hd⟩
      · exact ⟨c, h⟩
    obtain ⟨b, hb, hin⟩ := m.closed hd
    by_cases hls : ls = ks
    · subst hls
      exact ⟨f b, by rw [if_pos rfl, hb]; rfl, hf b hin⟩
    · exact ⟨b, by rw [if_neg hls, hb], hin⟩

variable {m : PathMap κ β inner} {ks ls : List κ} {k : κ} {b : β}

theorem get_add (hks : m.Inner ks) (hfree : m.get (ks ++ [k]) = none) :
    (m.add ks k b hks hfree).get ls = if ls = ks ++ [k] then some b else m.get ls := rfl

theorem get_remove (hks : ks ≠ []) (hleaf : m.Leaf ks) :
    (m.remove ks hks hleaf).get ls = if ls = ks then none else m.get ls := rfl

theorem get_modify {f : β → β} (hf : ∀ b, inner b → inner (f b)) :
    (m.modify ks f hf).get ls = if ls = ks then (m.get ks).map f else m.get ls := rfl

end PathMap

end ZoraVM.Foundation

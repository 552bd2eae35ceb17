import Mathlib.Tactic

namespace ZoraVM.Foundation

section Segments

variable {ι : Type} {next next' : ι → Option ι} {head mid stop : Option ι} {p : ι} {ps qs : List ι}

def Segment (next : ι → Option ι) : Option ι → List ι → Option ι → Prop
  | head, [], stop => head = stop
  | head, p :: ps, stop => head = some p ∧ Segment next (next p) ps stop

namespace Segment

theorem append (h : Segment next head ps mid) (h' : Segment next mid qs stop) :
    Segment next head (ps ++ qs) stop := by
  induction ps generalizing head with
  | nil => exact h ▸ h'
  | cons p ps ih => exact ⟨h.1, ih h.2⟩

theorem split (h : Segment next head (ps ++ p :: qs) stop) :
    Segment next head ps (some p) ∧ Segment next (some p) (p :: qs) stop := by
  induction ps generalizing head with
  | nil => exact ⟨h.1, rfl, h.2⟩
  | cons q ps ih => exact ⟨⟨h.1, (ih h.2).1⟩, (ih h.2).2⟩

theorem congr (h : Segment next head ps stop) (hsame : ∀ p ∈ ps, next' p = next p) :
    Segment next' head ps stop := by
  induction ps generalizing head with
  | nil => exact h
  | cons p ps ih =>
    refine ⟨h.1, ?_⟩
    rw [hsame p List.mem_cons_self]
    exact ih h.2 fun q hq => hsame q (List.mem_cons_of_mem p hq)

theorem head_eq (h : Segment next head ps none) : head = ps.head? := by
  cases ps with
  | nil => exact h
  | cons q ps => exact h.1

theorem unique (h : Segment next head ps none) (h' : Segment next head qs none) : ps = qs := by
  induction ps generalizing head qs with
  | nil =>
    cases qs with
    | nil => rfl
    | cons q qs => cases h.symm.trans h'.1
  | cons p ps ih =>
    cases qs with
    | nil => cases h'.symm.trans h.1
    | cons q qs =>
      obtain rfl := Option.some.inj (h.1.symm.trans h'.1)
      rw [ih h.2 h'.2]

theorem no_end_of_cycle (hcycle : Segment next (some p) (p :: ps) (some p)) :
    ¬ Segment next (some p) qs none := by
  intro h
  have hlen := congrArg List.length ((hcycle.append h).unique h)
  simp only [List.length_append, List.length_cons] at hlen
  omega

theorem nodup (h : Segment next head ps none) : ps.Nodup := by
  induction ps generalizing head with
  | nil => exact List.nodup_nil
  | cons p ps ih =>
    refine List.nodup_cons.mpr ⟨fun hmem => ?_, ih h.2⟩
    obtain ⟨front, behind, rfl⟩ := List.append_of_mem hmem
    obtain ⟨hfront, hbehind⟩ := h.2.split
    have hcycle : Segment next (some p) (p :: front) (some p) := ⟨rfl, hfront⟩
    exact hcycle.no_end_of_cycle hbehind

theorem congr_of_notMem [DecidableEq ι] (h : Segment next head ps stop) (hp : p ∉ ps)
    (target : Option ι) : Segment (Function.update next p target) head ps stop :=
  h.congr fun _ hq => Function.update_of_ne (ne_of_mem_of_not_mem hq hp) _ _

theorem push [DecidableEq ι] (h : Segment next head ps stop) (hp : p ∉ ps) :
    Segment (Function.update next p head) (some p) (p :: ps) stop := by
  refine ⟨rfl, ?_⟩
  rw [Function.update_self]
  exact h.congr_of_notMem hp head

theorem push_cycle [DecidableEq ι] (h : Segment next head (ps ++ p :: qs) none) :
    Segment (Function.update next p head) (some p) (p :: ps) (some p) := by
  have hp : p ∉ ps := fun hmem => List.disjoint_of_nodup_append h.nodup hmem List.mem_cons_self
  exact h.split.1.push hp

end Segment

-- The loop that goes along a list for a node; `none` where the fuel does not reach.
def findFrom (next : ι → Option ι) (found : ι → Bool) : Nat → Option ι → Option (Option ι)
  | 0, _ => none
  | _ + 1, none => some none
  | fuel + 1, some p => if found p then some (some p) else findFrom next found fuel (next p)

theorem Segment.findFrom_eq {found : ι → Bool} (h : Segment next head ps none) {fuel : Nat}
    (hfuel : ps.length < fuel) : findFrom next found fuel head = some (ps.find? found) := by
  induction ps generalizing head fuel with
  | nil =>
    obtain ⟨fuel, rfl⟩ := Nat.exists_eq_add_of_lt hfuel
    rw [show head = none from h]
    rfl
  | cons p ps ih =>
    obtain ⟨rfl, hrest⟩ := h
    cases fuel with
    | zero => omega
    | succ fuel =>
      rw [findFrom, List.find?_cons]
      cases found p with
      | true => rfl
      | false => exact ih hrest (by simpa using hfuel)

theorem Segment.findFrom_cycle {found : ι → Bool}
    (hcycle : Segment next (some p) (p :: ps) (some p)) (hfound : ∀ q ∈ p :: ps, found q = false)
    (fuel : Nat) : findFrom next found fuel (some p) = none := by
  have hpart : ∀ fuel (rest : List ι) (head : Option ι), (∀ q ∈ rest, found q = false) →
      Segment next head rest (some p) → findFrom next found fuel head = none := by
    intro fuel
    induction fuel with
    | zero => exact fun _ _ _ _ => rfl
    | succ fuel ih =>
      intro rest head hrest h
      cases rest with
      | nil =>
        rw [show head = some p from h, findFrom, hfound p List.mem_cons_self]
        exact ih ps (next p) (fun q hq => hfound q (List.mem_cons_of_mem p hq)) hcycle.2
      | cons q rest =>
        rw [h.1, findFrom, hrest q List.mem_cons_self]
        exact ih rest (next q) (fun r hr => hrest r (List.mem_cons_of_mem q hr)) h.2
  exact hpart fuel [] (some p) (by simp) rfl

end Segments

section Walks

variable {ι σ : Type} {next : σ → ι → Option ι} {visit : σ → ι → σ}

def walkFrom (next : σ → ι → Option ι) (visit : σ → ι → σ) : Nat → Option ι → σ → Option σ
  | 0, _, _ => none
  | _ + 1, none, s => some s
  | fuel + 1, some p, s => walkFrom next visit fuel (next (visit s p) p) (visit s p)

theorem Segment.walkFrom_eq {head : Option ι} {ps : List ι} {s : σ}
    (hvisit : ∀ s p, next (visit s p) = next s) (h : Segment (next s) head ps none) {fuel : Nat}
    (hfuel : ps.length < fuel) : walkFrom next visit fuel head s = some (ps.foldl visit s) := by
  induction ps generalizing head s fuel with
  | nil =>
    obtain ⟨fuel, rfl⟩ := Nat.exists_eq_add_of_lt hfuel
    rw [show head = none from h]
    rfl
  | cons p ps ih =>
    obtain ⟨rfl, hrest⟩ := h
    cases fuel with
    | zero => omega
    | succ fuel =>
      rw [← hvisit s p] at hrest
      exact ih hrest (by simpa using hfuel)

theorem walkFrom_preserves {P : σ → Prop} (hvisit : ∀ s p, P s → P (visit s p)) {fuel : Nat}
    {head : Option ι} {s s' : σ} (hs : P s) (h : walkFrom next visit fuel head s = some s') : P s' := by
  induction fuel generalizing head s with
  | zero => cases h
  | succ fuel ih =>
    cases head with
    | none => exact Option.some.inj h ▸ hs
    | some p => exact ih (hvisit s p hs) h

end Walks

end ZoraVM.Foundation

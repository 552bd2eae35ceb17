import ZoraVM.Foundation.LinkedList

namespace ZoraVM.Foundation

section Bypass

variable {ι : Type} [DecidableEq ι]

def bypass (next : ι → Option ι) (before target : Option ι) : ι → Option ι :=
  match before with
  | some a => Function.update next a target
  | none => next

def bypassHead (head before target : Option ι) : Option ι :=
  match before with
  | some _ => head
  | none => target

variable {next : ι → Option ι} {head target stop : Option ι} {front behind nodes : List ι} {p : ι}

theorem bypass_of_notMem {before : Option ι} (hp : p ∉ before) :
    bypass next before target p = next p := by
  cases before with
  | none => rfl
  | some a =>
    refine Function.update_of_ne ?_ _ _
    rintro rfl
    exact hp (Option.mem_some_self p)

namespace Segment

theorem redirect (h : Segment next head front stop) (hnodup : front.Nodup) :
    Segment (bypass next front.getLast? target) (bypassHead head front.getLast? target) front
      target := by
  induction front using List.reverseRecOn with
  | nil => rfl
  | append_singleton front a =>
    obtain ⟨hfront, hlast⟩ := h.split
    have ha : a ∉ front := fun hmem =>
      List.disjoint_of_nodup_append hnodup hmem (List.mem_singleton_self a)
    rw [List.getLast?_concat]
    refine (hfront.congr_of_notMem ha target).append ⟨rfl, ?_⟩
    exact Function.update_self a target next

theorem congr_bypass {before : Option ι} (h : Segment next head nodes stop)
    (hbefore : ∀ a ∈ before, a ∉ nodes) : Segment (bypass next before target) head nodes stop :=
  h.congr fun q hq => bypass_of_notMem fun hmem => hbefore q hmem hq

theorem skip (h : Segment next head (front ++ p :: behind) none) :
    Segment (bypass next front.getLast? (next p)) (bypassHead head front.getLast? (next p))
      (front ++ behind) none := by
  have hnodup := h.nodup
  obtain ⟨hfront, hbehind⟩ := h.split
  refine (hfront.redirect (List.Nodup.of_append_left hnodup)).append (hbehind.2.congr_bypass ?_)
  intro a ha hmem
  exact List.disjoint_of_nodup_append hnodup (List.mem_of_getLast? ha) (List.mem_cons_of_mem p hmem)

theorem concat (h : Segment next head nodes none) (hp : p ∉ nodes) (hend : next p = none) :
    Segment (bypass next nodes.getLast? (some p)) (bypassHead head nodes.getLast? (some p))
      (nodes ++ [p]) none := by
  refine (h.redirect h.nodup).append ⟨rfl, ?_⟩
  rw [bypass_of_notMem fun hmem => hp (List.mem_of_getLast? hmem)]
  exact hend

end Segment

end Bypass

section Linked

variable {ι : Type} {next prev : ι → Option ι} {head tail : Option ι}
variable {front behind nodes : List ι} {p : ι}

structure Linked (next prev : ι → Option ι) (head tail : Option ι) (nodes : List ι) : Prop where
  forward : Segment next head nodes none
  backward : Segment prev tail nodes.reverse none

namespace Linked

theorem nil : Linked next prev none none [] := ⟨rfl, rfl⟩

theorem nodup (h : Linked next prev head tail nodes) : nodes.Nodup := h.forward.nodup

theorem tail_eq (h : Linked next prev head tail nodes) : tail = nodes.getLast? := by
  rw [h.backward.head_eq, List.head?_reverse]

theorem next_eq (h : Linked next prev head tail (front ++ p :: behind)) : next p = behind.head? :=
  h.forward.split.2.2.head_eq

theorem prev_eq (h : Linked next prev head tail (front ++ p :: behind)) : prev p = front.getLast? := by
  have hbackward := h.backward
  rw [List.reverse_append, List.reverse_cons, List.append_assoc, List.singleton_append] at hbackward
  rw [hbackward.split.2.2.head_eq, List.head?_reverse]

theorem congr {next' prev' : ι → Option ι} (h : Linked next prev head tail nodes)
    (hnext : ∀ q ∈ nodes, next' q = next q) (hprev : ∀ q ∈ nodes, prev' q = prev q) :
    Linked next' prev' head tail nodes :=
  ⟨h.forward.congr hnext, h.backward.congr fun q hq => hprev q (List.mem_reverse.mp hq)⟩

theorem unlink [DecidableEq ι] (h : Linked next prev head tail (front ++ p :: behind)) :
    Linked (bypass next (prev p) (next p)) (bypass prev (next p) (prev p))
      (bypassHead head (prev p) (next p)) (bypassHead tail (next p) (prev p)) (front ++ behind) := by
  have hbackward := h.backward
  rw [List.reverse_append, List.reverse_cons, List.append_assoc, List.singleton_append] at hbackward
  constructor
  · rw [h.prev_eq]
    exact h.forward.skip
  · rw [List.reverse_append, h.next_eq, ← List.getLast?_reverse]
    exact hbackward.skip

theorem concat [DecidableEq ι] (h : Linked next prev head tail nodes) (hp : p ∉ nodes)
    (hend : next p = none) :
    Linked (bypass next tail (some p)) (Function.update prev p tail) (bypassHead head tail (some p))
      (some p) (nodes ++ [p]) := by
  constructor
  · rw [h.tail_eq]
    exact h.forward.concat hp hend
  · rw [List.reverse_append]
    exact h.backward.push fun hmem => hp (List.mem_reverse.mp hmem)

end Linked

end Linked

end ZoraVM.Foundation

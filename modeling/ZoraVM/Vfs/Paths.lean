import ZoraVM.Vfs.Inversion

namespace ZoraVM.Vfs

open Foundation

variable {path dir name : Bytes}

section Cut

theorem pathComponents_of_short (h : path.length < 256) :
    pathComponents path = tokens slash path := by
  rw [pathComponents, clip_of_length_lt h]

theorem pathComponents_dir {above : Bytes} (hfit : above.length < 256) :
    pathComponents (if above = [] then [slash] else above) = tokens slash above := by
  split
  · next hnil =>
    rw [hnil]
    decide
  · exact pathComponents_of_short hfit

def NamesEntry (path : Bytes) : Prop := ∃ c, path.getLast? = some c ∧ c ≠ slash

theorem namesEntry_plain (hslash : slash ∉ name) : NamesEntry name ↔ name ≠ [] := by
  constructor
  · rintro ⟨c, hc, _⟩ rfl
    cases hc
  · intro hne
    obtain ⟨c, hc⟩ := Option.isSome_iff_exists.mp (List.getLast?_isSome.mpr hne)
    exact ⟨c, hc, ne_of_mem_of_not_mem (List.mem_of_getLast? hc) hslash⟩

theorem namesEntry_append {above : Bytes} (hslash : slash ∉ name) :
    NamesEntry (above ++ slash :: name) ↔ name ≠ [] := by
  cases name with
  | nil => simp [NamesEntry]
  | cons b rest =>
    rw [← namesEntry_plain hslash]
    simp [NamesEntry, List.getLast?_append, List.getLast?_cons]

theorem pathComponents_join {above : Bytes} (last : Bytes) (hfit : above.length < 256) :
    pathComponents (above ++ slash :: last) =
      tokens slash above ++ tokens slash (last.take (255 - (above.length + 1))) := by
  rw [pathComponents, clip, tokens_take_append, List.take_of_length_le (by omega)]

theorem pathComponents_last {above last : Bytes} (hslash : slash ∉ last)
    (hfit : above.length < 256) :
    (∃ shown, shown ≠ [] ∧
      pathComponents (above ++ slash :: last) = tokens slash above ++ [shown] ∧
      (shown = last ↔ (above ++ slash :: last).length < 256) ∧
      (above ++ slash :: shown).length < 256) ∨
    pathComponents (above ++ slash :: last) = tokens slash above := by
  have hlength : ∀ w : Bytes, (above ++ slash :: w).length = above.length + 1 + w.length := by
    intro w
    rw [List.length_append, List.length_cons]
    omega
  have hcut := pathComponents_join last hfit
  by_cases hne : last.take (255 - (above.length + 1)) = []
  · right
    rw [hcut, hne, tokens_nil, List.append_nil]
  · have hpos := List.length_pos_iff.mpr hne
    rw [List.length_take] at hpos
    refine .inl ⟨last.take (255 - (above.length + 1)), hne, ?_, ?_, ?_⟩
    · rw [hcut, tokens_of_not_mem (fun hin => hslash (List.mem_of_mem_take hin)) hne]
    · rw [List.take_eq_self_iff, hlength]
      omega
    · rw [hlength, List.length_take]
      omega

end Cut

section Split

theorem splitPath_of_short (h : path.length < 256) : ∃ dir name, splitPath path = .ok (dir, name) := by
  cases hlast : splitLast slash path with
  | none => exact ⟨_, _, by rw [splitPath, hlast]; exact if_neg (by omega)⟩
  | some ends =>
    obtain ⟨hpath, _⟩ := splitLast_eq_some.mp hlast
    have hlength := congrArg List.length hpath
    rw [List.length_append, List.length_cons] at hlength
    exact ⟨_, _, by rw [splitPath, hlast]; exact if_neg (by omega)⟩

theorem pathComponents_split (h : splitPath path = .ok (dir, name)) :
    (∃ shown, shown ≠ [] ∧ pathComponents path = pathComponents dir ++ [shown] ∧
      (shown = name ↔ path.length < 256)) ∨ pathComponents path = pathComponents dir := by
  obtain ⟨hname, hslash, hsplit⟩ := splitPath_ok h
  rcases hsplit with ⟨rfl, rfl⟩ | ⟨above, rfl, hfit, rfl⟩
  · have hroot : pathComponents [slash] = [] := rfl
    rw [hroot, pathComponents_of_short hname]
    by_cases hne : path = []
    · exact .inr (by rw [hne, tokens_nil])
    · exact .inl ⟨path, hne, tokens_of_not_mem hslash hne, iff_of_true rfl hname⟩
  · rw [pathComponents_dir hfit]
    rcases pathComponents_last hslash hfit with ⟨shown, hne, hcut, hshown, _⟩ | hcut
    · exact .inl ⟨shown, hne, hcut, hshown⟩
    · exact .inr hcut

theorem tokens_split (h : splitPath path = .ok (dir, name)) :
    tokens slash path = pathComponents dir ++ tokens slash name := by
  obtain ⟨_, _, hsplit⟩ := splitPath_ok h
  rcases hsplit with ⟨rfl, rfl⟩ | ⟨above, rfl, hfit, rfl⟩
  · rfl
  · rw [tokens_append_cons, pathComponents_dir hfit]

theorem namesEntry_split (h : splitPath path = .ok (dir, name)) : NamesEntry path ↔ name ≠ [] := by
  obtain ⟨_, hslash, hsplit⟩ := splitPath_ok h
  rcases hsplit with ⟨rfl, _⟩ | ⟨above, rfl, _, _⟩
  · exact namesEntry_plain hslash
  · exact namesEntry_append hslash

end Split

end ZoraVM.Vfs

import ZoraVM.Foundation.Strtok
import ZoraVM.Foundation.TextMode
import ZoraVM.Vfs.ReadWrite

namespace ZoraVM.Lua

open Foundation Vfs

def persistentPrefix : Bytes := str "/persistent/"
def zoraPerlPrefix : Bytes := str "../ZoraPerl/"
def luaSizeLimit : Nat := 1024 * 1024
def longLimit : Nat := 2 ^ 31

section Reading

variable (s : VfsState) (stale : Nat → UInt8)

-- malloc(size + 1): the text stream delivers fewer bytes than ftell has counted where it
-- translates, and what is left between them and the last byte is what malloc left there.
def luaBlock (content : Bytes) : Bytes :=
  textRead content ++
    (List.range (content.length - (textRead content).length)).map stale ++ [0]

def luaLoaded (n : Nat) (content : Bytes) : VfsState :=
  { updateNode s n (withData (some s.blocks.size) content.length) with
    blocks := s.blocks.alloc (luaBlock stale content) }

-- `none` where the call answers nil at once. From longLimit bytes on ftell fails, and fread is asked
-- for as many bytes as a size_t can count.
def luaLoad (n : Nat) (a : Attr) : Outcome (Option VfsState) :=
  match a.data, a.hostPath with
  | none, some hostPath =>
    if !zoraPerlPrefix.isPrefixOf hostPath then .ok none
    else
      match s.host.openRead hostPath with
      | none => .ok (some s)
      | some content =>
        if longLimit ≤ content.length then .error .bufferOverflow
        else if luaSizeLimit < content.length then .ok none
        else .ok (some (luaLoaded s stale n content))
  | _, _ => .ok (some s)

def luaPushData (n : Nat) : Outcome (Option Bytes × VfsState) := do
  let a ← nodeAt s n
  match a.data with
  | none => .ok (none, s)
  | some p =>
    match s.blocks.get p with
    | none => .error .freedBlock
    | some block =>
      let text ← cstring block
      .ok (some text, s)

def luaVmVfsRead (path : Bytes) : Outcome (Option Bytes × VfsState) :=
  if !persistentPrefix.isPrefixOf path then .ok (none, s)
  else do
    match ← vfsFindNode s path with
    | none => .ok (none, s)
    | some n =>
      let a ← nodeAt s n
      if a.isDirectory then .ok (none, s)
      else
        match ← luaLoad s stale n a with
        | none => .ok (none, s)
        | some s' => luaPushData s' n

end Reading

section Writing

def luaText (content : Bytes) : Bytes := content.takeWhile (· ≠ 0)

def writeRefused (path content : Bytes) : Bool :=
  !persistentPrefix.isPrefixOf path || luaSizeLimit < (luaText content).length

def luaVmVfsWrite (s : VfsState) (path content : Bytes) : Outcome (Bool × VfsState) :=
  if writeRefused path content then .ok (false, s)
  else do
    let (r, s) ← vfsCreateFile s path
    if r ≠ 0 then .ok (false, s)
    else
      match ← vfsFindNode s path with
      | none => .ok (false, s)
      | some n =>
        let a ← nodeAt s n
        let blocks ← freeData s.blocks a.data
        .ok (true, loaded { s with blocks := blocks } n (luaText content))

end Writing

section Runs

inductive ScriptCall where
  | vfs (c : VfsCall)
  | read (stale : Nat → UInt8) (path : Bytes)
  | write (path content : Bytes)

def scriptStep (s : VfsState) : ScriptCall → Option VfsState
  | .vfs c => vfsStep s c
  | .read stale path =>
    match luaVmVfsRead s stale path with
    | .ok (_, s') => some s'
    | .error _ => none
  | .write path content =>
    match luaVmVfsWrite s path content with
    | .ok (_, s') => some s'
    | .error _ => none

def ScriptReachable (s : VfsState) : Prop :=
  ∃ junk host clock s₀ calls, vfsInit junk host clock = .ok s₀ ∧
    Run scriptStep (fun _ _ => True) s₀ calls s

end Runs

section Consistency

variable {s s' : VfsState} {stale : Nat → UInt8} {path content : Bytes} {n : Nat} {a : Attr}

theorem luaLoad_cases (h : luaLoad s stale n a = .ok (some s')) :
    s' = s ∨ ∃ content, a.data = none ∧ s' = luaLoaded s stale n content := by
  unfold luaLoad at h
  split at h
  · next hostPath hdata _ =>
    split at h
    · cases h
    · split at h
      · exact .inl (Option.some.inj (Except.ok.inj h)).symm
      · next content _ =>
        split at h
        · cases h
        · split at h
          · cases h
          · exact .inr ⟨content, hdata, (Option.some.inj (Except.ok.inj h)).symm⟩
  · exact .inl (Option.some.inj (Except.ok.inj h)).symm

theorem luaPushData_state {text : Option Bytes} (h : luaPushData s n = .ok (text, s')) :
    s' = s := by
  obtain ⟨a, _, hrest⟩ := Outcome.bind_eq_ok.mp h
  split at hrest
  · exact (Prod.mk.inj (Except.ok.inj hrest)).2.symm
  · split at hrest
    · cases hrest
    · obtain ⟨_, _, hrest⟩ := Outcome.bind_eq_ok.mp hrest
      exact (Prod.mk.inj (Except.ok.inj hrest)).2.symm

theorem length_luaBlock (stale : Nat → UInt8) (content : Bytes) :
    (luaBlock stale content).length = content.length + 1 := by
  have hle := (textRead_sublist content).length_le
  simp only [luaBlock, List.length_append, List.length_map, List.length_range,
    List.length_singleton]
  omega

theorem sound_luaLoaded (h : Sound s.nodes s.blocks s.root)
    (ha : Forest.valAt s.nodes n = some a) (hdata : a.data = none) (content : Bytes) :
    Sound (luaLoaded s stale n content).nodes (luaLoaded s stale n content).blocks s.root := by
  have hfree : freeData s.blocks a.data = .ok s.blocks := by
    rw [hdata]
    rfl
  refine h.store ha hfree ?_
  rw [length_luaBlock]
  omega

theorem consistent_luaVmVfsRead {text : Option Bytes} (h : Consistent s)
    (hcall : luaVmVfsRead s stale path = .ok (text, s')) : Consistent s' := by
  unfold luaVmVfsRead at hcall
  split at hcall
  · obtain ⟨_, rfl⟩ := Prod.mk.inj (Except.ok.inj hcall)
    exact h
  · rcases found_cases hcall with hnone | ⟨n, a, hfind, ha, hrest⟩
    · obtain ⟨_, rfl⟩ := Prod.mk.inj hnone
      exact h
    · split at hrest
      · obtain ⟨_, rfl⟩ := Prod.mk.inj (Except.ok.inj hrest)
        exact h
      · obtain ⟨loaded, hload, hrest⟩ := Outcome.bind_eq_ok.mp hrest
        cases loaded with
        | none =>
          obtain ⟨_, rfl⟩ := Prod.mk.inj (Except.ok.inj hrest)
          exact h
        | some t =>
          have ht : Consistent t := by
            rcases luaLoad_cases hload with rfl | ⟨content, hdata, rfl⟩
            · exact h
            · exact fun _ => sound_luaLoaded (h (vfsFindNode_ok hfind).1) ha hdata content
          exact luaPushData_state hrest ▸ ht

theorem consistent_luaVmVfsWrite {answer : Bool} (h : Consistent s)
    (hcall : luaVmVfsWrite s path content = .ok (answer, s')) : Consistent s' := by
  unfold luaVmVfsWrite at hcall
  split at hcall
  · obtain ⟨_, rfl⟩ := Prod.mk.inj (Except.ok.inj hcall)
    exact h
  · obtain ⟨⟨r, t⟩, hmade, hrest⟩ := Outcome.bind_eq_ok.mp hcall
    have ht := consistent_createFile h hmade
    dsimp only at hrest
    split at hrest
    · obtain ⟨_, rfl⟩ := Prod.mk.inj (Except.ok.inj hrest)
      exact ht
    · obtain ⟨found, hfind, hrest⟩ := Outcome.bind_eq_ok.mp hrest
      cases found with
      | none =>
        obtain ⟨_, rfl⟩ := Prod.mk.inj (Except.ok.inj hrest)
        exact ht
      | some n =>
        obtain ⟨a, ha, hrest⟩ := Outcome.bind_eq_ok.mp hrest
        obtain ⟨blocks, hfree, hrest⟩ := Outcome.bind_eq_ok.mp hrest
        obtain ⟨_, rfl⟩ := Prod.mk.inj (Except.ok.inj hrest)
        exact fun _ => (ht (vfsFindNode_ok hfind).1).store (nodeAt_ok ha) hfree (by simp)

theorem consistent_script {c : ScriptCall} (h : Consistent s) (hstep : scriptStep s c = some s') :
    Consistent s' := by
  cases c with
  | vfs c => exact consistent_step h hstep
  | read stale path =>
    unfold scriptStep at hstep
    dsimp only at hstep
    split at hstep
    · next hcall => exact Option.some.inj hstep ▸ consistent_luaVmVfsRead h hcall
    · cases hstep
  | write path content =>
    unfold scriptStep at hstep
    dsimp only at hstep
    split at hstep
    · next hcall => exact Option.some.inj hstep ▸ consistent_luaVmVfsWrite h hcall
    · cases hstep

theorem ScriptReachable.consistent (h : ScriptReachable s) : Consistent s := by
  obtain ⟨junk, host, clock, s₀, calls, hinit, hrun⟩ := h
  refine hrun.invariant ?_ fun s c s' hs _ hstep => consistent_script hs hstep
  refine vfsInit_induct (fun _ => sound_blank junk host clock) ?_ hinit
  intro s s' path r _ hs hcall
  exact consistent_mkdir hs hcall

end Consistency

end ZoraVM.Lua

import ZoraVM.Foundation.TextMode
import ZoraVM.Shell.Commands
import ZoraVM.Vfs.ReadWrite

namespace ZoraVM.Shell

open Foundation Vfs Unix

variable {ω : Type}

section Paths

def squeezeSlashes : Bool → Bytes → Bytes
  | _, [] => []
  | lastWasSlash, c :: rest =>
    if c = slash then
      if lastWasSlash then squeezeSlashes true rest else c :: squeezeSlashes true rest
    else c :: squeezeSlashes false rest

def normalizePath (path : Bytes) : Bytes :=
  let squeezed := squeezeSlashes false path
  if squeezed = [] then [slash] else squeezed

def buildFullPath (size : Nat) (cwd relative : Bytes) : Bytes :=
  normalizePath <|
    if relative.head? = some slash then clip size relative
    else if cwd = [slash] then clip size (slash :: relative)
    else clip size (cwd ++ slash :: relative)

end Paths

section Buffer

def redirectBufferSize : Nat := 65536

-- Called only while redirect_active is set: what does not fit is dropped.
def redirectPrintf (text : Bytes) (w : World ω) : World ω :=
  if w.redirectBuffer.length + text.length < redirectBufferSize then
    { w with redirectBuffer := w.redirectBuffer ++ text }
  else w

def existingContent (s : VfsState) (path : Bytes) : Outcome (Bytes × VfsState) := do
  match ← vfsReadFile s path with
  | (some (some p, size), s) =>
    if size < redirectBufferSize then do
      let content ← readBuffer s.blocks size (.block p)
      .ok (content, s)
    else .ok ([], s)
  | (_, s) => .ok ([], s)

def startRedirection (w : World ω) (path : Bytes) (appendMode : Bool) : Outcome (World ω) := do
  let w := { w with redirectActive := true }
  if appendMode then do
    let (content, s) ← existingContent w.vfs path
    .ok { w with redirectBuffer := content, vfs := s }
  else .ok { w with redirectBuffer := [] }

def isPrint (c : UInt8) : Bool := decide (32 ≤ c) && decide (c ≤ 126)

def unknownRedirected (name : Bytes) : Bytes :=
  if name ≠ [] ∧ name.length < 256 then
    if name.all isPrint then str "Unknown command: '" ++ (name ++ str "'\n")
    else str "Unknown command: [invalid characters]\n"
  else str "Unknown command: [empty or invalid]\n"

end Buffer

section Model

variable (sys : System ω)

-- stdout is closed here: what the handler prints on it is lost.
def executeSimpleCommandWithRedirect (args : List Bytes) (w : World ω) : Answer ω :=
  match args with
  | [] => ⟨[], w, none⟩
  | name :: _ =>
    match sys.commandTable.lookup name with
    | some (some handler) => handler args w
    | some none => ⟨[], w, none⟩
    | none =>
      let told := redirectPrintf (unknownRedirected name) w
      ⟨[], redirectPrintf (str "Type 'help' to see available commands.\n") told, none⟩

def executeCapturing (args : List Bytes) (w : World ω) : Outcome (Int × Answer ω) :=
  if sys.tempOpens w then executeSimpleCommandWithExitCode sys args w
  else .ok (0, executeSimpleCommandWithRedirect sys args w)

-- stdout is a file in text mode, and its size is that on the disk.
def fits (opened : Bool) (answer : Answer ω) : Bool :=
  opened && sys.tempReads answer.world && decide (0 < (textWrite answer.printed).length) &&
    decide ((textWrite answer.printed).length < redirectBufferSize)

def capture (opened : Bool) (answer : Answer ω) : World ω :=
  if fits sys opened answer then
    { answer.world with redirectBuffer := textRead (textWrite answer.printed) }
  else answer.world

def createMissing (s : VfsState) (path : Bytes) : Outcome VfsState := do
  match ← vfsFindNode s path with
  | some _ => .ok s
  | none => Prod.snd <$> vfsCreateFile s path

def createStrtok (s : VfsState) (path : Bytes) : Outcome (Option Strtok) := do
  let found ← vfsFindNode s path
  let here ← findStrtok s path
  match found with
  | some _ => .ok here
  | none => do
    let (parentPath, _) ← splitPath path
    let above ← findStrtok s parentPath
    .ok (above.or here)

def storeBuffer (w : World ω) (path : Bytes) : Outcome (Bool × World ω × Option Strtok) := do
  let w := { w with redirectActive := false }
  let t ← createStrtok w.vfs path
  let s ← createMissing w.vfs path
  if w.redirectBuffer = [] then .ok (true, { w with vfs := s }, t)
  else do
    let here ← findStrtok s path
    let (r, s) ← vfsWriteFile s path (.bytes w.redirectBuffer) w.redirectBuffer.length
    .ok (r == 0, { w with vfs := s }, here.or t)

def executeRedirected (args : List Bytes) (path : Bytes) (appendMode : Bool) (w : World ω) :
    Outcome (Ran ω) := do
  let w ← startRedirection w path appendMode
  let (status, answer) ← executeCapturing sys args w
  let (stored, after, t) ← storeBuffer (capture sys (sys.tempOpens w) answer) path
  let output := answer.printed ++ answer.world.redirectBuffer.drop w.redirectBuffer.length
  .ok ⟨if stored then status else 1, after, t.or answer.strtok, [⟨args, w, status, output⟩]⟩

def executePlain (args : List Bytes) (w : World ω) : Outcome (Ran ω) := do
  let (status, answer) ← executeSimpleCommandWithExitCode sys args w
  .ok ⟨status, answer.world, answer.strtok, [⟨args, w, status, answer.printed⟩]⟩

-- The input file is only mentioned on the console.
def executeCommandWithRedirection (args : List Bytes) (outputFile : Option Bytes) (appendMode : Bool)
    (w : World ω) : Outcome (Ran ω) :=
  match outputFile with
  | none | some [] => executePlain sys args w
  | some (c :: file) =>
    executeRedirected sys args (buildFullPath 512 w.vfs.currentDirectory (c :: file)) appendMode w

end Model

section Files

def MayRead (s : VfsState) (path : Bytes) : Prop :=
  vfsCheckPermission s path s.identity.vfsCurrentUser (permRead >>> 6) = .ok true

def MayWrite (s : VfsState) (path : Bytes) : Prop :=
  ∃ n a blocks, vfsFindNode s path = .ok (some n) ∧ Forest.valAt s.nodes n = some a ∧
    a.isDirectory = false ∧
    permits s.identity a s.identity.vfsCurrentUser (permWrite >>> 6) = true ∧
    freeData s.blocks a.data = .ok blocks

def formerContent (s : VfsState) (path : Bytes) : Bytes :=
  match vfsFindNode s path with
  | .ok (some n) => ((Forest.valAt s.nodes n).bind (contentOf s)).getD []
  | _ => []

variable {s s' : VfsState} {path d text : Bytes}

theorem formerContent_of_read (h : readBytes s path = some text) : formerContent s path = text := by
  have hcall := h
  unfold readBytes at hcall
  split at hcall
  · next data size t hread =>
    rcases vfsReadFile_cases hread with ⟨hnone, _⟩ | ⟨n, a, hfind, ha, hfile, hperm, _⟩
    · cases hnone
    · rw [readBytes_eq hfind ha hfile hperm] at h
      simp [formerContent, hfind, ha, contentOf, h]
  · cases hcall

theorem write_read (hwrite : MayWrite s path) (hd : d ≠ []) :
    ∃ s', vfsWriteFile s path (.bytes d) d.length = .ok (0, s') ∧
      ∀ text, readBytes s' path = some text ↔ text = d ∧ MayRead s path := by
  obtain ⟨n, a, blocks, hfind, ha, hfile, hperm, hfree⟩ := hwrite
  have hcopy := copyData_bytes blocks d
  rw [if_neg hd] at hcopy
  refine ⟨_, vfsWriteFile_eq hfind ha hfile hperm hfree hcopy, fun text => ?_⟩
  have hcheck := vfsCheckPermission_eq hfind ha s.identity.vfsCurrentUser (permRead >>> 6)
  by_cases hread : permits s.identity a s.identity.vfsCurrentUser (permRead >>> 6) = true
  · rw [readBytes_written hfind ha hfile hread]
    simp [MayRead, hcheck, hread, eq_comm]
  · have hfind' : vfsFindNode (written s n blocks (some d)) path = .ok (some n) := by
      rw [find_written, hfind]
    rw [readBytes_of_file hfind' (valAt_written blocks ha (some d)) hfile, identity_written]
    refine iff_of_false ?_ fun h => hread (Except.ok.inj (hcheck.symm.trans h.2))
    intro h
    split at h
    · next hyes => exact hread hyes
    · cases h

theorem write_refused {s s' : VfsState} {path d : Bytes} {r : Int} (hno : ¬ MayWrite s path)
    (h : vfsWriteFile s path (.bytes d) d.length = .ok (r, s')) : r = -1 ∧ s' = s := by
  rcases vfsWriteFile_cases h with hsame | ⟨n, a, blocks, _, hfind, ha, hfile, hperm, hfree, _⟩
  · exact hsame
  · exact absurd ⟨n, a, blocks, hfind, ha, hfile, hperm, hfree⟩ hno

end Files

section Stored

variable {sys : System ω} {w w₁ : World ω} {path : Bytes} {s₃ : VfsState}

theorem vfs_capture (sys : System ω) (opened : Bool) (answer : Answer ω) :
    (capture sys opened answer).vfs = answer.world.vfs := by
  unfold capture
  split <;> rfl

theorem createStrtok_total {s : VfsState} (hmade : createMissing s path = .ok s₃) :
    ∃ t, createStrtok s path = .ok t := by
  obtain ⟨found, hfind, hrest⟩ := Outcome.bind_eq_ok.mp hmade
  obtain ⟨here, hhere⟩ := findStrtok_total s path
  cases found with
  | some n => exact ⟨here, by simp [createStrtok, hfind, hhere, bind, Except.bind]⟩
  | none =>
    obtain ⟨_, hcreate, _⟩ := Outcome.map_eq_ok.mp hrest
    obtain ⟨⟨parentPath, name⟩, hsplit, _⟩ := Outcome.bind_eq_ok.mp hcreate
    obtain ⟨above, habove⟩ := findStrtok_total s parentPath
    exact ⟨above.or here, by simp [createStrtok, hfind, hhere, hsplit, habove, bind, Except.bind]⟩

theorem storeBuffer_empty (hempty : w.redirectBuffer = []) (hmade : createMissing w.vfs path = .ok s₃) :
    ∃ t, storeBuffer w path = .ok (true, { w with redirectActive := false, vfs := s₃ }, t) := by
  obtain ⟨t, ht⟩ := createStrtok_total hmade
  exact ⟨t, by simp [storeBuffer, ht, hmade, hempty, bind, Except.bind]⟩

theorem storeBuffer_full (hfull : w.redirectBuffer ≠ []) (hmade : createMissing w.vfs path = .ok s₃)
    (hwrite : MayWrite s₃ path) :
    ∃ s t, storeBuffer w path = .ok (true, { w with redirectActive := false, vfs := s }, t) ∧
      ∀ text, readBytes s path = some text ↔ text = w.redirectBuffer ∧ MayRead s₃ path := by
  obtain ⟨t, ht⟩ := createStrtok_total hmade
  obtain ⟨here, hhere⟩ := findStrtok_total s₃ path
  obtain ⟨s, hcall, hread⟩ := write_read hwrite hfull
  refine ⟨s, here.or t, ?_, hread⟩
  simp [storeBuffer, ht, hmade, hfull, hhere, hcall, bind, Except.bind]

theorem storeBuffer_ok {stored : Bool} {after : World ω} {t : Option Strtok} {path : Bytes}
    (h : storeBuffer w path = .ok (stored, after, t)) :
    ∃ s, createMissing w.vfs path = .ok s ∧
      (w.redirectBuffer = [] ∧ after.vfs = s ∨
        w.redirectBuffer ≠ [] ∧ ∃ r, vfsWriteFile s path (.bytes w.redirectBuffer)
          w.redirectBuffer.length = .ok (r, after.vfs) ∧ stored = (r == 0)) := by
  obtain ⟨_, _, hrest⟩ := Outcome.bind_eq_ok.mp h
  obtain ⟨s, hmade, hrest⟩ := Outcome.bind_eq_ok.mp hrest
  refine ⟨s, hmade, ?_⟩
  split at hrest
  · next hempty =>
    obtain ⟨_, hafter⟩ := Prod.mk.inj (Except.ok.inj hrest)
    obtain ⟨rfl, _⟩ := Prod.mk.inj hafter
    exact .inl ⟨hempty, rfl⟩
  · next hfull =>
    obtain ⟨_, _, hrest⟩ := Outcome.bind_eq_ok.mp hrest
    obtain ⟨⟨r, s'⟩, hwrite, hdone⟩ := Outcome.bind_eq_ok.mp hrest
    obtain ⟨hstored, hafter⟩ := Prod.mk.inj (Except.ok.inj hdone)
    obtain ⟨rfl, _⟩ := Prod.mk.inj hafter
    exact .inr ⟨hfull, r, hwrite, hstored.symm⟩

theorem storeBuffer_refused {stored : Bool} {after : World ω} {t : Option Strtok}
    (hfull : w.redirectBuffer ≠ []) (hmade : createMissing w.vfs path = .ok s₃)
    (hno : ¬ MayWrite s₃ path) (h : storeBuffer w path = .ok (stored, after, t)) : stored = false := by
  obtain ⟨s, hmade', ⟨hempty, _⟩ | ⟨_, r, hwrite, hstored⟩⟩ := storeBuffer_ok h
  · exact absurd hempty hfull
  · obtain rfl := Except.ok.inj (hmade.symm.trans hmade')
    obtain ⟨rfl, _⟩ := write_refused hno hwrite
    exact hstored

end Stored

section Law

def target (w : World ω) (file : Bytes) : Bytes := buildFullPath 512 w.vfs.currentDirectory file

def former (w : World ω) (file : Bytes) (appendMode : Bool) : Bytes :=
  if appendMode then formerContent w.vfs (target w file) else []

def StoresOutput (sys : System ω) (w : World ω) (args : List Bytes) (file : Bytes)
    (appendMode : Bool) (o : Bytes) : Prop :=
  ∀ r, executeCommandWithRedirection sys args (some file) appendMode w = .ok r → r.status = 0 →
    readBytes r.world.vfs (target w file) = some (former w file appendMode ++ o)

def keepsFormer (s : VfsState) (path : Bytes) (appendMode : Bool) : Bool :=
  appendMode &&
    match vfsReadFile s path with
    | .ok (some (some _, size), _) => decide (0 < size) && decide (size < redirectBufferSize)
    | _ => false

def StoredWhen (sys : System ω) (w : World ω) (file : Bytes) (appendMode opened : Bool)
    (answer : Answer ω) (s : VfsState) : Prop :=
  let o := answer.printed
  let before := former w file appendMode
  if fits sys opened answer ∧ o.head? ≠ some endOfText then
    MayWrite s (target w file) → before = [] ∧ endOfText ∉ o ∧ MayRead s (target w file)
  else if fits sys opened answer = false ∧ keepsFormer w.vfs (target w file) appendMode then
    MayWrite s (target w file) → o = [] ∧ MayRead s (target w file)
  else readBytes s (target w file) = some (before ++ o)

variable {sys : System ω} {w w₁ : World ω} {name file path : Bytes} {rest : List Bytes}
  {handler : Handler ω} {appendMode opened : Bool} {answer : Answer ω} {s₃ : VfsState}

theorem existingContent_eq {s s' : VfsState} {content : Bytes}
    (h : existingContent s path = .ok (content, s')) :
    content = (if keepsFormer s path true then formerContent s path else []) ∧
      (keepsFormer s path true = true → content ≠ []) := by
  obtain ⟨⟨found, t⟩, hread, hrest⟩ := Outcome.bind_eq_ok.mp h
  match found with
  | none =>
    obtain ⟨rfl, _⟩ := Prod.mk.inj (Except.ok.inj hrest)
    simp [keepsFormer, hread]
  | some (none, size) =>
    obtain ⟨rfl, _⟩ := Prod.mk.inj (Except.ok.inj hrest)
    simp [keepsFormer, hread]
  | some (some p, size) =>
    simp only at hrest
    split at hrest
    · next hsize =>
      obtain ⟨bytes, hbuffer, hdone⟩ := Outcome.bind_eq_ok.mp hrest
      obtain ⟨rfl, rfl⟩ := Prod.mk.inj (Except.ok.inj hdone)
      simp only [readBuffer] at hbuffer
      split at hbuffer
      · cases hbuffer
      · next block hblock =>
        split at hbuffer
        · next hlen =>
          obtain rfl := Except.ok.inj hbuffer
          have hbytes : readBytes s path = some (block.take size) := by
            simp [readBytes, hread, bytesAt, hblock]
          simp only [keepsFormer, hread, hsize, formerContent_of_read hbytes]
          cases size with
          | zero => simp
          | succ size =>
            have hne : block.take (size + 1) ≠ [] := by
              rw [← List.length_pos_iff, List.length_take]
              omega
            simp [hne]
        · cases hbuffer
    · next hsize =>
      obtain ⟨rfl, _⟩ := Prod.mk.inj (Except.ok.inj hrest)
      simp [keepsFormer, hread, hsize]

theorem startRedirection_buffer (hstart : startRedirection w (target w file) appendMode = .ok w₁) :
    w₁.redirectBuffer =
        (if keepsFormer w.vfs (target w file) appendMode then former w file appendMode else []) ∧
      (keepsFormer w.vfs (target w file) appendMode = true → w₁.redirectBuffer ≠ []) := by
  cases appendMode with
  | false =>
    obtain rfl := Except.ok.inj hstart
    exact ⟨rfl, fun h => by cases h⟩
  | true =>
    obtain ⟨⟨content, s⟩, hcontent, hdone⟩ := Outcome.bind_eq_ok.mp hstart
    obtain rfl := Except.ok.inj hdone
    exact existingContent_eq hcontent

theorem executeCapturing_handler (hcommand : sys.commandTable.lookup name = some (some handler)) :
    executeCapturing sys (name :: rest) w = .ok (0, handler (name :: rest) w) := by
  unfold executeCapturing
  split
  · simp [executeSimpleCommandWithExitCode, hcommand]
  · simp [executeSimpleCommandWithRedirect, hcommand]

theorem buffer_capture : (capture sys opened answer).redirectBuffer =
    if fits sys opened answer then answer.printed.takeWhile (· ≠ endOfText)
    else answer.world.redirectBuffer := by
  unfold capture
  split
  · exact textRead_textWrite answer.printed
  · rfl

theorem printed_ne_nil (hfits : fits sys opened answer = true) : answer.printed ≠ [] := by
  intro hnil
  simp [fits, hnil, textWrite] at hfits

theorem takeWhile_eq_append {before o : Bytes} :
    before ++ o = o.takeWhile (· ≠ endOfText) ↔ before = [] ∧ endOfText ∉ o := by
  constructor
  · intro h
    have hlen := congrArg List.length h
    have hle := (List.takeWhile_sublist (· ≠ endOfText) (l := o)).length_le
    rw [List.length_append] at hlen
    obtain rfl : before = [] := List.length_eq_zero_iff.mp (by omega)
    refine ⟨rfl, fun hin => ?_⟩
    have hall := List.takeWhile_eq_self_iff.mp h.symm endOfText hin
    simp at hall
  · rintro ⟨rfl, hnot⟩
    refine (List.takeWhile_eq_self_iff.mpr fun c hc => ?_).symm
    simpa using ne_of_mem_of_not_mem hc hnot

theorem executeRedirected_eq {args : List Bytes} {status : Int} {stored : Bool} {after : World ω}
    {t : Option Strtok} (hstart : startRedirection w path appendMode = .ok w₁)
    (hrun : executeCapturing sys args w₁ = .ok (status, answer))
    (hstore : storeBuffer (capture sys (sys.tempOpens w₁) answer) path = .ok (stored, after, t)) :
    executeRedirected sys args path appendMode w =
      .ok ⟨if stored then status else 1, after, t.or answer.strtok, [⟨args, w₁, status,
        answer.printed ++ answer.world.redirectBuffer.drop w₁.redirectBuffer.length⟩]⟩ := by
  simp only [executeRedirected, hstart, hrun, hstore, bind, Except.bind]

theorem storeBuffer_reads {w₂ : World ω} {text : Bytes} (hmade : createMissing w₂.vfs path = .ok s₃) :
    (∀ after t, storeBuffer w₂ path = .ok (true, after, t) → readBytes after.vfs path = some text) ↔
      if w₂.redirectBuffer = [] then readBytes s₃ path = some text
      else MayWrite s₃ path → text = w₂.redirectBuffer ∧ MayRead s₃ path := by
  by_cases hempty : w₂.redirectBuffer = []
  · obtain ⟨t, hstore⟩ := storeBuffer_empty hempty hmade
    simp [hstore, hempty]
  · rw [if_neg hempty]
    constructor
    · intro h hwrite
      obtain ⟨s, t, hstore, hread⟩ := storeBuffer_full hempty hmade hwrite
      exact (hread text).mp (h _ t hstore)
    · intro h after t hafter
      by_cases hwrite : MayWrite s₃ path
      · obtain ⟨s, t', hstore, hread⟩ := storeBuffer_full hempty hmade hwrite
        obtain ⟨rfl, _⟩ := Prod.mk.inj (Prod.mk.inj (Except.ok.inj (hstore.symm.trans hafter))).2
        exact (hread text).mpr (h hwrite)
      · exact absurd (storeBuffer_refused hempty hmade hwrite hafter) (by simp)

theorem storesOutput_iff {args : List Bytes} {c : UInt8} {text : Bytes}
    (hstart : startRedirection w (target w (c :: file)) appendMode = .ok w₁)
    (hrun : executeCapturing sys args w₁ = .ok (0, answer)) :
    StoresOutput sys w args (c :: file) appendMode text ↔
      ∀ after t, storeBuffer (capture sys (sys.tempOpens w₁) answer) (target w (c :: file)) =
          .ok (true, after, t) →
        readBytes after.vfs (target w (c :: file)) =
          some (former w (c :: file) appendMode ++ text) := by
  constructor
  · intro h after t hstore
    exact h _ (executeRedirected_eq hstart hrun hstore) rfl
  · intro h r hr hstatus
    obtain ⟨_, hstart', hrest⟩ := Outcome.bind_eq_ok.mp hr
    obtain rfl := Except.ok.inj (hstart.symm.trans hstart')
    obtain ⟨_, hrun', hrest⟩ := Outcome.bind_eq_ok.mp hrest
    obtain rfl := Except.ok.inj (hrun.symm.trans hrun')
    obtain ⟨⟨stored, after, t⟩, hstore, hdone⟩ := Outcome.bind_eq_ok.mp hrest
    obtain rfl := Except.ok.inj hdone
    cases stored with
    | true => exact h after t hstore
    | false => cases hstatus

theorem storedWhen_iff (hstart : startRedirection w (target w file) appendMode = .ok w₁)
    (hplain : answer.world.redirectBuffer = w₁.redirectBuffer) :
    (if (capture sys opened answer).redirectBuffer = [] then
        readBytes s₃ (target w file) = some (former w file appendMode ++ answer.printed)
      else MayWrite s₃ (target w file) →
        former w file appendMode ++ answer.printed = (capture sys opened answer).redirectBuffer ∧
          MayRead s₃ (target w file)) ↔
      StoredWhen sys w file appendMode opened answer s₃ := by
  obtain ⟨hbuffer, hkept⟩ := startRedirection_buffer hstart
  rw [buffer_capture, hplain]
  simp only [StoredWhen]
  by_cases hfits : fits sys opened answer = true
  · simp only [hfits, if_true]
    obtain ⟨c, o, ho⟩ := List.exists_cons_of_ne_nil (printed_ne_nil hfits)
    by_cases hc : c = endOfText
    · simp [ho, hc]
    · have hne : answer.printed.takeWhile (· ≠ endOfText) ≠ [] := by simp [ho, hc]
      have hhead : answer.printed.head? ≠ some endOfText := by simp [ho, hc]
      rw [if_neg hne, takeWhile_eq_append, if_pos ⟨trivial, hhead⟩, and_assoc]
  · simp only [hfits]
    by_cases hkeeps : keepsFormer w.vfs (target w file) appendMode = true
    · rw [hkeeps, if_pos rfl] at hbuffer
      have hne : former w file appendMode ≠ [] := hbuffer ▸ hkept hkeeps
      simp [hbuffer, hkeeps, hne]
    · simp [hbuffer, hkeeps]

theorem redirection_stores_iff (hcommand : sys.commandTable.lookup name = some (some handler))
    (hfile : file ≠ []) (hstart : startRedirection w (target w file) appendMode = .ok w₁)
    (hplain : (handler (name :: rest) w₁).world.redirectBuffer = w₁.redirectBuffer)
    (hmade : createMissing (handler (name :: rest) w₁).world.vfs (target w file) = .ok s₃) :
    StoresOutput sys w (name :: rest) file appendMode (handler (name :: rest) w₁).printed ↔
      StoredWhen sys w file appendMode (sys.tempOpens w₁) (handler (name :: rest) w₁) s₃ := by
  have hrun : executeCapturing sys (name :: rest) w₁ = .ok (0, handler (name :: rest) w₁) :=
    executeCapturing_handler hcommand
  generalize handler (name :: rest) w₁ = answer at hrun hplain hmade ⊢
  rw [← vfs_capture sys (sys.tempOpens w₁)] at hmade
  obtain ⟨c, file', rfl⟩ := List.exists_cons_of_ne_nil hfile
  rw [← storedWhen_iff hstart hplain, storesOutput_iff hstart hrun, storeBuffer_reads hmade]

end Law

section Concrete

theorem redirection_stores_iff_hi :
    StoresOutput smallSystem (loggedIn oneFile) [str "hi"] (str "/f") false (str "hi") ↔
      StoredWhen smallSystem (loggedIn oneFile) (str "/f") false true
        (sayHi [str "hi"] { loggedIn oneFile with redirectActive := true }) oneFile := by
  have htarget : target (loggedIn oneFile) (str "/f") = str "/f" := by decide +kernel
  refine @redirection_stores_iff _ smallSystem _ _ (str "hi") _ [] sayHi _ _ rfl (by decide) rfl rfl
    ?_
  rw [htarget]
  simp [createMissing, sayHi, loggedIn, find_oneFile, bind, Except.bind]

def oldFile : VfsState :=
  ran (fun _ _ => true) (openHost []) [.createFile (str "/f"), .writeFile (str "/f") (str "old")]

def oldAttr : Attr := { newFile with data := some 0, size := 3 }

theorem find_oldFile : vfsFindNode oldFile (str "/f") = .ok (some 7) := by
  rw [vfsFindNode_of_live (by decide +kernel)]
  exact congrArg Except.ok (by decide +kernel)

theorem valAt_oldFile : Forest.valAt oldFile.nodes 7 = some oldAttr := by decide +kernel

def leaves (text path : Bytes) : Outcome (Ran Unit) → Bool
  | .ok r => r.status == 0 && readBytes r.world.vfs path == some text
  | .error _ => false

theorem leaves_ok {text path : Bytes} {ran : Outcome (Ran Unit)} (h : leaves text path ran = true) :
    ∃ r, ran = .ok r ∧ r.status = 0 ∧ readBytes r.world.vfs path = some text := by
  cases ran with
  | error e => cases h
  | ok r =>
    simp only [leaves, Bool.and_eq_true, beq_iff_eq] at h
    exact ⟨r, rfl, h⟩

theorem append_overwrites :
    ¬ ∀ (sys : System Unit) (w w₁ : World Unit) (name file : Bytes) (rest : List Bytes)
      (handler : Handler Unit) (s : VfsState),
      sys.commandTable.lookup name = some (some handler) → file ≠ [] →
      startRedirection w (target w file) true = .ok w₁ →
      (handler (name :: rest) w₁).world.redirectBuffer = w₁.redirectBuffer →
      createMissing (handler (name :: rest) w₁).world.vfs (target w file) = .ok s →
      MayWrite s (target w file) →
      StoresOutput sys w (name :: rest) file true (handler (name :: rest) w₁).printed := by
  intro hall
  have htarget : target (loggedIn oldFile) (str "/f") = str "/f" := by decide +kernel
  have hstart : startRedirection (loggedIn oldFile) (target (loggedIn oldFile) (str "/f")) true =
      .ok { loggedIn oldFile with redirectActive := true, redirectBuffer := str "old" } := by
    have hread := vfsReadFile_eq find_oldFile valAt_oldFile rfl (by decide +kernel)
    have hblock : oldFile.blocks.get 0 = some (str "old") := by decide +kernel
    rw [htarget]
    simp [startRedirection, existingContent, hread, hblock, loggedIn, oldAttr, readBuffer,
      redirectBufferSize, bind, Except.bind]
    rfl
  have hmade : createMissing oldFile (target (loggedIn oldFile) (str "/f")) = .ok oldFile := by
    rw [htarget]
    simp [createMissing, find_oldFile, bind, Except.bind]
  have hwrite : MayWrite oldFile (target (loggedIn oldFile) (str "/f")) := by
    rw [htarget]
    exact ⟨7, oldAttr, _, find_oldFile, valAt_oldFile, rfl, by decide +kernel, rfl⟩
  have hlaw := hall smallSystem (loggedIn oldFile) _ (str "hi") (str "/f") [] sayHi oldFile rfl
    (by decide) hstart rfl hmade hwrite
  have hrun : leaves (str "hi") (str "/f") (executeCommandWithRedirection smallSystem [str "hi"]
      (some (str "/f")) true (loggedIn oldFile)) = true := by decide +kernel
  obtain ⟨r, hr, hstatus, hread⟩ := leaves_ok hrun
  have hstored := hlaw r hr hstatus
  rw [htarget, hread] at hstored
  exact absurd hstored (by decide +kernel)

end Concrete

end ZoraVM.Shell
